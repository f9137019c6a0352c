import Mathlib.Data.List.Basic
import Mathlib.Tactic

/-!
# The expression parser (`parser.c`)

A recursive-descent parser over a list of tokens. The two levels of binary operators
have the same code over different operators, so they are one function of the level.
`fuel` bounds the depth of calls and loop iterations. A value is whatever `strtod`
made of a literal, so its type is a parameter.
-/
namespace OsProjects.Jit

/-- A token of `lexer.h`; the end of the list stands for the sentinel `LEXER_OP_`. -/
inductive Token (ν : Type) where
  | val (v : ν)
  | add
  | sub
  | mul
  | div
  | open_
  | close
  deriving DecidableEq, Repr

inductive DagOp where
  | mul
  | div
  | add
  | sub
  deriving DecidableEq, Repr

/-- The value of the enumerator in `enum parser_dag_op`. -/
def DagOp.code : DagOp → Nat
  | .mul => 3
  | .div => 4
  | .add => 5
  | .sub => 6

/-- `struct parser_dag`. -/
inductive Dag (ν : Type) where
  | val (id : Nat) (v : ν)
  | neg (id : Nat) (right : Dag ν)
  | bin (op : DagOp) (id : Nat) (left right : Dag ν)
  deriving DecidableEq, Repr

/-- `stop` keeps the message of the one `TRACE` that `TRACE_ONCE` lets through. -/
structure Parser (ν : Type) where
  id : Nat
  stop : Option String
  toks : List (Token ν)
  deriving DecidableEq, Repr

inductive Fault where
  | outOfBounds
  | hang
  deriving DecidableEq, Repr

abbrev Result (ν : Type) := Except Fault (Option (Dag ν) × Parser ν)

section
variable {ν : Type}

/-- `TRACE_ONCE` -/
def Parser.trace (p : Parser ν) (m : String) : Parser ν :=
  if p.stop.isSome then p else { p with stop := some m }

/-- The levels of binary operators. -/
inductive Level where
  | multiplicative
  | additive
  deriving DecidableEq, Repr

/-- The operator a token is at a level. -/
def Level.op : Level → Token ν → Option DagOp
  | .multiplicative, .mul => some .mul
  | .multiplicative, .div => some .div
  | .additive, .add => some .add
  | .additive, .sub => some .sub
  | _, _ => none

/-- The table `TBL` of a level. -/
def Level.table : Level → List String
  | .multiplicative => ["*", "/"]
  | .additive => ["+", "-"]

/-- The failure of a right operand: both levels subtract `PARSER_DAG_MUL` from the operator. -/
def invalidOperand (level : Level) (op : DagOp) (p : Parser ν) : Result ν :=
  match level.table[op.code - DagOp.mul.code]? with
  | none => .error .outOfBounds
  | some name => .ok (none, p.trace ("invalid '" ++ name ++ "' operand"))

mutual

def exprPrimary : Nat → Parser ν → Result ν
  | 0, _ => .error .hang
  | fuel + 1, p =>
    match p.toks with
    | .val v :: rest => .ok (some (.val (p.id + 1) v), { p with id := p.id + 1, toks := rest })
    | .open_ :: rest =>
      match expr fuel { p with toks := rest } with
      | .error e => .error e
      | .ok (none, p) => .ok (none, p.trace "invalid sub-expression")
      | .ok (some dag, p) =>
        match p.toks with
        | .close :: rest => .ok (some dag, { p with toks := rest })
        | _ => .ok (none, p.trace "expecting ')'")
    | _ => .ok (none, p)

def exprUnary : Nat → Parser ν → Result ν
  | 0, _ => .error .hang
  | fuel + 1, p =>
    match p.toks with
    | .add :: rest =>
      match exprUnary fuel { p with toks := rest } with
      | .error e => .error e
      | .ok (none, p) => .ok (none, p.trace "invalid unary '+' operand")
      | .ok (some dag, p) => .ok (some dag, p)
    | .sub :: rest =>
      match exprUnary fuel { p with id := p.id + 1, toks := rest } with
      | .error e => .error e
      | .ok (none, p) => .ok (none, p.trace "invalid unary '-' operand")
      | .ok (some right, p') => .ok (some (.neg (p.id + 1) right), p')
    | _ => exprPrimary fuel p

/-- The operands of a level: `expr_unary` or `expr_multiplicative`. -/
def exprOperand : Level → Nat → Parser ν → Result ν
  | _, 0, _ => .error .hang
  | .multiplicative, fuel + 1, p => exprUnary fuel p
  | .additive, fuel + 1, p => exprBinary .multiplicative fuel p

/-- `expr_multiplicative_` and `expr_additive_` from the head of their loop, with the local
`dag`. The loop does not update `left`; after a self call it goes on with the same one. -/
def exprLoop : Level → Nat → Dag ν → Dag ν → Parser ν → Result ν
  | _, 0, _, _, _ => .error .hang
  | level, fuel + 1, left, dag, p =>
    match p.toks with
    | [] => .ok (some dag, p)
    | tok :: rest =>
      match level.op tok with
      | none => .ok (some dag, p)
      | some op =>
        match exprOperand level fuel { p with id := p.id + 1, toks := rest } with
        | .error e => .error e
        | .ok (none, p) => invalidOperand level op p
        | .ok (some right, p') =>
          let dag := Dag.bin op (p.id + 1) left right
          match exprLoop level fuel dag dag p' with
          | .error e => .error e
          | .ok (none, p) => .ok (none, p.trace "^")
          | .ok (some dag, p) => exprLoop level fuel left dag p

/-- `expr_multiplicative` and `expr_additive`. -/
def exprBinary : Level → Nat → Parser ν → Result ν
  | _, 0, _ => .error .hang
  | level, fuel + 1, p =>
    match exprOperand level fuel p with
    | .error e => .error e
    | .ok (none, p) => .ok (none, p)
    | .ok (some dag, p) => exprLoop level fuel dag dag p

def expr : Nat → Parser ν → Result ν
  | 0, _ => .error .hang
  | fuel + 1, p => exprBinary .additive fuel p

end

def exprMultiplicative_ (fuel : Nat) (p : Parser ν) (left : Dag ν) : Result ν :=
  exprLoop .multiplicative fuel left left p

def exprMultiplicative (fuel : Nat) (p : Parser ν) : Result ν := exprBinary .multiplicative fuel p

def exprAdditive_ (fuel : Nat) (p : Parser ν) (left : Dag ν) : Result ν :=
  exprLoop .additive fuel left left p

def exprAdditive (fuel : Nat) (p : Parser ν) : Result ν := exprBinary .additive fuel p

def top (fuel : Nat) (p : Parser ν) : Result ν :=
  match expr fuel p with
  | .error e => .error e
  | .ok (none, p) => .ok (none, p.trace "invalid expression")
  | .ok (some dag, p) =>
    match p.toks with
    | [] => .ok (some dag, p)
    | _ => .ok (none, p.trace "bogus trailing content")

/-- Calls and iterations that cover every parse of `n` tokens. -/
def enoughFuel (n : Nat) : Nat := 8 * n + 7

/-- The tree that `parser_open` stores, for the tokens of its lexer. -/
def parse (toks : List (Token ν)) : Except Fault (Option (Dag ν)) :=
  (top (enoughFuel toks.length) ⟨0, none, toks⟩).map Prod.fst

end

example : parse [.val 1, .sub, .val 2, .sub, .val 3] =
    .ok (some (.bin .sub 4 (.bin .sub 2 (.val 1 1) (.val 3 2)) (.val 5 3))) := by rfl

end OsProjects.Jit
