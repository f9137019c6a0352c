import OsProjects.Jit.ParserCorrect
import Mathlib.Logic.Relation

/-!
# The operator names

The tables `TBL` are read where a binary operator has no right operand. `Invokes` relates a call of the
parser to the calls it makes, so the reads of a parse are those of the calls it reaches. Every read in
`expr_multiplicative_` selects the name of its operator, and no read in `expr_additive_` does.
-/
namespace OsProjects.Jit

variable {ν : Type}

/-- The calls of the parser's functions, and the iterations of the loops as `exprLoop` has them. -/
inductive Call (ν : Type) where
  | expr (p : Parser ν)
  | primary (p : Parser ν)
  | unary (p : Parser ν)
  | operand (level : Level) (p : Parser ν)
  | loop (level : Level) (left dag : Dag ν) (p : Parser ν)
  | binary (level : Level) (p : Parser ν)

def Call.run (fuel : Nat) : Call ν → Result ν
  | .expr p => Jit.expr fuel p
  | .primary p => exprPrimary fuel p
  | .unary p => exprUnary fuel p
  | .operand level p => exprOperand level fuel p
  | .loop level left dag p => exprLoop level fuel left dag p
  | .binary level p => exprBinary level fuel p

/-- The operand of the operator at the head of the tokens. -/
def Parser.behind (p : Parser ν) (rest : List (Token ν)) : Parser ν :=
  { p with id := p.id + 1, toks := rest }

/-- The calls that a call makes, with the fuel that they have. -/
inductive Calls (fuel : Nat) : Call ν → Call ν → Prop where
  | expr {p : Parser ν} : Calls fuel (.expr p) (.binary .additive p)
  | paren {p : Parser ν} {rest : List (Token ν)} : p.toks = .open_ :: rest →
      Calls fuel (.primary p) (.expr { p with toks := rest })
  | plus {p : Parser ν} {rest : List (Token ν)} : p.toks = .add :: rest →
      Calls fuel (.unary p) (.unary { p with toks := rest })
  | minus {p : Parser ν} {rest : List (Token ν)} : p.toks = .sub :: rest →
      Calls fuel (.unary p) (.unary (p.behind rest))
  | unsigned {p : Parser ν} : (∀ rest, p.toks ≠ .add :: rest ∧ p.toks ≠ .sub :: rest) →
      Calls fuel (.unary p) (.primary p)
  | factor {p : Parser ν} : Calls fuel (.operand .multiplicative p) (.unary p)
  | term {p : Parser ν} : Calls fuel (.operand .additive p) (.binary .multiplicative p)
  | right {level : Level} {left dag : Dag ν} {p : Parser ν} {tok : Token ν}
      {rest : List (Token ν)} {op : DagOp} : p.toks = tok :: rest → level.op tok = some op →
      Calls fuel (.loop level left dag p) (.operand level (p.behind rest))
  | self {level : Level} {left dag right : Dag ν} {p p' : Parser ν} {tok : Token ν}
      {rest : List (Token ν)} {op : DagOp} : p.toks = tok :: rest → level.op tok = some op →
      exprOperand level fuel (p.behind rest) = .ok (some right, p') →
      Calls fuel (.loop level left dag p)
        (.loop level (.bin op (p.id + 1) left right) (.bin op (p.id + 1) left right) p')
  | again {level : Level} {left dag right next : Dag ν} {p p' p'' : Parser ν} {tok : Token ν}
      {rest : List (Token ν)} {op : DagOp} : p.toks = tok :: rest → level.op tok = some op →
      exprOperand level fuel (p.behind rest) = .ok (some right, p') →
      exprLoop level fuel (.bin op (p.id + 1) left right) (.bin op (p.id + 1) left right) p' =
        .ok (some next, p'') →
      Calls fuel (.loop level left dag p) (.loop level left next p'')
  | first {level : Level} {p : Parser ν} : Calls fuel (.binary level p) (.operand level p)
  | tail {level : Level} {left : Dag ν} {p p' : Parser ν} :
      exprOperand level fuel p = .ok (some left, p') →
      Calls fuel (.binary level p) (.loop level left left p')

/-- A call with its fuel invokes another one. -/
def Invokes (a b : Nat × Call ν) : Prop := a.1 = b.1 + 1 ∧ Calls b.1 a.2 b.2

/-- The call that parses the tokens invokes `call`, directly or through others. -/
def Reached (toks : List (Token ν)) (fuel : Nat) (call : Call ν) : Prop :=
  Relation.ReflTransGen Invokes (enoughFuel toks.length, Call.expr ⟨0, none, toks⟩) (fuel, call)

/-- A call that builds the message for an operator without an operand. -/
inductive ReadsTable (fuel : Nat) (level : Level) (op : DagOp) : Call ν → Prop where
  | mk {left dag : Dag ν} {p p' : Parser ν} {tok : Token ν} {rest : List (Token ν)} :
      p.toks = tok :: rest → level.op tok = some op →
      exprOperand level fuel (p.behind rest) = .ok (none, p') →
      ReadsTable fuel level op (.loop level left dag p)

def DagOp.name : DagOp → String
  | .mul => "*"
  | .div => "/"
  | .add => "+"
  | .sub => "-"

/-- The computed index selects the entry of the operator. -/
def Selects (level : Level) (op : DagOp) : Prop :=
  level.table[op.code - DagOp.mul.code]? = some op.name

/-- All reads of the tables in a parse. -/
def NamesOperators (toks : List (Token ν)) : Prop :=
  ∀ fuel call level op, Reached toks (fuel + 1) call → ReadsTable fuel level op call →
    Selects level op

section
variable {fuel n : Nat} {a b c c' : Call ν} {level : Level} {op : DagOp} {tok : Token ν}

theorem selects_iff (operator : level.op tok = some op) : Selects level op ↔ level = .multiplicative := by
  cases level <;> cases tok <;> simp [Level.op] at operator <;> subst operator <;>
    simp [Selects, Level.table, DagOp.code, DagOp.name]

/-- A read that selects nothing stops the call. -/
theorem ReadsTable.fails (reads : ReadsTable fuel level op c) (wrong : ¬ Selects level op) :
    c.run (fuel + 1) = .error .outOfBounds := by
  cases reads with
  | @mk left dag p p' tok rest toks operator missing =>
    have additive : level = .additive := by
      cases level with
      | multiplicative => exact absurd ((selects_iff operator).mpr rfl) wrong
      | additive => rfl
    subst additive
    simp only [Parser.behind] at missing
    simp only [Call.run, exprLoop, toks, operator, missing]
    exact invalidOperand_additive operator p'

/-- A call fails when one that it makes does. -/
theorem Calls.fails (calls : Calls fuel c c') {e : Fault} (fails : c'.run fuel = .error e) :
    c.run (fuel + 1) = .error e := by
  cases calls with
  | expr => exact fails
  | paren toks => simp only [Call.run, exprPrimary, toks] at fails ⊢; rw [fails]
  | plus toks => simp only [Call.run, exprUnary, toks] at fails ⊢; rw [fails]
  | minus toks =>
    simp only [Call.run, Parser.behind] at fails
    simp only [Call.run, exprUnary, toks]; rw [fails]
  | unsigned none_ =>
    simp only [Call.run, exprUnary]
    split
    · rename_i toks
      exact absurd toks (none_ _).1
    · rename_i toks
      exact absurd toks (none_ _).2
    · exact fails
  | factor => exact fails
  | term => exact fails
  | right toks operator =>
    simp only [Call.run, Parser.behind] at fails
    simp only [Call.run, exprLoop, toks, operator, fails]
  | self toks operator operand =>
    simp only [Call.run, Parser.behind] at fails operand
    simp only [Call.run, exprLoop, toks, operator, operand, fails]
  | again toks operator operand self =>
    simp only [Call.run, Parser.behind] at fails operand
    simp only [Call.run, exprLoop, toks, operator, operand, self, fails]
  | first => simp only [Call.run, exprBinary] at fails ⊢; rw [fails]
  | tail operand => simp only [Call.run, exprBinary, operand] at fails ⊢; rw [fails]

/-- The reads of the calls that a call reaches, and that select nothing. -/
def ReachesWrong (a : Nat × Call ν) : Prop :=
  ∃ fuel call level op, Relation.ReflTransGen Invokes a (fuel + 1, call) ∧
    ReadsTable fuel level op call ∧ ¬ Selects level op

theorem ReachesWrong.head (calls : Calls fuel c c') (wrong : ReachesWrong (fuel, c')) :
    ReachesWrong (fuel + 1, c) := by
  obtain ⟨fuel', call, level, op, reaches, reads, not⟩ := wrong
  exact ⟨fuel', call, level, op, .head ⟨rfl, calls⟩ reaches, reads, not⟩

/-- A read outside of a table comes from a call that was reached. -/
theorem reachesWrong_of_fails (fuel : Nat) :
    ∀ c : Call ν, c.run fuel = .error .outOfBounds → ReachesWrong (fuel, c) := by
  induction fuel with
  | zero =>
    intro c fails
    cases c <;> simp [Call.run, expr, exprPrimary, exprUnary, exprOperand_zero, exprLoop,
      exprBinary] at fails
  | succ fuel ih =>
    intro c fails
    have via : ∀ c', Calls fuel c c' → c'.run fuel = .error .outOfBounds →
        ReachesWrong (fuel + 1, c) := fun c' calls fails => .head calls (ih c' fails)
    cases c with
    | expr p => exact via _ .expr fails
    | primary p =>
      simp only [Call.run, exprPrimary] at fails
      split at fails
      · simp at fails
      · rename_i rest toks
        split at fails
        · rename_i e run
          exact via _ (.paren toks) (run.trans (by simpa using fails))
        · simp at fails
        · split at fails <;> simp at fails
      · simp at fails
    | unary p =>
      simp only [Call.run, exprUnary] at fails
      split at fails
      · rename_i rest toks
        split at fails
        · rename_i e run
          exact via _ (.plus toks) (run.trans (by simpa using fails))
        all_goals simp at fails
      · rename_i rest toks
        split at fails
        · rename_i e run
          exact via _ (.minus toks) (run.trans (by simpa using fails))
        all_goals simp at fails
      · rename_i not_add not_sub
        exact via _ (.unsigned fun rest => ⟨not_add rest, not_sub rest⟩) fails
    | operand level p =>
      cases level with
      | multiplicative => exact via _ .factor fails
      | additive => exact via _ .term fails
    | loop level left dag p =>
      simp only [Call.run, exprLoop] at fails
      split at fails
      · simp at fails
      · rename_i tok rest toks
        split at fails
        · simp at fails
        · rename_i op operator
          split at fails
          · rename_i e run
            exact via _ (.right toks operator) (run.trans (by simpa using fails))
          · rename_i p' run
            -- the message of the operator itself
            refine ⟨fuel, _, level, op, .refl, .mk toks operator run, fun selects => ?_⟩
            simp [invalidOperand, show level.table[op.code - DagOp.mul.code]? = some op.name from
              selects] at fails
          · rename_i right p' run
            split at fails
            · rename_i e self
              exact via _ (.self toks operator run) (self.trans (by simpa using fails))
            · simp at fails
            · rename_i next p'' self
              exact via _ (.again toks operator run self) fails
    | binary level p =>
      simp only [Call.run, exprBinary] at fails
      split at fails
      · rename_i e run
        exact via _ .first (run.trans (by simpa using fails))
      · simp at fails
      · rename_i left p' run
        exact via _ (.tail run) fails

theorem fails_of_reaches {a b : Nat × Call ν} (reaches : Relation.ReflTransGen Invokes a b) {e : Fault}
    (fails : b.2.run b.1 = .error e) : a.2.run a.1 = .error e := by
  induction reaches using Relation.ReflTransGen.head_induction_on with
  | refl => exact fails
  | head invokes _ ih =>
    obtain ⟨eq, calls⟩ := invokes
    rw [eq]
    exact calls.fails ih

theorem parse_fails_of_expr {toks : List (Token ν)} {e : Fault}
    (fails : expr (enoughFuel toks.length) ⟨0, none, toks⟩ = .error e) : parse toks = .error e := by
  simp only [parse, top, fails, Except.map]

end

/-- `1 +`: the index is 2, in a table of two names. -/
theorem reads_behind_table : ¬ NamesOperators [Token.val 1, .add] := by
  intro names
  have fails : (Call.expr (⟨0, none, [.val 1, .add]⟩ : Parser Nat)).run
      (enoughFuel [Token.val 1, .add].length) = .error .outOfBounds := by rfl
  obtain ⟨fuel, call, level, op, reaches, reads, wrong⟩ := reachesWrong_of_fails _ _ fails
  exact wrong (names fuel call level op reaches reads)

/-- Each read of a table selects the operator if and only if no binary `+` or `-` misses its
operand. -/
theorem namesOperators_iff (toks : List (Token ν)) :
    NamesOperators toks ↔ ¬ Misses (.binary .additive) toks := by
  rw [← parse_fails_iff]
  constructor
  · rintro names ⟨e, fails⟩
    obtain ⟨fuel, eq, ends⟩ := expr_enough toks ⟨0, none, toks⟩ rfl
    have run : expr (enoughFuel toks.length) ⟨0, none, toks⟩ = .error .outOfBounds := by
      cases run : expr (enoughFuel toks.length) ⟨0, none, toks⟩ with
      | error e =>
        cases e with
        | outOfBounds => rfl
        | hang => exact absurd (eq.symm.trans run) ends
      | ok result =>
        obtain ⟨dag, p⟩ := result
        cases dag with
        | none => simp [parse, top, run, Except.map] at fails
        | some dag => cases rest : p.toks <;> simp [parse, top, run, rest, Except.map] at fails
    obtain ⟨fuel, call, level, op, reaches, reads, wrong⟩ := reachesWrong_of_fails
      (enoughFuel toks.length) (.expr ⟨0, none, toks⟩) run
    exact wrong (names fuel call level op reaches reads)
  · intro never fuel call level op reaches reads
    by_contra wrong
    exact never ⟨_, parse_fails_of_expr (fails_of_reaches reaches (reads.fails wrong))⟩

end OsProjects.Jit
