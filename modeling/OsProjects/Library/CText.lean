import OsProjects.Library.FloatText
import Mathlib.Logic.Function.Basic

/-!
# A fragment of C, from its text to its meaning

A file holds one function over `double`: declarations with an initializer, and a result that is handed
to the function in the argument. Names, floating constants, the four operators, the condition and
parentheses make up the expressions. What the fragment does not have is not read, so nothing is given a
meaning that C would not give it. A function whose names are in order can always be run.
-/
namespace OsProjects.Library.C

inductive Token where
  | word (w : List Char)
  | mark (c : Char)
  /-- A mark that may make up one operator with the next. -/
  | glued (c : Char)
  deriving DecidableEq, Repr

/-- The characters of names and constants. -/
def part (c : Char) : Bool := c.isAlphanum || c = '_' || c = '.'

def merges (c : Char) : Bool := ['+', '-', '*', '/', '='].contains c

/-- A character before the word that the tokens start with. -/
def glue (c : Char) : List Token → List Token
  | .word w :: ts => .word (c :: w) :: ts
  | ts => .word [c] :: ts

def lex : List Char → List Token
  | [] => []
  | c :: s =>
    if part c then if s.head?.any part then glue c (lex s) else .word [c] :: lex s
    else if isSpace c then lex s
    else if merges c && s.head?.any merges then .glued c :: lex s
    else .mark c :: lex s

inductive Op where
  | mul
  | div
  | add
  | sub
  deriving DecidableEq, Repr

inductive Expr where
  | const (q : ℚ)
  | var (x : List Char)
  | neg (e : Expr)
  | bin (op : Op) (a b : Expr)
  | cond (c a b : Expr)
  deriving DecidableEq, Repr

def keywords : List (List Char) :=
  ["auto", "break", "case", "char", "const", "continue", "default", "do", "double", "else", "enum",
    "extern", "float", "for", "goto", "if", "inline", "int", "long", "register", "restrict", "return",
    "short", "signed", "sizeof", "static", "struct", "switch", "typedef", "union", "unsigned", "void",
    "volatile", "while"].map String.toList

def isName (w : List Char) : Bool :=
  w.head?.any (fun c => c.isAlpha || c = '_') && !w.contains '.' && !keywords.contains w

/-- A floating constant: digits with a point. -/
def constant (w : List Char) : Option ℚ :=
  if w.all (fun c => c.isDigit || c = '.') && w.contains '.' then
    match strtod w with
    | some (.finite q, []) => some q
    | _ => none
  else none

def operand (w : List Char) : Option Expr :=
  if isName w then some (.var w) else (constant w).map .const

def mulOp (c : Char) : Option Op := if c = '*' then some .mul else if c = '/' then some .div else none

def addOp (c : Char) : Option Op := if c = '+' then some .add else if c = '-' then some .sub else none

/-- What is read from the tokens, and the tokens behind. -/
abbrev Reader (α : Type) := List Token → Option (α × List Token)

def expect (c : Char) : List Token → Option (List Token)
  | [] => none
  | t :: ts => if t = .mark c then some ts else none

section
variable (self : Reader Expr)

def primary : Reader Expr
  | [] => none
  | .word w :: ts => (operand w).map fun e => (e, ts)
  | t :: ts =>
    if t = .mark '(' then do
      let (e, ts) ← self ts
      return (e, ← expect ')' ts)
    else none

def unary : Reader Expr
  | [] => none
  | t :: ts =>
    if t = .mark '-' then (unary ts).map fun (e, ts) => (.neg e, ts) else primary self (t :: ts)

/-- Operands of one level behind an operand, from left to right. -/
def chain (next : Reader Expr) (op : Char → Option Op) : Nat → Expr → Reader Expr
  | 0, _, _ => none
  | n + 1, a, ts =>
    match ts with
    | .mark c :: rest =>
      match op c with
      | none => some (a, ts)
      | some o => do
        let (b, rest) ← next rest
        chain next op n (.bin o a b) rest
    | _ => some (a, ts)

def multiplicative (n : Nat) : Reader Expr := fun ts => do
  let (a, ts) ← unary self ts
  chain (unary self) mulOp n a ts

def additive (n : Nat) : Reader Expr := fun ts => do
  let (a, ts) ← multiplicative self n ts
  chain (multiplicative self n) addOp n a ts

def conditional (n : Nat) : Reader Expr := fun ts => do
  let (c, ts) ← additive self n ts
  match expect '?' ts with
  | none => return (c, ts)
  | some ts =>
    let (a, ts) ← self ts
    let (b, ts) ← self (← expect ':' ts)
    return (.cond c a b, ts)

end

/-- An expression, with a bound on its depth. -/
def expr : Nat → Reader Expr
  | 0, _ => none
  | n + 1, ts => conditional (expr n) n ts

/-- An expression that all the tokens make up, up to a last part. -/
def exprUpto (last : List Token) (ts : List Token) : Option Expr := do
  let (e, rest) ← expr (ts.length + 2) ts
  if rest = last then return e else none

abbrev Decl := List Char × Expr

/-- A function over `double` that hands its result to the function in its argument. -/
structure Func where
  name : List Char
  param : List Char
  decls : List Decl
  result : Expr
  deriving DecidableEq, Repr

def decl (ts : List Token) : Option Decl :=
  match ts with
  | .word t :: .word x :: ts =>
    if t = "double".toList ∧ isName x then do
      let e ← exprUpto [] (← expect '=' ts)
      return (x, e)
    else none
  | _ => none

def returned (param : List Char) (ts : List Token) : Option Expr :=
  match ts with
  | .word r :: .word f :: ts =>
    if r = "return".toList ∧ f = param then do exprUpto [.mark ')'] (← expect '(' ts) else none
  | _ => none

/-- The statements of the body, with the brace that closes it. -/
def body (param : List Char) : List (List Token) → Option (List Decl × Expr)
  | [] => none
  | s :: ss =>
    if ss = [[.mark '\x7d']] then (returned param s).map fun e => ([], e)
    else do
      let d ← decl s
      let (ds, e) ← body param ss
      return (d :: ds, e)

/-- The type of functions over `double` and the head of the function. -/
def heading (type name param : List Char) : List Token :=
  [.word "typedef".toList, .word "double".toList, .mark '(', .mark '*', .word type, .mark ')',
    .mark '(', .word "double".toList, .mark ')', .mark ';', .word "double".toList, .word name,
    .mark '(', .word type, .word param, .mark ')', .mark '\x7b']

def file (ts : List Token) : Option Func :=
  match (ts[4]? : Option Token), (ts[11]? : Option Token), (ts[14]? : Option Token) with
  | some (.word type), some (.word name), some (.word param) =>
    if isName type ∧ isName name ∧ isName param ∧ ts.take 17 = heading type name param then do
      let (decls, result) ← body param ((ts.drop 17).splitOn (.mark ';'))
      return ⟨name, param, decls, result⟩
    else none
  | _, _, _ => none

/-- The function in a text. -/
def read (s : List Char) : Option Func := file (lex s)

/-- The tokens do not go on with an operator. -/
def Stops (op : Char → Option Op) (ts : List Token) : Prop := ∀ c rest, ts = .mark c :: rest → op c = none

/-- The tokens do not go on with an operator or a condition. -/
def Ends (ts : List Token) : Prop := Stops mulOp ts ∧ Stops addOp ts ∧ expect '?' ts = none

section
variable {self next : Reader Expr} {op : Char → Option Op} {o : Op} {ts us vs : List Token}
  {e a b : Expr} {w : List Char} {c : Char} {n : Nat}

theorem Ends.nil : Ends [] :=
  ⟨fun _ _ eq => (List.cons_ne_nil _ _ eq.symm).elim, fun _ _ eq => (List.cons_ne_nil _ _ eq.symm).elim,
    rfl⟩

theorem stops_mark (none_ : op c = none) : Stops op (.mark c :: ts) := by
  intro d rest eq
  obtain ⟨same, _⟩ := List.cons.inj eq
  rw [← Token.mark.inj same]
  exact none_

theorem Ends.mark (close : c = ')' ∨ c = ':') : Ends (.mark c :: ts) := by
  rcases close with rfl | rfl <;>
    exact ⟨stops_mark rfl, stops_mark rfl, rfl⟩

theorem unary_word (read : operand w = some e) : unary self (.word w :: ts) = some (e, ts) := by
  rw [unary, if_neg Token.noConfusion, primary, read]
  rfl

theorem unary_neg (read : unary self ts = some (e, us)) :
    unary self (.mark '-' :: ts) = some (.neg e, us) := by
  rw [unary, if_pos rfl, read]
  rfl

theorem unary_paren (read : self ts = some (e, .mark ')' :: us)) :
    unary self (.mark '(' :: ts) = some (e, us) := by
  have other : Token.mark '(' ≠ .mark '-' := by decide
  rw [unary, if_neg other]
  simp only [primary, if_true, read, bind, Option.bind, expect]
  rfl

theorem chain_stops (stops : Stops op ts) : chain next op (n + 1) a ts = some (a, ts) := by
  cases ts with
  | nil => rfl
  | cons t ts =>
    cases t with
    | mark c => simp only [chain, stops c ts rfl]
    | _ => rfl

theorem chain_step (operator : op c = some o) (read : next ts = some (b, us)) :
    chain next op (n + 1) a (.mark c :: ts) = chain next op n (.bin o a b) us := by
  simp only [chain, operator, read, bind, Option.bind]

theorem multiplicative_stops (read : unary self ts = some (e, us)) (stops : Stops mulOp us) :
    multiplicative self (n + 1) ts = some (e, us) := by
  simp only [multiplicative, read, bind, Option.bind, chain_stops stops]

theorem multiplicative_step (left : unary self ts = some (a, .mark c :: us)) (operator : mulOp c = some o)
    (right : unary self us = some (b, vs)) (stops : Stops mulOp vs) :
    multiplicative self (n + 2) ts = some (.bin o a b, vs) := by
  simp only [multiplicative, left, bind, Option.bind, chain_step operator right, chain_stops stops]

theorem additive_stops (read : multiplicative self (n + 1) ts = some (e, us)) (stops : Stops addOp us) :
    additive self (n + 1) ts = some (e, us) := by
  simp only [additive, read, bind, Option.bind, chain_stops stops]

theorem additive_step (left : multiplicative self (n + 2) ts = some (a, .mark c :: us))
    (operator : addOp c = some o) (right : multiplicative self (n + 2) us = some (b, vs))
    (stops : Stops addOp vs) : additive self (n + 2) ts = some (.bin o a b, vs) := by
  simp only [additive, left, bind, Option.bind, chain_step operator right, chain_stops stops]

theorem expr_additive (read : additive (expr n) n ts = some (e, us)) (plain : expect '?' us = none) :
    expr (n + 1) ts = some (e, us) := by
  simp only [expr, conditional, read, bind, Option.bind, plain]
  rfl

theorem expr_cond (left : additive (expr n) n ts = some (e, .mark '?' :: us))
    (first : expr n us = some (a, .mark ':' :: vs)) {rest : List Token}
    (second : expr n vs = some (b, rest)) : expr (n + 1) ts = some (.cond e a b, rest) := by
  simp only [expr, conditional, left, bind, Option.bind, expect, if_true, first, second]
  rfl

/-- An operand alone. -/
theorem expr_unary (read : unary (expr (n + 1)) ts = some (e, us)) (ends : Ends us) :
    expr (n + 2) ts = some (e, us) :=
  expr_additive (additive_stops (multiplicative_stops read ends.1) ends.2.1) ends.2.2

theorem expr_mul (left : unary (expr (n + 2)) ts = some (a, .mark c :: us)) (operator : mulOp c = some o)
    (right : unary (expr (n + 2)) us = some (b, vs)) (ends : Ends vs) :
    expr (n + 3) ts = some (.bin o a b, vs) :=
  expr_additive (additive_stops (multiplicative_step left operator right ends.1) ends.2.1) ends.2.2

theorem expr_add (left : unary (expr (n + 2)) ts = some (a, .mark c :: us)) (operator : addOp c = some o)
    (other : mulOp c = none) (right : unary (expr (n + 2)) us = some (b, vs)) (ends : Ends vs) :
    expr (n + 3) ts = some (.bin o a b, vs) :=
  expr_additive (additive_step (multiplicative_stops left (stops_mark other)) operator
    (multiplicative_stops right ends.1) ends.2.1) ends.2.2

theorem exprUpto_expr {last : List Token} (read : expr (ts.length + 2) ts = some (e, last)) :
    exprUpto last ts = some e := by
  simp only [exprUpto, read, bind, Option.bind, if_true]
  rfl

end

/-- An interpretation of the arithmetic on `double`. -/
structure Arith (α : Type) where
  const : ℚ → α
  neg : α → α
  op : Op → α → α → α
  truth : α → Bool

section
variable {α : Type} (I : Arith α)

def Expr.eval (env : List Char → Option α) : Expr → Option α
  | .const q => some (I.const q)
  | .var x => env x
  | .neg e => return I.neg (← e.eval env)
  | .bin op a b => return I.op op (← a.eval env) (← b.eval env)
  | .cond c a b => do if I.truth (← c.eval env) then a.eval env else b.eval env

def runDecls : List Decl → (List Char → Option α) → Option (List Char → Option α)
  | [], env => some env
  | (x, e) :: ds, env => do
    let v ← e.eval I env
    runDecls ds (Function.update env x (some v))

/-- What the function gives for an argument. -/
def Func.run (f : Func) (arg : α → α) : Option α := do
  let env ← runDecls I f.decls fun _ => none
  return arg (← f.result.eval I env)

end

def Expr.vars : Expr → List (List Char)
  | .const _ => []
  | .var x => [x]
  | .neg e => e.vars
  | .bin _ a b => a.vars ++ b.vars
  | .cond c a b => c.vars ++ a.vars ++ b.vars

/-- Each declaration takes a new name and uses those before it. -/
def Scoped (param : List Char) (seen : List (List Char)) : List Decl → Prop
  | [] => True
  | (x, e) :: ds => x ≠ param ∧ x ∉ seen ∧ e.vars ⊆ seen ∧ Scoped param (x :: seen) ds

/-- The names are in order. -/
def Func.Checks (f : Func) : Prop :=
  Scoped f.param [] f.decls ∧ f.result.vars ⊆ f.decls.map Prod.fst

/-- A name that the file does not declare. -/
def Func.Undeclared (f : Func) : Prop :=
  ∃ e ∈ f.result :: f.decls.map Prod.snd, ∃ x ∈ e.vars,
    x ∉ f.name :: f.param :: f.decls.map Prod.fst

instance decideScoped (param : List Char) :
    ∀ (seen : List (List Char)) (ds : List Decl), Decidable (Scoped param seen ds)
  | _, [] => isTrue trivial
  | seen, (x, _) :: ds =>
    have := decideScoped param (x :: seen) ds
    inferInstanceAs (Decidable (_ ∧ _ ∧ _ ∧ Scoped param (x :: seen) ds))

instance (f : Func) : Decidable f.Checks := inferInstanceAs (Decidable (_ ∧ _))

section
variable {α : Type} {I : Arith α} {a b : List Char} {ts us : List Token} {c : Char}

/-- What `lex` would see as one across the border. -/
def Joined (a b : List Char) : Prop :=
  (a.getLast?.any part ∧ b.head?.any part) ∨ (a.getLast?.any merges ∧ b.head?.any merges)

instance : Decidable (Joined a b) := inferInstanceAs (Decidable (_ ∨ _))

theorem glue_ne_nil (c : Char) (ts : List Token) : glue c ts ≠ [] := by
  fun_cases glue c ts <;> exact List.cons_ne_nil _ _

theorem lex_cons_cons (c d : Char) (s : List Char) : lex (c :: d :: s) =
    if part c then if part d then glue c (lex (d :: s)) else .word [c] :: lex (d :: s)
    else if isSpace c then lex (d :: s)
    else if merges c && merges d then .glued c :: lex (d :: s)
    else .mark c :: lex (d :: s) := rfl

theorem lex_ne_nil (inside : part c) : lex (c :: a) ≠ [] := by
  rw [lex, if_pos inside]
  split_ifs
  · exact glue_ne_nil c _
  · exact List.cons_ne_nil _ _

theorem glue_append (some_ : ts ≠ []) : glue c (ts ++ us) = glue c ts ++ us := by
  cases ts with
  | nil => exact absurd rfl some_
  | cons t ts => cases t <;> rfl

theorem lex_append (apart : ¬ Joined a b) : lex (a ++ b) = lex a ++ lex b := by
  induction a with
  | nil => rfl
  | cons c a ih =>
    cases a with
    | nil =>
      simp only [Joined, List.getLast?_singleton, Option.any_some, not_or, not_and] at apart
      simp only [List.cons_append, List.nil_append, lex, List.head?_nil, Option.any_none]
      by_cases inside : part c
      · simp [inside, apart.1 inside]
      · by_cases operator : merges c
        · simp [inside, operator, apart.2 operator]
          split_ifs <;> rfl
        · simp [inside, operator]
          split_ifs <;> rfl
    | cons d a =>
      have rest := ih (by simpa only [Joined, List.getLast?_cons_cons] using apart)
      rw [List.cons_append, List.cons_append, lex_cons_cons, ← List.cons_append, rest, lex_cons_cons]
      by_cases inside : part c
      · rw [if_pos inside, if_pos inside]
        by_cases more : part d
        · rw [if_pos more, if_pos more]
          exact glue_append (lex_ne_nil more)
        · rw [if_neg more, if_neg more, List.cons_append]
      · rw [if_neg inside, if_neg inside]
        split_ifs <;> simp only [List.cons_append]

theorem lex_word (some_ : a ≠ []) (all : ∀ c ∈ a, part c) : lex a = [.word a] := by
  induction a with
  | nil => exact absurd rfl some_
  | cons c a ih =>
    have inside := all c List.mem_cons_self
    cases a with
    | nil => simp [lex, inside]
    | cons d a =>
      rw [lex, if_pos inside, List.head?_cons, Option.any_some,
        if_pos (all d (List.mem_cons_of_mem _ List.mem_cons_self)),
        ih (List.cons_ne_nil d a) fun x mem => all x (List.mem_cons_of_mem c mem)]
      rfl

theorem Expr.eval_some {env : List Char → Option α} {e : Expr} (declared : ∀ x ∈ e.vars, (env x).isSome) :
    ∃ v, e.eval I env = some v := by
  induction e with
  | const q => exact ⟨_, rfl⟩
  | var x => exact Option.isSome_iff_exists.mp (declared x List.mem_cons_self)
  | neg e ih =>
    obtain ⟨v, eq⟩ := ih declared
    exact ⟨_, by rw [Expr.eval, eq]; rfl⟩
  | bin op a b iha ihb =>
    obtain ⟨v, eq⟩ := iha fun x mem => declared x (List.mem_append_left _ mem)
    obtain ⟨w, eq'⟩ := ihb fun x mem => declared x (List.mem_append_right _ mem)
    exact ⟨_, by rw [Expr.eval, eq, eq']; rfl⟩
  | cond c a b ihc iha ihb =>
    obtain ⟨v, eq⟩ := ihc fun x mem => declared x (by simp [Expr.vars, mem])
    obtain ⟨w, eqa⟩ := iha fun x mem => declared x (by simp [Expr.vars, mem])
    obtain ⟨w', eqb⟩ := ihb fun x mem => declared x (by simp [Expr.vars, mem])
    simp only [Expr.eval, eq, eqa, eqb, bind, Option.bind]
    split_ifs
    · exact ⟨w, rfl⟩
    · exact ⟨w', rfl⟩

theorem runDecls_some {param : List Char} {seen : List (List Char)} {ds : List Decl}
    {env : List Char → Option α} (names : Scoped param seen ds) (declared : ∀ x ∈ seen, (env x).isSome) :
    ∃ env', runDecls I ds env = some env' ∧
      (∀ x ∈ seen, (env' x).isSome) ∧ ∀ d ∈ ds, (env' d.1).isSome := by
  induction ds generalizing seen env with
  | nil => exact ⟨env, rfl, declared, by simp⟩
  | cons d ds ih =>
    obtain ⟨x, e⟩ := d
    obtain ⟨_, _, uses, rest⟩ := names
    obtain ⟨v, eq⟩ := Expr.eval_some (I := I) fun y mem => declared y (uses mem)
    have more : ∀ y ∈ x :: seen, (Function.update env x (some v) y).isSome := by
      intro y mem
      by_cases same : y = x
      · rw [same, Function.update_self]
        rfl
      · rw [Function.update_of_ne same]
        exact declared y ((List.mem_cons.mp mem).resolve_left same)
    obtain ⟨env', run, old, new⟩ := ih rest more
    refine ⟨env', ?_, fun y mem => old y (List.mem_cons_of_mem x mem), fun d mem => ?_⟩
    · simp only [runDecls, eq, bind, Option.bind]
      exact run
    · rcases List.mem_cons.mp mem with rfl | mem
      · exact old x List.mem_cons_self
      · exact new d mem

theorem Scoped.uses {param : List Char} {seen : List (List Char)} {ds : List Decl}
    (names : Scoped param seen ds) : ∀ d ∈ ds, d.2.vars ⊆ seen ++ ds.map Prod.fst := by
  induction ds generalizing seen with
  | nil => simp
  | cons d ds ih =>
    obtain ⟨_, _, uses, rest⟩ := names
    intro e mem x used
    rcases List.mem_cons.mp mem with rfl | mem
    · exact List.mem_append_left _ (uses used)
    · have := ih rest e mem used
      simp only [List.cons_append, List.mem_cons, List.mem_append, List.map_cons] at this ⊢
      tauto

/-- A function whose names are in order uses no other names. -/
theorem Func.Checks.declared {f : Func} (h : f.Checks) : ¬ f.Undeclared := by
  rintro ⟨e, mem, x, used, missing⟩
  refine missing (List.mem_cons_of_mem _ (List.mem_cons_of_mem _ ?_))
  rcases List.mem_cons.mp mem with rfl | mem
  · exact h.2 used
  · obtain ⟨d, inside, rfl⟩ := List.mem_map.mp mem
    simpa using h.1.uses d inside used

/-- A function whose names are in order can be run. -/
theorem Func.Checks.run_some {f : Func} (h : f.Checks) (arg : α → α) : ∃ v, f.run I arg = some v := by
  have start : ∀ x ∈ ([] : List (List Char)), ((fun _ => none : List Char → Option α) x).isSome := by
    simp
  obtain ⟨env, run, _, declared⟩ := runDecls_some (I := I) h.1 start
  have uses : ∀ x ∈ f.result.vars, (env x).isSome := by
    intro x mem
    obtain ⟨d, inside, rfl⟩ := List.mem_map.mp (h.2 mem)
    exact declared d inside
  obtain ⟨v, eq⟩ := Expr.eval_some (I := I) uses
  exact ⟨arg v, by simp [Func.run, run, eq]⟩

end

example : (read ("typedef double (*F)(double);\ndouble g(F h) \x7b double x = 0.5; " ++
    "return h(- x * 2.0 - x ? (x) : 1.0); \x7d").toList).map (fun f => (f.decls, f.result)) =
    some ([("x".toList, .const (1 / 2))],
      .cond (.bin .sub (.bin .mul (.neg (.var "x".toList)) (.const 2)) (.var "x".toList))
        (.var "x".toList) (.const 1)) := by decide +kernel

end OsProjects.Library.C
