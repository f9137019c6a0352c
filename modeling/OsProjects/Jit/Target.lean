import OsProjects.Jit.Literals
import OsProjects.Jit.ReflectCorrect
import OsProjects.Library.CText

/-!
# The generated file as C

The text that `generate_with_sigmoid` writes is read back by the rules of C: each declaration with its
name and its expression, and the temporary that is handed to the sigmoid. A literal without a finite
value becomes a name that the file does not declare.
-/
namespace OsProjects.Jit
open Library

/-- The name of a temporary. -/
def name (i : Nat) : List Char := 't' :: Nat.toDigits 10 i

def DagOp.toC : DagOp → C.Op
  | .mul => .mul
  | .div => .div
  | .add => .add
  | .sub => .sub

def signed (negative : Bool) (e : C.Expr) : C.Expr := if negative then .neg e else e

/-- What C makes of a constant that `%f` wrote. -/
def toConstant : Double → C.Expr
  | .finite q => .const (millionths q / 10 ^ 6)
  | .inf negative => signed negative (.var "inf".toList)
  | .nan negative => signed negative (.var "nan".toList)

def Rhs.toC : Rhs Double → C.Expr
  | .lit v => toConstant v
  | .neg i => .neg (.var (name i))
  | .op o i j => .bin o.toC (.var (name i)) (.var (name j))
  | .guarded c i j => .cond (.var (name c)) (.bin .div (.var (name i)) (.var (name j))) (.const 0)

def Program.toC (p : Program Double) : C.Func where
  name := "evaluate".toList
  param := "sigmoid_fnc".toList
  decls := p.body.map fun d => (name d.target, d.rhs.toC)
  result := .var (name p.result)

/-- The literals are those of an expression. -/
def Rhs.Nonneg (r : Rhs Double) : Prop := ∀ q, r = .lit (.finite q) → 0 ≤ q

section
variable {i j : Nat} {a b s : List Char} {c : Char} {q : ℚ}

@[simp] theorem toList_temp (i : Nat) : (temp i).toList = name i := by
  rw [temp, String.toList_append, show toString i = i.repr from rfl, Nat.toList_repr]
  rfl

theorem name_inj (same : name i = name j) : i = j := by
  have digits := congrArg (fun ds => Nat.ofDigitChars 10 ds 0) (List.cons.inj same).2
  simpa only [Nat.ofDigitChars_ten_toDigits] using digits

theorem part_name (c : Char) (mem : c ∈ name i) : C.part c := by
  rcases List.mem_cons.mp mem with rfl | mem
  · rfl
  · simp [C.part, Char.isAlphanum, isDigit_toDigits c mem]

theorem isName_name (i : Nat) : C.isName (name i) := by
  have digits : ∀ c ∈ Nat.toDigits 10 i, c.isDigit = true := isDigit_toDigits
  have point : '.' ∉ Nat.toDigits 10 i := fun mem => absurd (digits _ mem) (by decide)
  have keyword : name i ∉ C.keywords := by
    intro mem
    simp only [C.keywords, name, List.map_cons, List.map_nil, List.mem_cons] at mem
    have typedef : Nat.toDigits 10 i = ['y', 'p', 'e', 'd', 'e', 'f'] := by simpa using mem
    exact absurd (digits 'y' (typedef ▸ List.mem_cons_self)) (by decide)
  simp [C.isName, name, point]
  exact keyword

theorem operand_name (i : Nat) : C.operand (name i) = some (.var (name i)) := if_pos (isName_name i)

/-- A character that ends what stands before it. -/
theorem lex_border (border : C.part c = false) (alone : C.merges c = false) :
    C.lex (a ++ c :: b) = C.lex a ++ C.lex (c :: b) :=
  C.lex_append (by simp [C.Joined, border, alone])

theorem lex_behind (border : C.part c = false) (alone : C.merges c = false) :
    C.lex (c :: b) = C.lex [c] ++ C.lex b :=
  @C.lex_append [c] b (by simp [C.Joined, border, alone])

theorem lex_spaced : C.lex (a ++ ' ' :: b) = C.lex a ++ C.lex b := lex_border rfl rfl

theorem lex_name (i : Nat) : C.lex (name i) = [.word (name i)] :=
  C.lex_word (List.cons_ne_nil _ _) part_name

def Rhs.tokens : Rhs Double → List C.Token
  | .lit v => C.lex (printFixed v)
  | .neg i => [.mark '-', .word (name i)]
  | .op o i j => .word (name i) :: (C.lex o.symbol.toList ++ [.word (name j)])
  | .guarded c i j => [.word (name c), .mark '?', .mark '(', .word (name i), .mark '/', .word (name j),
      .mark ')', .mark ':', .word "0.0".toList]

theorem lex_rhs (r : Rhs Double) : C.lex (r.text fixed).toList = r.tokens := by
  cases r with
  | lit v => simp only [Rhs.text, Rhs.tokens, fixed, String.toList_ofList]
  | neg i =>
    simp only [Rhs.text, String.toList_append, toList_temp]
    show C.lex (['-'] ++ ' ' :: name i) = _
    rw [lex_spaced, lex_name]
    rfl
  | op o i j =>
    simp only [Rhs.text, String.toList_append, toList_temp, List.append_assoc]
    show C.lex (name i ++ ' ' :: (o.symbol.toList ++ ' ' :: name j)) = _
    rw [lex_spaced, lex_spaced, lex_name, lex_name]
    rfl
  | guarded c i j =>
    simp only [Rhs.text, String.toList_append, toList_temp, List.append_assoc]
    show C.lex (name c ++ ' ' :: (['?'] ++ ' ' :: ('(' :: (name i ++ ' ' :: (['/'] ++ ' ' ::
      (name j ++ ')' :: [' ', ':', ' ', '0', '.', '0'])))))) = _
    rw [lex_spaced, lex_spaced, lex_behind (c := '(') rfl rfl, lex_spaced, lex_spaced,
      lex_border rfl rfl, lex_name, lex_name, lex_name]
    rfl

/-- The tokens of a declaration, with its semicolon. -/
def declTokens (d : Decl Double) : List C.Token :=
  [.word "double".toList, .word (name d.target), .mark '='] ++ d.rhs.tokens

theorem lex_decl (d : Decl Double) (s : List Char) :
    C.lex ((d.text fixed).toList ++ s) = declTokens d ++ .mark ';' :: C.lex s := by
  simp only [Decl.text, String.toList_append, toList_temp, List.append_assoc]
  show C.lex ("double".toList ++ ' ' :: (name d.target ++ ' ' :: (['='] ++ ' ' ::
    ((d.rhs.text fixed).toList ++ ';' :: '\n' :: s)))) = _
  rw [lex_spaced, lex_spaced, lex_spaced, lex_border rfl rfl, lex_behind (c := ';') rfl rfl,
    lex_behind (c := '\n') rfl rfl, lex_name, lex_rhs]
  simp only [declTokens, List.append_assoc]
  rfl

theorem lex_decls (ds : List (Decl Double)) (s : List Char) :
    C.lex ((String.join (ds.map (Decl.text fixed))).toList ++ s) =
      ds.flatMap (fun d => declTokens d ++ [.mark ';']) ++ C.lex s := by
  induction ds with
  | nil => simp
  | cons d ds ih =>
    rw [List.map_cons, String.join_cons, String.toList_append, List.append_assoc, lex_decl, ih]
    simp

def returnTokens (i : Nat) : List C.Token :=
  [.word "return".toList, .word "sigmoid_fnc".toList, .mark '(', .word (name i), .mark ')']

/-- The tokens of the body, with its closing brace. -/
def Program.bodyTokens (p : Program Double) : List C.Token :=
  p.body.flatMap (fun d => declTokens d ++ [.mark ';']) ++
    (returnTokens p.result ++ [.mark ';', .mark '\x7d'])


theorem lex_result (i : Nat) : C.lex ("return sigmoid_fnc(".toList ++ (name i ++ ");\n\x7d\n".toList)) =
    returnTokens i ++ [.mark ';', .mark '\x7d'] := by
  show C.lex ("return sigmoid_fnc".toList ++ '(' :: (name i ++ ')' :: ";\n\x7d\n".toList)) = _
  rw [lex_border rfl rfl, lex_behind (c := '(') rfl rfl, lex_border rfl rfl, lex_name]
  rfl

theorem lex_head (s : List Char) :
    C.lex ("typedef double (*sigmoid_t)(double);\n".toList ++
      ("double evaluate(sigmoid_t sigmoid_fnc) \x7b\n".toList ++ s)) =
        C.heading "sigmoid_t".toList "evaluate".toList "sigmoid_fnc".toList ++ C.lex s := by
  have tokens : C.lex ("typedef double (*sigmoid_t)(double);\n".toList ++
    "double evaluate(sigmoid_t sigmoid_fnc) \x7b\n".toList) =
      C.heading "sigmoid_t".toList "evaluate".toList "sigmoid_fnc".toList := by
    decide +kernel
  have ends : ("typedef double (*sigmoid_t)(double);\n".toList ++
    "double evaluate(sigmoid_t sigmoid_fnc) \x7b\n".toList).getLast? = some '\n' := by decide +kernel
  rw [← List.append_assoc, C.lex_append, tokens]
  rw [C.Joined, ends]
  simp [C.part, C.merges]


theorem lex_text (p : Program Double) : C.lex (p.text fixed).toList =
    C.heading "sigmoid_t".toList "evaluate".toList "sigmoid_fnc".toList ++ p.bodyTokens := by
  have text : (p.text fixed).toList = "typedef double (*sigmoid_t)(double);\n".toList ++
      ("double evaluate(sigmoid_t sigmoid_fnc) \x7b\n".toList ++
        ((String.join (p.body.map (Decl.text fixed))).toList ++
          ("return sigmoid_fnc(".toList ++ (name p.result ++ ");\n\x7d\n".toList)))) := by
    unfold Program.text
    repeat rw [String.toList_append]
    rw [toList_temp]
    repeat rw [List.append_assoc]
  rw [text, lex_head, lex_decls, lex_result]
  rfl

theorem unary_name (self : C.Reader C.Expr) (i : Nat) (ts : List C.Token) :
    C.unary self (.word (name i) :: ts) = some (.var (name i), ts) := C.unary_word (operand_name i)

theorem mem_printed (nonneg : 0 ≤ q) :
    '.' ∈ printFixed (.finite q) ∧ ∀ c ∈ printFixed (.finite q), c.isDigit ∨ c = '.' := by
  rw [printFixed, if_neg (not_lt.mpr nonneg), List.nil_append]
  refine ⟨by simp, fun c mem => ?_⟩
  rcases List.mem_append.mp mem with mem | mem
  · exact Or.inl (isDigit_toDigits c mem)
  · rcases List.mem_cons.mp mem with rfl | mem
    · exact Or.inr rfl
    · exact Or.inl (isDigit_sixDigits c mem)

/-- What `%f` wrote is one constant. -/
theorem operand_printed (nonneg : 0 ≤ q) :
    C.operand (printFixed (.finite q)) = some (toConstant (.finite q)) := by
  obtain ⟨point, all⟩ := mem_printed nonneg
  have no_name : ¬ C.isName (printFixed (.finite q)) := by simp [C.isName, point]
  have digits : (printFixed (.finite q)).all (fun c => c.isDigit || c = '.') = true := by
    simpa using all
  have constant : C.constant (printFixed (.finite q)) = some (millionths q / 10 ^ 6 : ℚ) := by
    rw [C.constant, digits, List.contains_iff_mem.mpr point, strtod_printFixed nonneg]
    rfl
  rw [C.operand, if_neg no_name, constant]
  rfl

theorem lex_printed (nonneg : 0 ≤ q) :
    C.lex (printFixed (.finite q)) = [.word (printFixed (.finite q))] := by
  obtain ⟨point, all⟩ := mem_printed nonneg
  refine C.lex_word (List.ne_nil_of_mem point) fun c mem => ?_
  rcases all c mem with digit | rfl
  · simp [C.part, Char.isAlphanum, digit]
  · rfl

theorem exprUpto_lit {v : Double} (nonneg : ∀ q, v = .finite q → 0 ≤ q) :
    C.exprUpto [] (C.lex (printFixed v)) = some (toConstant v) := by
  cases v with
  | finite q =>
    rw [lex_printed (nonneg q rfl)]
    exact C.exprUpto_expr (C.expr_unary (C.unary_word (operand_printed (nonneg q rfl))) C.Ends.nil)
  | inf negative =>
    have inf : C.operand "inf".toList = some (.var "inf".toList) := by decide +kernel
    cases negative with
    | false => exact C.exprUpto_expr (C.expr_unary (C.unary_word inf) C.Ends.nil)
    | true => exact C.exprUpto_expr (C.expr_unary (C.unary_neg (C.unary_word inf)) C.Ends.nil)
  | nan negative =>
    have nan : C.operand "nan".toList = some (.var "nan".toList) := by decide +kernel
    cases negative with
    | false => exact C.exprUpto_expr (C.expr_unary (C.unary_word nan) C.Ends.nil)
    | true => exact C.exprUpto_expr (C.expr_unary (C.unary_neg (C.unary_word nan)) C.Ends.nil)

theorem exprUpto_rhs {r : Rhs Double} (nonneg : r.Nonneg) : C.exprUpto [] r.tokens = some r.toC := by
  cases r with
  | lit v => exact exprUpto_lit fun q eq => nonneg q (eq ▸ rfl)
  | neg i => exact C.exprUpto_expr (C.expr_unary (C.unary_neg (unary_name _ i _)) C.Ends.nil)
  | op o i j =>
    cases o with
    | mul => exact C.exprUpto_expr (C.expr_mul (unary_name _ i _) rfl (unary_name _ j _) C.Ends.nil)
    | div => exact C.exprUpto_expr (C.expr_mul (unary_name _ i _) rfl (unary_name _ j _) C.Ends.nil)
    | add => exact C.exprUpto_expr (C.expr_add (unary_name _ i _) rfl rfl (unary_name _ j _) C.Ends.nil)
    | sub => exact C.exprUpto_expr (C.expr_add (unary_name _ i _) rfl rfl (unary_name _ j _) C.Ends.nil)
  | guarded c i j =>
    have zero : C.operand "0.0".toList = some (.const 0) := by decide +kernel
    have quotient : ∀ n ts, C.unary (C.expr (n + 3)) (.mark '(' :: .word (name i) :: .mark '/' ::
        .word (name j) :: .mark ')' :: ts) =
          some (.bin .div (.var (name i)) (.var (name j)), ts) := fun n ts =>
      C.unary_paren (C.expr_mul (unary_name _ i _) rfl (unary_name _ j _) (C.Ends.mark (Or.inl rfl)))
    have question : ∀ op, op '?' = none → ∀ ts, C.Stops op (.mark '?' :: ts) := fun _ none_ _ =>
      C.stops_mark none_
    exact C.exprUpto_expr (C.expr_cond
      (C.additive_stops (C.multiplicative_stops (unary_name _ c _) (question _ rfl _)) (question _ rfl _))
      (C.expr_unary (quotient _ _) (C.Ends.mark (Or.inr rfl)))
      (C.expr_unary (C.unary_word zero) C.Ends.nil))

/-- No declaration holds a semicolon. -/
theorem declTokens_semicolon {d : Decl Double} (nonneg : d.rhs.Nonneg) : .mark ';' ∉ declTokens d := by
  have rhs : .mark ';' ∉ d.rhs.tokens := by
    cases r : d.rhs with
    | lit v =>
      cases v with
      | finite q => simp [Rhs.tokens, lex_printed (nonneg q r)]
      | inf negative => cases negative <;> decide +kernel
      | nan negative => cases negative <;> decide +kernel
    | neg i => simp [Rhs.tokens]
    | op o i j => cases o <;> simp [Rhs.tokens, DagOp.symbol] <;> decide +kernel
    | guarded c i j => simp [Rhs.tokens]
  simp [declTokens, rhs]

theorem decl_tokens {d : Decl Double} (nonneg : d.rhs.Nonneg) :
    C.decl (declTokens d) = some (name d.target, d.rhs.toC) := by
  simp only [declTokens, List.cons_append, List.nil_append, C.decl, C.expect, if_true, true_and,
    if_pos (isName_name d.target), bind, Option.bind, exprUpto_rhs nonneg]
  rfl

theorem returned_tokens (i : Nat) :
    C.returned "sigmoid_fnc".toList (returnTokens i) = some (.var (name i)) :=
  C.exprUpto_expr (C.expr_unary (unary_name _ i _) (C.Ends.mark (Or.inl rfl)))

theorem body_tokens {ds : List (Decl Double)} (nonneg : ∀ d ∈ ds, d.rhs.Nonneg) (i : Nat) :
    C.body "sigmoid_fnc".toList ((Program.mk ds i).bodyTokens.splitOn (.mark ';')) =
      some (ds.map (fun d => (name d.target, d.rhs.toC)), .var (name i)) := by
  induction ds with
  | nil =>
    have inside : .mark ';' ∉ returnTokens i := by simp [returnTokens]
    have split : (Program.mk [] i : Program Double).bodyTokens.splitOn (.mark ';') =
        [returnTokens i, [.mark '\x7d']] :=
      List.splitOn_append_cons_self_of_not_mem inside [.mark '\x7d']
    rw [split, C.body, if_pos rfl, returned_tokens]
    rfl
  | cons d ds ih =>
    have first := nonneg d List.mem_cons_self
    have rest := ih fun d mem => nonneg d (List.mem_cons_of_mem _ mem)
    have tokens : (Program.mk (d :: ds) i).bodyTokens =
        declTokens d ++ .mark ';' :: (Program.mk ds i).bodyTokens := by
      simp [Program.bodyTokens]
    have more : (Program.mk ds i).bodyTokens.splitOn (.mark ';') ≠ [[.mark '\x7d']] := by
      intro last
      rw [last] at rest
      cases rest
    rw [tokens, List.splitOn_append_cons_self_of_not_mem (declTokens_semicolon first), C.body,
      if_neg more, decl_tokens first, rest]
    rfl

/-- The generated file is a function of the fragment. -/
theorem read_text {p : Program Double} (nonneg : ∀ d ∈ p.body, d.rhs.Nonneg) :
    C.read (p.text fixed).toList = some p.toC := by
  have names : C.isName "sigmoid_t".toList ∧ C.isName "evaluate".toList ∧
      C.isName "sigmoid_fnc".toList := by decide +kernel
  rw [C.read, lex_text]
  set head := C.heading "sigmoid_t".toList "evaluate".toList "sigmoid_fnc".toList with head_eq
  have length : head.length = 17 := rfl
  have type : (head ++ p.bodyTokens)[4]? = some (.word "sigmoid_t".toList) := rfl
  have name_ : (head ++ p.bodyTokens)[11]? = some (.word "evaluate".toList) := rfl
  have param : (head ++ p.bodyTokens)[14]? = some (.word "sigmoid_fnc".toList) := rfl
  have start : (head ++ p.bodyTokens).take 17 = head := by rw [← length, List.take_left]
  have rest : (head ++ p.bodyTokens).drop 17 = p.bodyTokens := by rw [← length, List.drop_left]
  simp only [C.file, type, name_, param, start, rest]
  rw [if_pos ⟨names.1, names.2.1, names.2.2, head_eq⟩, body_tokens nonneg p.result]
  rfl

end

/-- The value that is written for a literal. -/
def rounded : Double → Option ℚ
  | .finite q => some (millionths q / 10 ^ 6)
  | _ => none

/-- An expression with the literals as they are written, where all are finite. -/
def Tree.rounded : Tree Double → Option (Tree ℚ)
  | .val v => (Jit.rounded v).map .val
  | .neg right => right.rounded.map .neg
  | .bin op left right => do return .bin op (← left.rounded) (← right.rounded)

section
variable {α : Type} (I : C.Arith α)

/-- The value of an expression. A division by zero is zero. -/
def Tree.value : Tree ℚ → α
  | .val q => I.const q
  | .neg right => I.neg (right.value)
  | .bin .div left right =>
    if I.truth right.value then I.op .div left.value right.value else I.const 0
  | .bin op left right => I.op op.toC left.value right.value

/-- The arithmetic of C for the declarations. -/
def arithC : Arith Double α where
  lit v := I.const ((Jit.rounded v).getD 0)
  neg := I.neg
  op o := I.op o.toC
  zero := I.const 0
  isZero v := !I.truth v

end

/-- The literals of a right side have finite values. -/
def Rhs.Finite (r : Rhs Double) : Prop := ∀ v, r = .lit v → (rounded v).isSome

/-- The names of C hold what the temporaries hold. -/
def Mirrors {α : Type} (env : Env α) (names : List Char → Option α) : Prop :=
  ∀ i, names (name i) = env i

section
variable {α : Type} {I : C.Arith α} {env env' : Env α} {names : List Char → Option α}
  {r : Rhs Double} {d : Decl Double} {ds : List (Decl Double)} {dag : Dag Double} {v : Double}
  {t : Tree Double} {u : Tree ℚ} {i : Nat}

theorem toConstant_finite (finite : (rounded v).isSome) :
    toConstant v = .const ((rounded v).getD 0) := by
  cases v with
  | finite q => rfl
  | inf negative => cases finite
  | nan negative => cases finite

theorem eval_rhs (mirrors : Mirrors env names) (finite : r.Finite) :
    r.toC.eval I names = r.eval (arithC I) env := by
  cases r with
  | lit v =>
    rw [Rhs.toC, toConstant_finite (finite v rfl)]
    rfl
  | neg i => simp only [Rhs.toC, C.Expr.eval, Rhs.eval, mirrors i, arithC]
  | op o i j => simp only [Rhs.toC, C.Expr.eval, Rhs.eval, mirrors i, mirrors j, arithC]
  | guarded c i j =>
    simp only [Rhs.toC, C.Expr.eval, Rhs.eval, mirrors c, mirrors i, mirrors j, arithC]
    cases env c with
    | none => rfl
    | some v => cases truth : I.truth v <;> simp [truth, DagOp.toC]

theorem Mirrors.update (mirrors : Mirrors env names) (i : Nat) (v : α) :
    Mirrors (Function.update env i (some v)) (Function.update names (name i) (some v)) := by
  intro j
  by_cases same : j = i
  · rw [same, Function.update_self, Function.update_self]
  · rw [Function.update_of_ne same, Function.update_of_ne fun eq => same (name_inj eq), mirrors j]

/-- Declarations that can be run are run by C to the same values. -/
theorem runDecls_exec (finite : ∀ d ∈ ds, d.rhs.Finite) (mirrors : Mirrors env names)
    (run : exec (arithC I) ds env = some env') :
    ∃ names', C.runDecls I (ds.map fun d => (name d.target, d.rhs.toC)) names = some names' ∧
      Mirrors env' names' := by
  induction ds generalizing env names with
  | nil =>
    obtain rfl : env = env' := Option.some.inj run
    exact ⟨names, rfl, mirrors⟩
  | cons d ds ih =>
    obtain ⟨mid, step, rest⟩ := Option.bind_eq_some_iff.mp run
    simp only [Decl.exec] at step
    split_ifs at step
    obtain ⟨v, value, rfl⟩ := Option.map_eq_some_iff.mp step
    obtain ⟨names', ok, mirrors'⟩ := ih (fun d mem => finite d (List.mem_cons_of_mem _ mem))
      (mirrors.update d.target v) rest
    refine ⟨names', ?_, mirrors'⟩
    simp only [List.map_cons, C.runDecls, eval_rhs mirrors (finite d List.mem_cons_self), value, bind,
      Option.bind]
    exact ok

/-- The function hands the value of the tree to its argument. -/
theorem run_generated (nodup : dag.ids.Nodup) (finite : ∀ d ∈ reflect dag, d.rhs.Finite) (arg : α → α) :
    (generateWithSigmoid dag).toC.run I arg = some (arg (dag.eval (arithC I))) := by
  obtain ⟨env, run, value, _⟩ := exec_reflect (arithC I) dag nodup (fun _ => none) fun _ _ => rfl
  have start : Mirrors (fun _ => none : Env α) fun _ => none := fun _ => rfl
  obtain ⟨names, ok, mirrors⟩ := runDecls_exec finite start run
  have decls : (generateWithSigmoid dag).toC.decls =
      (reflect dag).map fun d => (name d.target, d.rhs.toC) := rfl
  have result : (generateWithSigmoid dag).toC.result = .var (name dag.id) := rfl
  have held : names (name dag.id) = some (dag.eval (arithC I)) := (mirrors dag.id).trans value
  rw [C.Func.run, decls, ok, result]
  simp only [C.Expr.eval, held, bind, Option.bind]
  rfl

theorem eval_rounded (all : dag.tree.rounded = some u) : dag.eval (arithC I) = u.value I := by
  induction dag generalizing u with
  | val id v =>
    obtain ⟨q, eq, rfl⟩ := Option.map_eq_some_iff.mp all
    simp only [Dag.eval, arithC, eq, Option.getD_some, Tree.value]
  | neg id right ih =>
    obtain ⟨u, eq, rfl⟩ := Option.map_eq_some_iff.mp all
    simp only [Dag.eval, ih eq, Tree.value]
    rfl
  | bin op id left right ihl ihr =>
    obtain ⟨a, eql, tail⟩ := Option.bind_eq_some_iff.mp all
    obtain ⟨b, eqr, last⟩ := Option.bind_eq_some_iff.mp tail
    obtain rfl := Option.some.inj last
    cases op with
    | div =>
      simp only [Dag.eval, Tree.value, ihl eql, ihr eqr]
      cases truth : I.truth (b.value I) <;> simp [arithC, truth, DagOp.toC]
    | _ =>
      simp only [Dag.eval, Tree.value, ihl eql, ihr eqr]
      rfl

theorem rounded_literals (all : t.rounded = some u) : ∀ v ∈ t.literals, (rounded v).isSome := by
  induction t generalizing u with
  | val v =>
    obtain ⟨q, eq, rfl⟩ := Option.map_eq_some_iff.mp all
    simp [Tree.literals, eq]
  | neg right ih =>
    obtain ⟨u, eq, rfl⟩ := Option.map_eq_some_iff.mp all
    exact ih eq
  | bin op left right ihl ihr =>
    obtain ⟨a, eql, tail⟩ := Option.bind_eq_some_iff.mp all
    obtain ⟨b, eqr, _⟩ := Option.bind_eq_some_iff.mp tail
    intro v mem
    rcases List.mem_append.mp mem with mem | mem
    · exact ihl eql v mem
    · exact ihr eqr v mem

theorem literal_of_not_rounded (some_ : t.rounded = none) : ∃ v ∈ t.literals, rounded v = none := by
  induction t with
  | val v => exact ⟨v, List.mem_cons_self, Option.map_eq_none_iff.mp some_⟩
  | neg right ih => exact ih (Option.map_eq_none_iff.mp some_)
  | bin op left right ihl ihr =>
    cases first : left.rounded with
    | none =>
      obtain ⟨v, mem, none_⟩ := ihl first
      exact ⟨v, List.mem_append_left _ mem, none_⟩
    | some a =>
      have second : right.rounded = none := by
        cases eq : right.rounded with
        | none => rfl
        | some b => simp [Tree.rounded, first, eq] at some_
      obtain ⟨v, mem, none_⟩ := ihr second
      exact ⟨v, List.mem_append_right _ mem, none_⟩

theorem mem_literals {v : Double} :
    v ∈ dag.tree.literals ↔ ∃ d ∈ reflect dag, d.rhs = .lit v := by
  rw [← reflect_literals, List.mem_filterMap]
  refine exists_congr fun d => and_congr_right fun _ => ?_
  cases d.rhs <;> simp [Rhs.literal]

theorem vars_toC (finite : r.Finite) : r.toC.vars = r.uses.map name := by
  cases r with
  | lit v =>
    rw [Rhs.toC, toConstant_finite (finite v rfl)]
    rfl
  | neg i => rfl
  | op o i j => rfl
  | guarded c i j => rfl

theorem name_ne {w : List Char} (other : w.head? ≠ some 't') : name i ≠ w := by
  rintro rfl
  exact other rfl

/-- Declarations in order make up a body whose names are in order. -/
theorem scoped_of_ordered {seen : List Nat} {taken : List (List Char)} (ordered : Ordered seen ds)
    (nodup : (ds.map Decl.target).Nodup) (apart : ∀ d ∈ ds, d.target ∉ seen)
    (finite : ∀ d ∈ ds, d.rhs.Finite) (same : ∀ i, name i ∈ taken ↔ i ∈ seen) :
    C.Scoped "sigmoid_fnc".toList taken (ds.map fun d => (name d.target, d.rhs.toC)) := by
  induction ds generalizing seen taken with
  | nil => trivial
  | cons d ds ih =>
    obtain ⟨uses, rest⟩ := ordered
    obtain ⟨new, nodup⟩ := List.nodup_cons.mp nodup
    refine ⟨name_ne (by decide), fun mem => ?_, fun x mem => ?_, ih rest nodup (fun e mem => ?_)
      (fun e mem => finite e (List.mem_cons_of_mem d mem)) fun i => ?_⟩
    · exact apart d List.mem_cons_self ((same _).mp mem)
    · rw [vars_toC (finite d List.mem_cons_self)] at mem
      obtain ⟨i, used, rfl⟩ := List.mem_map.mp mem
      exact (same i).mpr (uses i used)
    · intro old
      rcases List.mem_append.mp old with old | old
      · exact apart e (List.mem_cons_of_mem d mem) old
      · rw [← List.mem_singleton.mp old] at new
        exact new (List.mem_map_of_mem mem)
    · rw [List.mem_cons, List.mem_append, List.mem_singleton, same i, or_comm]
      exact or_congr_right ⟨name_inj, fun eq => eq ▸ rfl⟩

/-- With finite literals the names of the generated function are in order. -/
theorem generated_checks (nodup : dag.ids.Nodup) (finite : ∀ d ∈ reflect dag, d.rhs.Finite) :
    (generateWithSigmoid dag).toC.Checks := by
  have targets := reflect_targets dag
  refine ⟨scoped_of_ordered (reflect_ordered dag []) (targets.nodup_iff.mpr nodup) (by simp) finite
    (by simp), fun x mem => ?_⟩
  obtain rfl : x = name dag.id := List.mem_singleton.mp mem
  obtain ⟨d, inside, target⟩ := List.mem_map.mp (id_mem_targets dag)
  exact List.mem_map.mpr ⟨(name d.target, d.rhs.toC), List.mem_map_of_mem inside, congrArg name target⟩

/-- A literal without a finite value is a name that is not declared. -/
theorem generated_undeclared (infinite : ∃ d ∈ reflect dag, ∃ v, d.rhs = .lit v ∧ rounded v = none) :
    (generateWithSigmoid dag).toC.Undeclared := by
  obtain ⟨d, mem, v, lit, none_⟩ := infinite
  have vars : ∃ x ∈ (toConstant v).vars, x.head? ≠ some 't' ∧ x ≠ "evaluate".toList ∧
      x ≠ "sigmoid_fnc".toList := by
    cases v with
    | finite q => cases none_
    | inf negative => cases negative <;> exact ⟨_, List.mem_cons_self, by decide +kernel⟩
    | nan negative => cases negative <;> exact ⟨_, List.mem_cons_self, by decide +kernel⟩
  obtain ⟨x, used, letter, function, param⟩ := vars
  refine ⟨d.rhs.toC, ?_, x, ?_, ?_⟩
  · exact List.mem_cons_of_mem _ (List.mem_map.mpr ⟨_, List.mem_map_of_mem mem, rfl⟩)
  · rw [lit]
    exact used
  · intro declared
    rcases List.mem_cons.mp declared with eq | declared
    · exact function eq
    · rcases List.mem_cons.mp declared with eq | declared
      · exact param eq
      · obtain ⟨e, inside, eq⟩ := List.mem_map.mp declared
        obtain ⟨d', _, rfl⟩ := List.mem_map.mp inside
        exact name_ne letter eq

end

end OsProjects.Jit
