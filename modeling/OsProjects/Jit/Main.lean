import OsProjects.Jit.Target

/-!
# The program (`main.c`, `jitc.c`)

An expression is parsed, written as a C function to a file, compiled by `gcc` in a child process, loaded
and called with the sigmoid. What the compiler makes of a text, what the loader finds, the doubles of
`strtod` and the arithmetic of `double` are those of the machine. That the machine compiles says what C
says of the fragment the file is in: a function whose names are in order becomes one with its meaning,
and one with a name that is not declared is rejected. The loader is given a name without a slash, so it
depends on where it searches whether it finds the file that the compiler wrote.
-/
namespace OsProjects.Jit
open Library

section
variable (α : Type)

/-- A loaded object, with what `dlsym` finds in it. -/
abbrev Object := List Char → Option ((α → α) → α)

/-- What comes of the child that runs `gcc`, with the output file behind it. -/
inductive Child where
  /-- `execv` returns, and the child exits with zero. -/
  | absent
  | signalled (status : { n : Nat // n ≠ 0 }) (so : Option (Object α))
  | exited (status : UInt8) (so : Option (Object α))

structure Machine where
  /-- `fopen(CFILE, "w")` gives a file. -/
  opens : Bool
  forks : Bool
  /-- The text of `CFILE` and what stands in `SOFILE`. -/
  gcc : List Char → Option (Object α) → Child α
  /-- What the loader finds under the name `SOFILE`, for what stands in that file. -/
  dlopen : Option (Object α) → Option (Object α)
  /-- The double that `strtod` gives for a decimal or hexadecimal value. -/
  nearest : ℚ → Double
  arith : C.Arith α
  exp : α → α

/-- `CFILE` and `SOFILE`. -/
structure Files where
  c : Option (List Char)
  so : Option (Object α)

/-- How the process ends, and the number that it has printed. -/
inductive Outcome where
  | returned (code : Int) (printed : Option α)
  | exited
  | aborted
  | crashed

end

/-- A tree with other values at its leaves. -/
def Dag.map {ν μ : Type} (f : ν → μ) : Dag ν → Dag μ
  | .val id v => .val id (f v)
  | .neg id right => .neg id (right.map f)
  | .bin op id left right => .bin op id (left.map f) (right.map f)

def Tree.map {ν μ : Type} (f : ν → μ) : Tree ν → Tree μ
  | .val v => .val (f v)
  | .neg right => .neg (right.map f)
  | .bin op left right => .bin op (left.map f) (right.map f)

section
variable {α : Type} (m : Machine α)

/-- What `strtod` returns for a literal, which the lexer keeps with its exact value. -/
def Machine.double : Double → Double
  | .finite q => m.nearest q
  | v => v

def sigmoid (x : α) : α :=
  m.arith.op .div (m.arith.const 1) (m.arith.op .add (m.arith.const 1) (m.exp (m.arith.neg x)))

/-- The status that `jitc_compile` returns, where the process goes on. -/
def jitcCompile (text : List Char) (so : Option (Object α)) : Option (Nat × Option (Object α)) :=
  if m.forks then
    match m.gcc text so with
    | .absent => some (0, so)
    | .signalled status so => some (status, so)
    | .exited status so => some (status.toNat, so)
  else none

/-- `main`, for the arguments behind the name of the program. -/
def main (args : List (List Char)) (files : Files α) : Except Fault (Outcome α × Files α) := do
  match args with
  | [s] =>
    if s = [] then return (.aborted, files)
    match ← parserOpen s with
    | none => return (.returned (-1) none, files)
    | some dag =>
      if m.opens then
        let text := ((generateWithSigmoid (dag.map m.double)).text fixed).toList
        match jitcCompile m text files.so with
        | none => return (.exited, { files with c := some text })
        | some (status, so) =>
          if status ≠ 0 then return (.returned (-1) none, ⟨none, so⟩)
          match m.dlopen so with
          -- `jitc_open` gives NULL, and `jitc_close` reads the handle behind it
          | none => return (.crashed, ⟨none, none⟩)
          | some object =>
            match object "evaluate".toList with
            | none => return (.returned (-1) none, ⟨none, none⟩)
            | some fnc => return (.returned 0 (some (fnc (sigmoid m))), ⟨none, none⟩)
      else return (.returned (-1) none, files)
  | _ => return (.returned (-1) none, files)

/-- The machine works, and compiles what is in the fragment by the rules of C. -/
structure Machine.Compiles : Prop where
  opens : m.opens = true
  forks : m.forks = true
  checks : ∀ text f so, C.read text = some f → f.name = "evaluate".toList → f.Checks →
    ∃ object fnc, m.gcc text so = .exited 0 (some object) ∧ object f.name = some fnc ∧
      ∀ arg, f.run m.arith arg = some (fnc arg)
  undeclared : ∀ text f so, C.read text = some f → f.Undeclared →
    ∃ status so', m.gcc text so = .exited status so' ∧ status ≠ 0
  nearest : ∀ q r, 0 ≤ q → m.nearest q = .finite r → 0 ≤ r

/-- The loader finds the object that stands in `SOFILE`. -/
def Machine.Loads : Prop := ∀ object, m.dlopen (some object) = some object

/-- The loader does not look where `SOFILE` is written. -/
def Machine.LoadsNothing : Prop := ∀ so, m.dlopen so = none

/-- The value of a text: that of the tree which the grammar gives its tokens, with the doubles of the
literals rounded to millionths. -/
def Means (s : List Char) (v : α) : Prop :=
  ∃ toks t u, tokenize s = .ok (some toks) ∧ DerivesTop toks t ∧ (t.map m.double).rounded = some u ∧
    v = u.value m.arith

end

section
variable {ν μ : Type} (f : ν → μ)

@[simp] theorem Dag.tree_map (dag : Dag ν) : (dag.map f).tree = dag.tree.map f := by
  induction dag <;> grind [Dag.map, Dag.tree, Tree.map]

@[simp] theorem Dag.ids_map (dag : Dag ν) : (dag.map f).ids = dag.ids := by
  induction dag <;> grind [Dag.map, Dag.ids]

@[simp] theorem Tree.literals_map (t : Tree ν) : (t.map f).literals = t.literals.map f := by
  induction t <;> grind [Tree.map, Tree.literals]

end

section
variable {α : Type} {m : Machine α} {files : Files α} {s : List Char} {dag : Dag Double} {v : α}

theorem parserOpen_derives {toks : List (Token Double)} {t : Tree Double}
    (tokens : tokenize s = .ok (some toks)) (derives : DerivesTop toks t) :
    ∃ dag, parserOpen s = .ok (some dag) ∧ dag.tree = t := by
  obtain ⟨dag, ok, tree⟩ := parse_of_derives derives
  have some_ : toks.length ≠ 0 := by
    intro none_
    rw [List.eq_nil_of_length_eq_zero none_] at ok
    cases ok
  exact ⟨dag, by simp only [parserOpen, tokens, if_neg some_, ok], tree⟩

/-- What stands in the generated declarations for the literals of a text. -/
theorem parserOpen_body (compiles : m.Compiles) (opened : parserOpen s = .ok (some dag)) :
    (dag.map m.double).ids.Nodup ∧ ∀ d ∈ reflect (dag.map m.double), d.rhs.Nonneg := by
  obtain ⟨toks, tokens, parsed⟩ := parserOpen_ok opened
  have ids : dag.ids.Nodup := (parse_ids parsed).nodup_iff.mpr List.nodup_range'
  refine ⟨by rwa [Dag.ids_map], fun d mem r lit => ?_⟩
  have literal : .finite r ∈ (dag.map m.double).tree.literals := mem_literals.mpr ⟨d, mem, lit⟩
  rw [Dag.tree_map, Tree.literals_map, (derives_of_parse parsed).literals] at literal
  obtain ⟨v, read, value⟩ := List.mem_map.mp literal
  obtain ⟨tok, inside, val⟩ := List.mem_filterMap.mp (by simpa [Symbol.literals] using read)
  cases tok with
  | val w =>
    obtain rfl : w = v := Option.some.inj val
    cases w with
    | finite q => exact compiles.nearest q r (tokenize_nonneg tokens inside) value
    | inf negative => cases value
    | nan negative => cases value
  | _ => cases val

theorem jitcCompile_exited {text : List Char} {so so' : Option (Object α)} {status : UInt8}
    (forks : m.forks = true) (gcc : m.gcc text so = .exited status so') :
    jitcCompile m text so = some (status.toNat, so') := by
  rw [jitcCompile, if_pos forks, gcc]

/-- What `gcc` makes of an expression with finite literals. -/
theorem gcc_value {u : Tree ℚ} (compiles : m.Compiles) (opened : parserOpen s = .ok (some dag))
    (all : (dag.tree.map m.double).rounded = some u) :
    ∃ object fnc, object "evaluate".toList = some fnc ∧ fnc (sigmoid m) = sigmoid m (u.value m.arith) ∧
      jitcCompile m ((generateWithSigmoid (dag.map m.double)).text fixed).toList files.so =
        some (0, some object) := by
  obtain ⟨nodup, nonneg⟩ := parserOpen_body compiles opened
  rw [← Dag.tree_map] at all
  have finite : ∀ d ∈ reflect (dag.map m.double), d.rhs.Finite := fun d mem v lit =>
    rounded_literals all v (mem_literals.mpr ⟨d, mem, lit⟩)
  obtain ⟨object, fnc, gcc, found, runs⟩ :=
    compiles.checks _ _ files.so (read_text nonneg) rfl (generated_checks nodup finite)
  have result := runs (sigmoid m)
  rw [run_generated nodup finite, eval_rounded all] at result
  exact ⟨object, fnc, found, (Option.some.inj result).symm, jitcCompile_exited compiles.forks gcc⟩

/-- An expression with finite literals is compiled. Where the loader finds the object, its value is
printed through the sigmoid, and where it finds none the program faults on the missing handle. -/
theorem main_value (compiles : m.Compiles) (means : Means m s v) :
    (m.Loads → main m [s] files = .ok (.returned 0 (some (sigmoid m v)), ⟨none, none⟩)) ∧
    (m.LoadsNothing → main m [s] files = .ok (.crashed, ⟨none, none⟩)) := by
  obtain ⟨toks, t, u, tokens, derives, all, rfl⟩ := means
  obtain ⟨dag, opened, rfl⟩ := parserOpen_derives tokens derives
  have some_ : s ≠ [] := by
    rintro rfl
    cases opened
  obtain ⟨object, fnc, found, value, compiled⟩ := @gcc_value _ _ files _ _ _ compiles opened all
  simp only [main, if_neg some_, opened, compiles.opens, compiled, if_true, bind, Except.bind]
  rw [if_neg (fun nonzero => nonzero rfl)]
  refine ⟨fun loads => ?_, fun nothing => ?_⟩
  · rw [loads object]
    simp only [found, value]
    rfl
  · rw [nothing (some object)]
    rfl

/-- A literal that is infinite or no number stops the compiler. -/
theorem main_infinite (compiles : m.Compiles) (some_ : s ≠ []) (opened : parserOpen s = .ok (some dag))
    (infinite : (dag.tree.map m.double).rounded = none) :
    ∃ so, main m [s] files = .ok (.returned (-1) none, ⟨none, so⟩) := by
  obtain ⟨_, nonneg⟩ := parserOpen_body compiles opened
  rw [← Dag.tree_map] at infinite
  obtain ⟨v, mem, none_⟩ := literal_of_not_rounded infinite
  obtain ⟨d, inside, lit⟩ := mem_literals.mp mem
  obtain ⟨status, so, gcc, fails⟩ := compiles.undeclared _ _ files.so (read_text nonneg)
    (generated_undeclared ⟨d, inside, v, lit, none_⟩)
  have compiled := jitcCompile_exited compiles.forks gcc
  have nonzero : status.toNat ≠ 0 := fun zero => fails (UInt8.toNat_inj.mp zero)
  refine ⟨so, ?_⟩
  simp only [main, if_neg some_, opened, compiles.opens, compiled, if_true, bind, Except.bind]
  rw [if_pos nonzero]
  rfl

theorem tokenizeFrom_error {e : Fault} : ∀ {fuel s}, tokenizeFrom fuel s = .error e → e = .hang := by
  have mktoken_error : ∀ {tok result}, mktoken tok result = .error e → result = .error e := by
    intro tok result fails
    cases result with
    | error f => simpa [mktoken, Except.map] using fails
    | ok toks => cases fails
  intro fuel
  induction fuel with
  | zero => exact fun fails => (Except.error.inj fails).symm
  | succ fuel ih =>
    intro s fails
    cases s with
    | nil => cases fails
    | cons c s =>
      simp only [tokenizeFrom] at fails
      split at fails
      · exact ih (mktoken_error fails)
      · split_ifs at fails
        · exact ih fails
        · split at fails
          · cases fails
          · exact ih (mktoken_error fails)

theorem parse_error {toks : List (Token Double)} {e : Fault} (fails : parse toks = .error e) :
    e = .outOfBounds := by
  obtain ⟨fuel, eq, ends⟩ := expr_enough toks ⟨0, none, toks⟩ rfl
  simp only [parse, top, eq] at fails
  cases run : exprBinary .additive fuel ⟨0, none, toks⟩ with
  | error f =>
    obtain rfl : f = e := by simpa [run, Except.map] using fails
    cases f with
    | outOfBounds => rfl
    | hang => exact absurd run ends
  | ok result =>
    obtain ⟨dag, p⟩ := result
    cases dag with
    | none => simp [run, Except.map] at fails
    | some dag => cases rest : p.toks <;> simp [run, rest, Except.map] at fails

/-- A fault is that of a parse which misses an operand. -/
theorem parserOpen_error {e : Fault} (fails : parserOpen s = .error e) :
    e = .outOfBounds ∧ ∃ toks, tokenize s = .ok (some toks) ∧ Misses (.binary .additive) toks := by
  cases tokens : tokenize s with
  | error f =>
    obtain rfl := tokenizeFrom_error tokens
    exact absurd tokens (tokenize_ends s)
  | ok result =>
    cases result with
    | none => simp [parserOpen, tokens] at fails
    | some toks =>
      simp only [parserOpen, tokens] at fails
      split_ifs at fails
      · exact ⟨parse_error fails, toks, rfl, (parse_fails_iff toks).mp ⟨e, fails⟩⟩

/-- On a machine that compiles, a text with a value has it printed through the sigmoid, and no file is
left, if the loader finds the object; if it finds none, the program crashes and prints nothing. Any other
text but the empty one, which aborts, ends the program with -1, nothing printed and no C file of its own,
unless the parse reads behind the table of operator names. -/
theorem main_compiles (compiles : m.Compiles) :
    main m [[]] files = .ok (.aborted, files) ∧
    (∀ v, Means m s v →
      (m.Loads → main m [s] files = .ok (.returned 0 (some (sigmoid m v)), ⟨none, none⟩)) ∧
      (m.LoadsNothing → main m [s] files = .ok (.crashed, ⟨none, none⟩))) ∧
    (s ≠ [] → (¬ ∃ v, Means m s v) →
      (∃ files', main m [s] files = .ok (.returned (-1) none, files') ∧
          (files' = files ∨ files'.c = none)) ∨
        main m [s] files = .error .outOfBounds ∧
          ∃ toks, tokenize s = .ok (some toks) ∧ Misses (.binary .additive) toks) := by
  refine ⟨rfl, fun v => main_value compiles, fun some_ nothing => ?_⟩
  cases opened : parserOpen s with
  | error e =>
    obtain ⟨rfl, misses⟩ := parserOpen_error opened
    refine Or.inr ⟨?_, misses⟩
    simp only [main, if_neg some_, opened, bind, Except.bind]
  | ok result =>
    refine Or.inl ?_
    cases result with
    | none =>
      refine ⟨files, ?_, Or.inl rfl⟩
      simp only [main, if_neg some_, opened, bind, Except.bind]
      rfl
    | some dag =>
      obtain ⟨toks, tokens, parsed⟩ := parserOpen_ok opened
      cases all : (dag.tree.map m.double).rounded with
      | none =>
        obtain ⟨so, ends⟩ := main_infinite compiles some_ opened all
        exact ⟨⟨none, so⟩, ends, Or.inr rfl⟩
      | some u => exact absurd ⟨_, toks, _, u, tokens, derives_of_parse parsed, all, rfl⟩ nothing

end

def ratArith : C.Arith ℚ where
  const q := q
  neg x := -x
  op
    | .mul, x, y => x * y
    | .div, x, y => x / y
    | .add, x, y => x + y
    | .sub, x, y => x - y
  truth x := x ≠ 0

/-- Rational arithmetic, with a compiler for the fragment, a loader that finds its file and the
exponential at zero. -/
def rationals : Machine ℚ where
  opens := true
  forks := true
  gcc text so :=
    match C.read text with
    | none => .exited 1 so
    | some f =>
      if f.Checks then
        .exited 0 (some fun name =>
          if name = f.name then some fun arg => (f.run ratArith arg).getD 0 else none)
      else .exited 1 so
  dlopen so := so
  nearest q := .finite q
  arith := ratArith
  exp _ := 1

theorem rationals_compiles : rationals.Compiles where
  opens := rfl
  forks := rfl
  checks text f so read _ checks := by
    refine ⟨fun name => if name = f.name then some fun arg => (f.run ratArith arg).getD 0 else none,
      fun arg => (f.run ratArith arg).getD 0, ?_, if_pos rfl, fun arg => ?_⟩
    · simp only [rationals, read, if_pos checks]
    · obtain ⟨v, run⟩ := checks.run_some (I := ratArith) arg
      show f.run ratArith arg = some ((f.run ratArith arg).getD 0)
      rw [run, Option.getD_some]
  undeclared text f so read undeclared := by
    have wrong : ¬ f.Checks := fun checks => checks.declared undeclared
    refine ⟨1, so, ?_, by decide⟩
    simp only [rationals, read, if_neg wrong]
  nearest q r nonneg same := by
    obtain rfl : q = r := Double.finite.inj same
    exact nonneg

/-- An expression whose value is zero, so its sigmoid is a half. -/
theorem main_compiles_half :
    main rationals ["2 * (1 + .5) - -3 / -0x1".toList] ⟨none, none⟩ =
      .ok (.returned 0 (some (1 / 2)), ⟨none, none⟩) := by
  have opened : parserOpen "2 * (1 + .5) - -3 / -0x1".toList =
      .ok (some (.bin .sub 6
        (.bin .mul 2 (.val 1 (.finite 2)) (.bin .add 4 (.val 3 (.finite 1)) (.val 5 (.finite (1 / 2)))))
        (.bin .div 9 (.neg 7 (.val 8 (.finite 3))) (.neg 10 (.val 11 (.finite 1)))))) := by
    decide +kernel
  obtain ⟨toks, tokens, parsed⟩ := parserOpen_ok opened
  have all : ((Dag.bin .sub 6
      (.bin .mul 2 (.val 1 (.finite 2)) (.bin .add 4 (.val 3 (.finite 1)) (.val 5 (.finite (1 / 2)))))
      (.bin .div 9 (.neg 7 (.val 8 (.finite 3))) (.neg 10
        (.val 11 (.finite 1))))).tree.map rationals.double).rounded =
        some (.bin .sub (.bin .mul (.val 2) (.bin .add (.val 1) (.val (1 / 2))))
          (.bin .div (.neg (.val 3)) (.neg (.val 1)))) := by decide +kernel
  have value : (0 : ℚ) = Tree.value ratArith (.bin .sub
      (.bin .mul (.val 2) (.bin .add (.val 1) (.val (1 / 2)))) (.bin .div (.neg (.val 3))
        (.neg (.val 1)))) := by decide +kernel
  have half : sigmoid rationals 0 = 1 / 2 := by decide +kernel
  have result := ((@main_compiles _ _ ⟨none, none⟩ _ rationals_compiles).2.1 0
    ⟨toks, _, _, tokens, derives_of_parse parsed, all, value⟩).1 fun _ => rfl
  rw [result, half]

end OsProjects.Jit
