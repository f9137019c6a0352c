import OsProjects.Jit.Parser
import OsProjects.Library.FloatText

/-!
# The lexer (`lexer.c`)

`tokenize` takes an operator, a space or what `strtod` reads as a number at a time, and rejects the
text where none of them stands. A step of its loop takes at least one character, so the loop ends.
-/
namespace OsProjects.Jit

open Library

/-- `OPERATORS`, with the tokens from `LEXER_OP_ADD` on. -/
def operators : List (Char × Token Double) :=
  [('+', .add), ('-', .sub), ('*', .mul), ('/', .div), ('(', .open_), (')', .close)]

/-- The tokens after one more. -/
def mktoken (tok : Token Double) (result : Except Fault (Option (List (Token Double)))) :
    Except Fault (Option (List (Token Double))) :=
  result.map fun toks => toks.map (tok :: ·)

/-- The loop over the text, with a bound on its iterations. -/
def tokenizeFrom : Nat → List Char → Except Fault (Option (List (Token Double)))
  | 0, _ => .error .hang
  | _ + 1, [] => .ok (some [])
  | fuel + 1, c :: s =>
    match operators.lookup c with
    | some op => mktoken op (tokenizeFrom fuel s)
    | none =>
      if isSpace c then tokenizeFrom fuel s
      else
        match strtod (c :: s) with
        | none => .ok none
        | some (val, e) => mktoken (.val val) (tokenizeFrom fuel e)

def tokenize (s : List Char) : Except Fault (Option (List (Token Double))) :=
  tokenizeFrom (s.length + 1) s

/-- The tree of an expression. A text without tokens has none. -/
def parserOpen (s : List Char) : Except Fault (Option (Dag Double)) :=
  match tokenize s with
  | .error e => .error e
  | .ok none => .ok none
  | .ok (some toks) => if toks.length = 0 then .ok none else parse toks

section
variable {fuel : Nat} {s : List Char} {toks : List (Token Double)}

theorem mktoken_ok {tok : Token Double} {result : Except Fault (Option (List (Token Double)))}
    (ok : mktoken tok result = .ok (some toks)) :
    ∃ rest, result = .ok (some rest) ∧ toks = tok :: rest := by
  cases result with
  | error e => cases ok
  | ok rest =>
    cases rest with
    | none => cases ok
    | some rest => exact ⟨rest, rfl, by simpa [mktoken, Except.map] using ok.symm⟩

theorem mktoken_ends {tok : Token Double} {result : Except Fault (Option (List (Token Double)))}
    (ends : result ≠ .error .hang) : mktoken tok result ≠ .error .hang := by
  cases result with
  | error e => exact fun eq => ends (congrArg Except.error (Except.error.inj eq))
  | ok rest => exact fun eq => by cases eq

theorem tokenizeFrom_ends : ∀ {fuel s}, s.length < fuel → tokenizeFrom fuel s ≠ .error .hang := by
  intro fuel
  induction fuel with
  | zero => exact fun lt => absurd lt (Nat.not_lt_zero _)
  | succ fuel ih =>
    intro s lt
    cases s with
    | nil => exact fun eq => by cases eq
    | cons c s =>
      have lt : s.length < fuel := Nat.lt_of_succ_lt_succ lt
      simp only [tokenizeFrom]
      split
      · exact mktoken_ends (ih lt)
      · split
        · exact ih lt
        · split
          · exact fun eq => by cases eq
          · rename_i e number
            have shorter := strtod_shorter number
            rw [List.length_cons] at shorter
            exact mktoken_ends (ih (by omega))

/-- The lexer comes to the end of every text or rejects it. -/
theorem tokenize_ends (s : List Char) : tokenize s ≠ .error .hang :=
  tokenizeFrom_ends (Nat.lt_succ_self _)

/-- No operator is a literal. -/
theorem operators_val {c : Char} {v : Double} : operators.lookup c ≠ some (.val v) := by
  intro eq
  obtain ⟨before, behind, table, _⟩ := List.lookup_eq_some_iff.mp eq
  have mem : (c, .val v) ∈ operators := by simp [table]
  simp [operators] at mem

/-- The signs are operators, so no literal is negative. -/
theorem tokenizeFrom_nonneg {q : ℚ} : ∀ {fuel s toks}, tokenizeFrom fuel s = .ok (some toks) →
    .val (.finite q) ∈ toks → 0 ≤ q := by
  intro fuel
  induction fuel with
  | zero => exact fun ok => by cases ok
  | succ fuel ih =>
    intro s toks ok mem
    cases s with
    | nil =>
      cases ok
      cases mem
    | cons c s =>
      simp only [tokenizeFrom] at ok
      split at ok
      · rename_i op operator
        obtain ⟨rest, tail, rfl⟩ := mktoken_ok ok
        rcases List.mem_cons.mp mem with rfl | mem
        · exact absurd operator operators_val
        · exact ih tail mem
      · rename_i none_
        split_ifs at ok with space
        · exact ih ok mem
        · split at ok
          · cases ok
          · rename_i val e number
            obtain ⟨rest, tail, rfl⟩ := mktoken_ok ok
            rcases List.mem_cons.mp mem with eq | mem
            · obtain rfl : .finite q = val := by simpa using eq
              refine strtod_nonneg (by simpa using space) ?_ number
              rintro rfl
              cases none_
            · exact ih tail mem

theorem tokenize_nonneg {q : ℚ} (ok : tokenize s = .ok (some toks)) (mem : .val (.finite q) ∈ toks) :
    0 ≤ q := tokenizeFrom_nonneg ok mem

theorem parserOpen_ok {dag : Dag Double} (ok : parserOpen s = .ok (some dag)) :
    ∃ toks, tokenize s = .ok (some toks) ∧ parse toks = .ok (some dag) := by
  simp only [parserOpen] at ok
  split at ok
  · cases ok
  · cases ok
  · rename_i toks tokens
    split_ifs at ok
    · cases ok
    · exact ⟨toks, tokens, ok⟩

end

end OsProjects.Jit
