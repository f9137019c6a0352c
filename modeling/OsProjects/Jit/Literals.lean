import OsProjects.Jit.Lexer
import OsProjects.Jit.ParserCorrect
import OsProjects.Jit.Reflect

/-!
# The constants of the generated program

The literals of an expression pass through the lexer, the parser and `reflect` in their order, and
`%f` writes each. The compiler reads the value back where it is a multiple of a millionth.
-/
namespace OsProjects.Jit

open Library

section
variable {ν : Type}

def Token.literal : Token ν → Option ν
  | .val v => some v
  | _ => none

def Tree.literals : Tree ν → List ν
  | .val v => [v]
  | .neg right => right.literals
  | .bin _ left right => left.literals ++ right.literals

/-- The literals that stand before the words of a symbol. -/
def Symbol.literals : Symbol ν → List ν
  | .tail _ left => left.literals
  | _ => []

def Rhs.literal : Rhs ν → Option ν
  | .lit v => some v
  | _ => none

/-- The constants of a program as they are written. -/
def Program.constants (fmt : ν → String) (p : Program ν) : List String :=
  p.body.filterMap fun d => d.rhs.literal.map fun _ => d.rhs.text fmt

theorem Level.operand_literals (level : Level) : (level.operand : Symbol ν).literals = [] := by
  cases level <;> rfl

/-- A derivation puts the literals of its tokens into the tree from left to right. -/
theorem Derives.literals {s : Symbol ν} {w : List (Token ν)} {t : Tree ν} (h : Derives s w t) :
    t.literals = s.literals ++ w.filterMap Token.literal := by
  induction h with
  | val v => rfl
  | paren _ ih => simpa [Symbol.literals, Token.literal, List.filterMap_cons] using ih
  | plus _ ih => simpa [Symbol.literals, Token.literal, List.filterMap_cons] using ih
  | minus _ ih => simpa [Symbol.literals, Token.literal, List.filterMap_cons, Tree.literals] using ih
  | unsigned _ ih => exact ih
  | nil => simp [Symbol.literals]
  | @cons level left right t tok op w w' operator _ _ ih_right ih_tail =>
    have none_ : tok.literal = none := by
      cases level <;> cases tok <;> simp_all [Level.op, Token.literal]
    rw [Level.operand_literals, List.nil_append] at ih_right
    rw [ih_tail, List.filterMap_cons_none none_, List.filterMap_append]
    simp only [Symbol.literals, Tree.literals, ih_right, List.append_assoc]
  | @binary level left t w w' _ _ ih_left ih_tail =>
    rw [Level.operand_literals, List.nil_append] at ih_left
    rw [ih_tail, List.filterMap_append]
    simp only [Symbol.literals, ih_left, List.nil_append]

theorem reflect_literals (dag : Dag ν) :
    (reflect dag).filterMap (fun d => d.rhs.literal) = dag.tree.literals := by
  induction dag with
  | val id v => rfl
  | neg id right ih =>
    rw [Dag.tree, Tree.literals, ← ih]
    simp [reflect, Rhs.literal]
  | bin op id left right ih_left ih_right =>
    rw [Dag.tree, Tree.literals, ← ih_left, ← ih_right]
    cases op <;> simp [reflect, Rhs.literal]

theorem generate_constants (fmt : ν → String) (dag : Dag ν) :
    (generateWithSigmoid dag).constants fmt = dag.tree.literals.map fmt := by
  rw [← reflect_literals, List.map_filterMap]
  refine List.filterMap_congr fun d _ => ?_
  cases rhs : d.rhs <;> simp [Rhs.literal, Rhs.text]

end

/-- The conversion that `reflect` uses. -/
def fixed (val : Double) : String := String.ofList (printFixed val)

/-- The value of a constant of the generated program. The compiler knows no infinity and no NaN. -/
def constantValue (text : String) : Option ℚ :=
  match strtod text.toList with
  | some (.finite q, []) => some q
  | _ => none

/-- The literals of an expression from left to right. -/
def literals (s : List Char) : List Double :=
  match tokenize s with
  | .ok (some toks) => toks.filterMap Token.literal
  | _ => []

/-- The program holds the literals of the expression in their order. -/
theorem constants_of_literals {s : List Char} {dag : Dag Double}
    (opened : parserOpen s = .ok (some dag)) :
    (generateWithSigmoid dag).constants fixed = (literals s).map fixed := by
  obtain ⟨toks, tokens, parsed⟩ := parserOpen_ok opened
  have tree := (derives_of_parse parsed).literals
  rw [generate_constants, tree]
  simp only [Symbol.literals, List.nil_append, literals, tokens]

theorem literals_nonneg {s : List Char} {q : ℚ} (mem : .finite q ∈ literals s) : 0 ≤ q := by
  simp only [literals] at mem
  split at mem
  · rename_i toks tokens
    obtain ⟨tok, mem, literal⟩ := List.mem_filterMap.mp mem
    cases tok with
    | val v =>
      obtain rfl : v = .finite q := Option.some.inj literal
      exact tokenize_nonneg tokens mem
    | _ => cases literal
  · cases mem

theorem constantValue_fixed {q : ℚ} (nonneg : 0 ≤ q) :
    constantValue (fixed (.finite q)) = some (millionths q / 10 ^ 6 : ℚ) := by
  simp only [constantValue, fixed, String.toList_ofList, strtod_printFixed nonneg]

/-- The i-th constant of the program for a tree has the value. -/
def WritesConstant (dag : Dag Double) (i : Nat) (q : ℚ) : Prop :=
  ∃ text, ((generateWithSigmoid dag).constants fixed)[i]? = some text ∧ constantValue text = some q

/-- A tenth of a millionth is written as zero. -/
theorem constant_vanishes : ¬ ∀ (s : List Char) (dag : Dag Double) (i : Nat) (q : ℚ),
    parserOpen s = .ok (some dag) → (literals s)[i]? = some (.finite q) →
      WritesConstant dag i q := by
  intro keeps
  have opened : parserOpen "0.0000001".toList = .ok (some (.val 1 (.finite (1 / 10 ^ 7)))) := by
    decide +kernel
  have literal : (literals "0.0000001".toList)[0]? = some (.finite (1 / 10 ^ 7)) := by decide +kernel
  obtain ⟨text, written, value⟩ := keeps _ _ _ _ opened literal
  have digits : ((generateWithSigmoid (.val 1 (.finite (1 / 10 ^ 7)))).constants fixed)[0]? =
      some "0.000000" := by decide +kernel
  obtain rfl := Option.some.inj (digits.symm.trans written)
  have zero : constantValue "0.000000" = some 0 := by decide +kernel
  rw [zero] at value
  have eq : (0 : ℚ) = 1 / 10 ^ 7 := Option.some.inj value
  norm_num at eq

/-- The constant of a literal has the value of the literal if and only if that is a multiple of a
millionth. -/
theorem constant_exact_iff {s : List Char} {dag : Dag Double} {i : Nat} {q : ℚ}
    (opened : parserOpen s = .ok (some dag)) (literal : (literals s)[i]? = some (.finite q)) :
    WritesConstant dag i q ↔ ∃ n : ℕ, q * 10 ^ 6 = n := by
  have nonneg := literals_nonneg (List.mem_of_getElem? literal)
  rw [WritesConstant, ← millionths_exact nonneg, constants_of_literals opened, List.getElem?_map,
    literal]
  simp [constantValue_fixed nonneg]

theorem constant_exact_iff_quarter :
    ∃ dag, parserOpen "1 - 0x1p-2".toList = .ok (some dag) ∧
      WritesConstant dag 1 (1 / 4) := by
  have opened : parserOpen "1 - 0x1p-2".toList =
      .ok (some (.bin .sub 2 (.val 1 (.finite 1)) (.val 3 (.finite (1 / 4))))) := by decide +kernel
  have literal : (literals "1 - 0x1p-2".toList)[1]? = some (.finite (1 / 4)) := by decide +kernel
  exact ⟨_, opened, (constant_exact_iff opened literal).mpr ⟨250000, by norm_num⟩⟩

end OsProjects.Jit
