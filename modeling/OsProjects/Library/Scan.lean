import Mathlib.Data.List.TakeWhile
import Mathlib.Tactic

/-!
# Numbers in text

The integer conversions of `scanf` as glibc has them: white space, a sign, digits, a saturated
64-bit value, and the low 32 bits of it. A field is a number in decimal behind blanks, and a
conversion reads a field of a line and leaves the rest.
-/
namespace OsProjects.Library

/-- White space in the C locale. -/
def isSpace (c : Char) : Bool := c.toNat = 32 || 9 ≤ c.toNat && c.toNat ≤ 13

/-- Whether an optional sign is a minus, and the text behind it. -/
def scanSign (s : List Char) : Bool × List Char :=
  match s with
  | [] => (false, [])
  | c :: t => if c = '-' then (true, t) else if c = '+' then (false, t) else (false, c :: t)

/-- A sign, a magnitude and the text behind. -/
def scanInteger (s : List Char) : Option (Bool × Nat × List Char) :=
  let (negative, s) := scanSign (s.dropWhile isSpace)
  let digits := s.takeWhile Char.isDigit
  if digits = [] then none
  else some (negative, Nat.ofDigitChars 10 digits 0, s.dropWhile Char.isDigit)

/-- `%u`: `strtoul` and the low 32 bits. -/
def scanUnsigned (s : List Char) : Option (UInt32 × List Char) :=
  (scanInteger s).map fun (negative, value, rest) =>
    let long :=
      if 2 ^ 64 ≤ value then 2 ^ 64 - 1
      else if negative then (2 ^ 64 - value) % 2 ^ 64
      else value
    (UInt32.ofNat long, rest)

/-- `%d`: `strtol` and the low 32 bits. -/
def scanInt (s : List Char) : Option (Int × List Char) :=
  (scanInteger s).map fun (negative, value, rest) =>
    let long : Int := if negative then max (-value) (-2 ^ 63) else min value (2 ^ 63 - 1)
    (long.bmod (2 ^ 32), rest)

/-- Several `%u`, with or without white space between them. -/
def scanUnsigneds : Nat → List Char → Option (List UInt32)
  | 0, _ => some []
  | n + 1, s =>
    match scanUnsigned s with
    | none => none
    | some (v, rest) => (scanUnsigneds n rest).map (v :: ·)

/-- A number behind blanks. -/
structure Field where
  blanks : Nat
  value : Nat
  deriving DecidableEq, Repr

def Field.text (f : Field) : List Char := List.replicate f.blanks ' ' ++ Nat.toDigits 10 f.value

/-- The text does not go on with a digit. -/
def EndsNumber (s : List Char) : Prop := ∀ c ∈ s.head?, c.isDigit = false

section
variable {f : Field} {rest s : List Char} {n : Nat}

theorem takeWhile_append_stop {α : Type} {p : α → Bool} {xs ys : List α} (all : ∀ x ∈ xs, p x)
    (stop : ∀ y ∈ ys.head?, p y = false) : (xs ++ ys).takeWhile p = xs := by
  rw [List.takeWhile_append_of_pos all]
  cases ys with
  | nil => simp
  | cons y ys => simp [stop y rfl]

theorem dropWhile_append_stop {α : Type} {p : α → Bool} {xs ys : List α} (all : ∀ x ∈ xs, p x)
    (stop : ∀ y ∈ ys.head?, p y = false) : (xs ++ ys).dropWhile p = ys := by
  rw [List.dropWhile_append_of_pos all]
  cases ys with
  | nil => simp
  | cons y ys => simp [stop y rfl]

theorem isDigit_toDigits : ∀ c ∈ Nat.toDigits 10 n, c.isDigit = true := fun _ mem =>
  Nat.isDigit_of_mem_toDigits (by decide) (by decide) mem

theorem digit_not_space {c : Char} (digit : c.isDigit = true) : isSpace c = false := by
  simp only [Char.isDigit, Bool.and_eq_true, decide_eq_true_eq, UInt32.le_iff_toNat_le] at digit
  have low : 48 ≤ c.toNat := digit.1
  simp only [isSpace, Bool.or_eq_false_iff, Bool.and_eq_false_iff, decide_eq_false_iff_not]
  omega

theorem space_not_digit {c : Char} (space : isSpace c = true) : c.isDigit = false := by
  by_contra digit
  rw [digit_not_space (by simpa using digit)] at space
  cases space

theorem blanks_space (n : Nat) : ∀ c ∈ List.replicate n ' ', isSpace c = true := by
  intro c mem
  rw [List.eq_of_mem_replicate mem]
  decide

/-- The digits of a number come at the first of them. -/
theorem toDigits_eq_cons (n : Nat) : ∃ c cs, Nat.toDigits 10 n = c :: cs ∧ c.isDigit = true := by
  cases eq : Nat.toDigits 10 n with
  | nil => exact absurd eq Nat.toDigits_ne_nil
  | cons c cs => exact ⟨c, cs, rfl, isDigit_toDigits c (eq ▸ List.mem_cons_self)⟩

theorem scanSign_digit {c : Char} (digit : c.isDigit = true) : scanSign (c :: s) = (false, c :: s) := by
  have minus : c ≠ '-' := by rintro rfl; exact absurd digit (by decide)
  have plus : c ≠ '+' := by rintro rfl; exact absurd digit (by decide)
  simp only [scanSign, if_neg minus, if_neg plus]

theorem scanSign_field : scanSign ((f.text ++ rest).dropWhile isSpace) =
    (false, Nat.toDigits 10 f.value ++ rest) := by
  obtain ⟨c, cs, digits, digit⟩ := toDigits_eq_cons f.value
  have skip : (f.text ++ rest).dropWhile isSpace = c :: (cs ++ rest) := by
    rw [Field.text, List.append_assoc, digits]
    exact dropWhile_append_stop (blanks_space f.blanks) (by simp [digit_not_space digit])
  rw [skip, scanSign_digit digit, digits, List.cons_append]

theorem scanInteger_field (ends : EndsNumber rest) :
    scanInteger (f.text ++ rest) = some (false, f.value, rest) := by
  have digits := takeWhile_append_stop (isDigit_toDigits (n := f.value)) ends
  have behind := dropWhile_append_stop (isDigit_toDigits (n := f.value)) ends
  simp only [scanInteger, scanSign_field, digits, behind, Nat.toDigits_ne_nil, if_false,
    Nat.ofDigitChars_ten_toDigits]

theorem scanUnsigned_field (ends : EndsNumber rest) (lt : f.value < 2 ^ 64) :
    scanUnsigned (f.text ++ rest) = some (UInt32.ofNat f.value, rest) := by
  simp only [scanUnsigned, scanInteger_field ends, Option.map_some, if_neg (Nat.not_le_of_lt lt),
    Bool.false_eq_true, if_false]

theorem scanInt_field (ends : EndsNumber rest) :
    scanInt (f.text ++ rest) = some ((min (f.value : Int) (2 ^ 63 - 1)).bmod (2 ^ 32), rest) := by
  simp only [scanInt, scanInteger_field ends, Option.map_some, Bool.false_eq_true, if_false]

/-- A field with a blank in front ends the number before it. -/
theorem endsNumber_field (pos : 0 < f.blanks) : EndsNumber (f.text ++ rest) := by
  obtain ⟨b, blanks⟩ := Nat.exists_eq_succ_of_ne_zero (Nat.pos_iff_ne_zero.mp pos)
  simp [EndsNumber, Field.text, blanks, List.replicate_succ]

theorem endsNumber_fields {fs : List Field} (separated : ∀ f ∈ fs, 0 < f.blanks)
    (ends : EndsNumber rest) : EndsNumber (fs.flatMap Field.text ++ rest) := by
  cases fs with
  | nil => exact ends
  | cons f fs =>
    rw [List.flatMap_cons, List.append_assoc]
    exact endsNumber_field (separated f List.mem_cons_self)

theorem scanUnsigneds_fields {fs : List Field} (separated : ∀ f ∈ fs, 0 < f.blanks)
    (lt : ∀ f ∈ fs, f.value < 2 ^ 64) (ends : EndsNumber rest) :
    scanUnsigneds fs.length (fs.flatMap Field.text ++ rest) =
      some (fs.map fun f => UInt32.ofNat f.value) := by
  induction fs with
  | nil => rfl
  | cons f fs ih =>
    obtain ⟨_, separated⟩ := List.forall_mem_cons.mp separated
    obtain ⟨first, lt⟩ := List.forall_mem_cons.mp lt
    rw [List.flatMap_cons, List.append_assoc, List.length_cons, scanUnsigneds,
      scanUnsigned_field (endsNumber_fields separated ends) first]
    simp only [ih separated lt, Option.map_some, List.map_cons]

end

end OsProjects.Library
