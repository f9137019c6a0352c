import OsProjects.Library.Scan
import Mathlib.Algebra.Order.Field.Rat
import Mathlib.Tactic

/-!
# Floating-point numbers in text

`strtod` and the conversion `%f` in the C locale, over exact values: no number is too large, too
small or too long to be read. Reading what `%f` wrote gives the value rounded to millionths.
-/
namespace OsProjects.Library

/-- A `double` with a rational for every finite value, so both zeros are one. -/
inductive Double where
  | finite (q : ℚ)
  | inf (negative : Bool)
  | nan (negative : Bool)
  deriving DecidableEq, Repr

def Double.neg : Double → Double
  | .finite q => .finite (-q)
  | .inf negative => .inf !negative
  | .nan negative => .nan !negative

/-- Digits with at most one point among them: those before and behind it, and the text behind. -/
def significand (digit : Char → Bool) (s : List Char) : Option (List Char × List Char × List Char) :=
  let whole := s.takeWhile digit
  match s.dropWhile digit with
  | [] => if whole = [] then none else some (whole, [], [])
  | c :: t =>
    if c = '.' then
      if whole = [] ∧ t.takeWhile digit = [] then none
      else some (whole, t.takeWhile digit, t.dropWhile digit)
    else if whole = [] then none
    else some (whole, [], c :: t)

/-- An exponent behind its marker. Without digits the marker does not belong to the number. -/
def exponent (marker : Char) (s : List Char) : Int × List Char :=
  match s with
  | [] => (0, [])
  | c :: t =>
    if c.toLower = marker then
      let (negative, t) := scanSign t
      let digits := t.takeWhile Char.isDigit
      let value : Int := Nat.ofDigitChars 10 digits 0
      if digits = [] then (0, c :: t)
      else (if negative then -value else value, t.dropWhile Char.isDigit)
    else (0, c :: t)

/-- How numbers are written: the digits, the marker of the exponent and the number that it is a power of. -/
structure Radix where
  base : Nat
  digit : Char → Bool
  value : Char → Nat
  marker : Char
  power : Nat

def decimal : Radix := ⟨10, Char.isDigit, fun c => c.toNat - '0'.toNat, 'e', 10⟩

def hexadecimal : Radix where
  base := 16
  digit c := c.isDigit || 'a' ≤ c.toLower && c.toLower ≤ 'f'
  value c := if c.isDigit then c.toNat - '0'.toNat else c.toLower.toNat - 'a'.toNat + 10
  marker := 'p'
  power := 2

def Radix.digits (r : Radix) (ds : List Char) : Nat :=
  ds.foldl (fun n c => r.base * n + r.value c) 0

def Radix.number (r : Radix) (s : List Char) : Option (ℚ × List Char) :=
  (significand r.digit s).map fun (whole, fraction, rest) =>
    let (e, rest) := exponent r.marker rest
    (r.digits (whole ++ fraction) / (r.base : ℚ) ^ fraction.length * (r.power : ℚ) ^ e, rest)

/-- The text behind a word in letters of either case. -/
def behindWord (word s : List Char) : Option (List Char) :=
  if (s.take word.length).map Char.toLower = word then some (s.drop word.length) else none

/-- The text behind the parentheses that may follow `nan`. -/
def behindPayload (s : List Char) : List Char :=
  match s with
  | [] => []
  | c :: t =>
    let behind := t.dropWhile fun d => d.isAlphanum || d = '_'
    if c = '(' ∧ behind.head? = some ')' then behind.tail else c :: t

def magnitude (s : List Char) : Option (Double × List Char) :=
  ((behindWord ['0', 'x'] s).bind hexadecimal.number <|> decimal.number s).map
      (fun (q, rest) => (Double.finite q, rest)) <|>
    (behindWord ['i', 'n', 'f', 'i', 'n', 'i', 't', 'y'] s <|> behindWord ['i', 'n', 'f'] s).map
      (fun rest => (.inf false, rest)) <|>
    (behindWord ['n', 'a', 'n'] s).map fun rest => (.nan false, behindPayload rest)

/-- The value and the text behind the number; nothing where no number starts. -/
def strtod (s : List Char) : Option (Double × List Char) :=
  let (negative, s) := scanSign (s.dropWhile isSpace)
  (magnitude s).map fun (v, rest) => (if negative then v.neg else v, rest)

/-- A quotient rounded to a whole number, from the middle to an even one. -/
def roundEven (n d : Nat) : Nat :=
  if 2 * (n % d) < d then n / d
  else if d < 2 * (n % d) then n / d + 1
  else n / d + n / d % 2

def millionths (q : ℚ) : Nat := roundEven (q.num.natAbs * 10 ^ 6) q.den

/-- The six digits behind the point. -/
def sixDigits (k : Nat) : List Char := List.leftpad 6 '0' (Nat.toDigits 10 (k % 10 ^ 6))

/-- `%f` -/
def printFixed : Double → List Char
  | .finite q =>
    (if q < 0 then ['-'] else []) ++ Nat.toDigits 10 (millionths q / 10 ^ 6) ++
      '.' :: sixDigits (millionths q)
  | .inf negative => (if negative then ['-'] else []) ++ ['i', 'n', 'f']
  | .nan negative => (if negative then ['-'] else []) ++ ['n', 'a', 'n']

section
variable {s rest : List Char} {q : ℚ} {v : Double}

theorem decimal_digits (ds : List Char) : decimal.digits ds = Nat.ofDigitChars 10 ds 0 :=
  Nat.ofDigitChars_eq_foldl.symm

theorem ofDigitChars_sixDigits (k : Nat) : Nat.ofDigitChars 10 (sixDigits k) 0 = k % 10 ^ 6 := by
  rw [sixDigits, List.leftpad, Nat.ofDigitChars_append, Nat.ofDigitChars_replicate_zero, Nat.mul_zero,
    Nat.ofDigitChars_ten_toDigits]

theorem length_sixDigits (k : Nat) : (sixDigits k).length = 6 := by
  have le := (Nat.length_toDigits_le_iff (b := 10) (k := 6) (by decide) (by decide)).mpr
    (Nat.mod_lt k (by decide : 0 < 10 ^ 6))
  simp only [sixDigits, List.leftpad, List.length_append, List.length_replicate]
  omega

theorem isDigit_sixDigits {k : Nat} : ∀ c ∈ sixDigits k, c.isDigit = true := by
  intro c mem
  rcases List.mem_append.mp mem with zero | digit
  · rw [List.eq_of_mem_replicate zero]
    decide
  · exact isDigit_toDigits c digit

/-- The digits on both sides of the point make up the number. -/
theorem digits_printed (k : Nat) :
    decimal.digits (Nat.toDigits 10 (k / 10 ^ 6) ++ sixDigits k) = k := by
  rw [decimal_digits, Nat.ofDigitChars_append, Nat.ofDigitChars_ten_toDigits,
    Nat.ofDigitChars_eq_ofDigitChars_zero, ofDigitChars_sixDigits, length_sixDigits]
  exact Nat.div_add_mod k (10 ^ 6)

/-- Digits around a point, up to the end of the text. -/
theorem significand_printed {whole fraction : List Char} (digits : ∀ c ∈ whole, c.isDigit = true)
    (digits' : ∀ c ∈ fraction, c.isDigit = true) (some_ : whole ≠ []) :
    significand Char.isDigit (whole ++ '.' :: fraction) = some (whole, fraction, []) := by
  have stop : ∀ c ∈ ('.' :: fraction).head?, Char.isDigit c = false := by simp
  have all := List.takeWhile_eq_self_iff.mpr digits'
  have none_ := List.dropWhile_eq_nil_iff.mpr digits'
  simp only [significand, takeWhile_append_stop digits stop, dropWhile_append_stop digits stop, all,
    none_, some_, false_and, if_true, if_false]

/-- No word comes from text without its letters. -/
theorem behindWord_none {word : List Char} {c : Char} (letter : c ∈ word)
    (absent : ∀ d ∈ s, d.toLower ≠ c) : behindWord word s = none := by
  refine if_neg fun eq => ?_
  obtain ⟨d, mem, lower⟩ := List.mem_map.mp (eq ▸ letter)
  exact absent d (List.mem_of_mem_take mem) lower

theorem digit_lower {c : Char} (digit : c.isDigit = true) : c.toLower = c := by
  refine dif_neg fun upper => ?_
  simp only [Char.isDigit, Bool.and_eq_true, decide_eq_true_eq, UInt32.le_iff_toNat_le] at digit
  have high : c.val.toNat ≤ 57 := digit.2
  have low : 65 ≤ c.val.toNat := UInt32.le_iff_toNat_le.mp upper.1
  omega

theorem digit_not_letter {c : Char} (digit : c.isDigit = true) : c.toLower ≠ 'x' := by
  rw [digit_lower digit]
  rintro rfl
  exact absurd digit (by decide)

/-- Without an exponent the digits behind the point say how many tenths to take. -/
theorem strtod_digits {whole fraction : List Char} (digits : ∀ c ∈ whole, c.isDigit = true)
    (digits' : ∀ c ∈ fraction, c.isDigit = true) (some_ : whole ≠ []) :
    strtod (whole ++ '.' :: fraction) =
      some (.finite (decimal.digits (whole ++ fraction) / 10 ^ fraction.length), []) := by
  obtain ⟨c, whole, rfl⟩ := List.exists_cons_of_ne_nil some_
  have digit := digits c List.mem_cons_self
  have start : ((c :: whole) ++ '.' :: fraction).dropWhile isSpace = c :: (whole ++ '.' :: fraction) :=
    List.dropWhile_cons_of_neg (by simp [digit_not_space digit])
  have plain : ∀ d ∈ c :: whole ++ '.' :: fraction, d.toLower ≠ 'x' := by
    intro d mem
    rcases List.mem_append.mp mem with mem | mem
    · exact digit_not_letter (digits d mem)
    · rcases List.mem_cons.mp mem with rfl | mem
      · decide
      · exact digit_not_letter (digits' d mem)
  have number : decimal.number (c :: whole ++ '.' :: fraction) =
      some ((decimal.digits (c :: whole ++ fraction) : ℚ) / 10 ^ fraction.length, []) := by
    have parts : significand decimal.digit (c :: whole ++ '.' :: fraction) = _ :=
      significand_printed digits digits' some_
    rw [Radix.number, parts]
    simp only [Option.map_some, exponent, zpow_zero, mul_one]
    rfl
  simp only [strtod, start, scanSign_digit digit, magnitude]
  rw [← List.cons_append, behindWord_none (c := 'x') (by simp) plain, Option.bind_none, number]
  rfl

/-- Reading what was written gives the value in millionths. -/
theorem strtod_printFixed (nonneg : 0 ≤ q) :
    strtod (printFixed (.finite q)) = some (.finite (millionths q / 10 ^ 6), []) := by
  rw [printFixed, if_neg (not_lt.mpr nonneg), List.nil_append,
    strtod_digits isDigit_toDigits isDigit_sixDigits Nat.toDigits_ne_nil, digits_printed,
    length_sixDigits]

theorem roundEven_mul {n d : Nat} (pos : 0 < d) : roundEven (n * d) d = n := by
  rw [roundEven, Nat.mul_mod_left, if_pos (by omega), Nat.mul_div_cancel n pos]

/-- Rounding to millionths keeps the multiples of a millionth, and only them. -/
theorem millionths_exact (nonneg : 0 ≤ q) : (millionths q : ℚ) / 10 ^ 6 = q ↔ ∃ n : ℕ, q * 10 ^ 6 = n := by
  constructor
  · intro eq
    exact ⟨millionths q, ((div_eq_iff (by norm_num)).mp eq).symm⟩
  · rintro ⟨n, eq⟩
    have num : (q.num.natAbs : ℚ) = q * q.den := by
      rw [Rat.mul_den_eq_num, ← Int.cast_natCast, Int.natAbs_of_nonneg (Rat.num_nonneg.mpr nonneg)]
    have scaled : q.num.natAbs * 10 ^ 6 = n * q.den := by
      have : (q.num.natAbs : ℚ) * 10 ^ 6 = n * q.den := by rw [num, ← eq]; ring
      exact_mod_cast this
    rw [millionths, scaled, roundEven_mul q.pos, ← eq]
    ring

/-- A number takes at least one character. -/
theorem significand_shorter {digit : Char → Bool} {whole fraction : List Char}
    (some_ : significand digit s = some (whole, fraction, rest)) : rest.length < s.length := by
  have parts := congrArg List.length (List.takeWhile_append_dropWhile (p := digit) (l := s))
  have some_digit : s.takeWhile digit ≠ [] → 0 < (s.takeWhile digit).length := List.length_pos_iff.mpr
  rw [List.length_append] at parts
  simp only [significand] at some_
  split at some_
  · rename_i behind
    rw [behind, List.length_nil] at parts
    split_ifs at some_ with none_
    obtain ⟨_, _, rfl⟩ := by simpa only [Option.some.injEq, Prod.mk.injEq] using some_
    have := some_digit none_
    rw [List.length_nil]
    omega
  · rename_i c t behind
    have fewer := (List.dropWhile_suffix (l := t) digit).length_le
    rw [behind, List.length_cons] at parts
    split_ifs at some_ with point none_ none_
    all_goals obtain ⟨_, _, rfl⟩ := by simpa only [Option.some.injEq, Prod.mk.injEq] using some_
    · omega
    · have := some_digit none_
      rw [List.length_cons]
      omega

theorem scanSign_length (s : List Char) : (scanSign s).2.length ≤ s.length := by
  cases s with
  | nil => exact le_rfl
  | cons c t => simp only [scanSign]; split_ifs <;> simp

theorem exponent_length (marker : Char) (s : List Char) : (exponent marker s).2.length ≤ s.length := by
  cases s with
  | nil => exact le_rfl
  | cons c t =>
    have sign := scanSign_length t
    have digits := (List.dropWhile_suffix (l := (scanSign t).2) Char.isDigit).length_le
    simp only [exponent]
    split_ifs <;> simp only [List.length_cons] <;> omega

theorem Radix.number_shorter {r : Radix} (some_ : r.number s = some (q, rest)) :
    rest.length < s.length := by
  obtain ⟨⟨whole, fraction, behind⟩, parts, eq⟩ := Option.map_eq_some_iff.mp some_
  obtain rfl : (exponent r.marker behind).2 = rest := congrArg Prod.snd eq
  exact (exponent_length r.marker behind).trans_lt (significand_shorter parts)

theorem Radix.number_nonneg {r : Radix} (some_ : r.number s = some (q, rest)) : 0 ≤ q := by
  obtain ⟨⟨whole, fraction, behind⟩, _, eq⟩ := Option.map_eq_some_iff.mp some_
  obtain rfl := congrArg Prod.fst eq
  positivity

theorem behindWord_shorter {word : List Char} (some_ : behindWord word s = some rest)
    (letters : word ≠ []) : rest.length < s.length := by
  simp only [behindWord] at some_
  split at some_
  · rename_i eq
    obtain rfl := Option.some.inj some_
    have length := congrArg List.length eq
    have := List.length_pos_iff.mpr letters
    simp only [List.length_map, List.length_take] at length
    rw [List.length_drop]
    omega
  · cases some_

theorem behindPayload_length (s : List Char) : (behindPayload s).length ≤ s.length := by
  cases s with
  | nil => exact le_rfl
  | cons c t =>
    have := (List.dropWhile_suffix (l := t) fun d => d.isAlphanum || d = '_').length_le
    simp only [behindPayload]
    split_ifs
    · rw [List.length_tail, List.length_cons]
      omega
    · exact le_rfl

/-- A finite magnitude is a number, perhaps behind the mark of a hexadecimal one. The others are
words. -/
theorem magnitude_cases (some_ : magnitude s = some (v, rest)) :
    (∃ q, v = .finite q ∧
      ∃ (r : Radix) (t : List Char), t.length ≤ s.length ∧ r.number t = some (q, rest)) ∨
    (v = .inf false ∨ v = .nan false) ∧ rest.length < s.length := by
  simp only [magnitude, Option.orElse_eq_orElse, Option.orElse_eq_or, Option.or_eq_some_iff,
    Option.map_eq_some_iff, Prod.mk.injEq] at some_
  rcases some_ with ⟨⟨q, behind⟩, number, rfl, rfl⟩ | ⟨_, ⟨behind, word, rfl, rfl⟩ |
    ⟨_, behind, word, rfl, rfl⟩⟩
  · refine .inl ⟨q, rfl, ?_⟩
    rcases number with number | ⟨_, number⟩
    · obtain ⟨t, mark, number⟩ := Option.bind_eq_some_iff.mp number
      exact ⟨hexadecimal, t, (behindWord_shorter mark (by simp)).le, number⟩
    · exact ⟨decimal, s, le_rfl, number⟩
  · refine .inr ⟨.inl rfl, ?_⟩
    rcases word with word | ⟨_, word⟩ <;> exact behindWord_shorter word (by simp)
  · exact .inr ⟨.inr rfl, (behindPayload_length behind).trans_lt (behindWord_shorter word (by simp))⟩

theorem strtod_cases (some_ : strtod s = some (v, rest)) :
    ∃ w, magnitude (scanSign (s.dropWhile isSpace)).2 = some (w, rest) ∧
      v = if (scanSign (s.dropWhile isSpace)).1 then w.neg else w := by
  obtain ⟨⟨w, behind⟩, number, eq⟩ := Option.map_eq_some_iff.mp some_
  obtain ⟨rfl, rfl⟩ := Prod.mk.inj eq
  exact ⟨w, number, rfl⟩

theorem strtod_shorter (some_ : strtod s = some (v, rest)) : rest.length < s.length := by
  obtain ⟨w, number, _⟩ := strtod_cases some_
  have skipped := (List.dropWhile_suffix (l := s) isSpace).length_le
  have signed := scanSign_length (s.dropWhile isSpace)
  rcases magnitude_cases number with ⟨q, _, r, t, shorter, number⟩ | ⟨_, shorter⟩
  · have := r.number_shorter number
    omega
  · omega

/-- Without a sign in front a number is not negative. -/
theorem strtod_nonneg {c : Char} (space : isSpace c = false) (minus : c ≠ '-')
    (some_ : strtod (c :: s) = some (.finite q, rest)) : 0 ≤ q := by
  obtain ⟨w, number, eq⟩ := strtod_cases some_
  have start : (c :: s).dropWhile isSpace = c :: s := List.dropWhile_cons_of_neg (by simp [space])
  have unsigned : (scanSign (c :: s)).1 = false := by
    simp only [scanSign, if_neg minus]
    split_ifs <;> rfl
  rw [start, unsigned] at eq
  obtain rfl : Double.finite q = w := eq
  rcases magnitude_cases number with ⟨_, ⟨⟩, r, t, _, number⟩ | ⟨word, _⟩
  · exact r.number_nonneg number
  · simp at word

end

end OsProjects.Library
