import OsProjects.Library.Scan
import Mathlib.Tactic

/-!
# The interface lines (`net_parse`)

The two pointer scans stop at the next digit and behind a run of digits, with `NULL` at the end of the
line. So the loop meets each counter of a line once and ends behind the last one, and what it stores
are the first and the ninth as `%d` reads them: through 32 bits.
-/
namespace OsProjects.Monitor
open OsProjects.Library

/-- `NULL` at the end of the line. -/
def goTillDigit (curr : List Char) : Option (List Char) :=
  let rest := curr.dropWhile fun c => !c.isDigit
  if rest = [] then none else some rest

def goTillNondigit (curr : List Char) : Option (List Char) :=
  let rest := curr.dropWhile Char.isDigit
  if rest = [] then none else some rest

inductive Fault where
  | segv
  | overflow
  | hang
  deriving DecidableEq, Repr

/-- The return value, what the two pointers point to, and `digit_cnt`. -/
structure NetResult where
  ret : Int
  rby : Int
  tby : Int
  digitCnt : Nat
  deriving DecidableEq, Repr

/-- The loop. `%s` reads the word behind the number into the 1000 bytes of `tmp`. -/
def netLoop : Nat → Option (List Char) → NetResult → Except Fault NetResult
  | 0, _, _ => .error .hang
  | fuel + 1, curr, r =>
    match curr.bind goTillDigit with
    | none => .ok r
    | some curr =>
      let cnt := r.digitCnt + 1
      match scanInt curr with
      | none => .ok { r with ret := -1, digitCnt := cnt }
      | some (digit, rest) =>
        let tmp := (rest.dropWhile isSpace).takeWhile fun c => !isSpace c
        if 1000 ≤ tmp.length then .error .overflow
        else if cnt = 1 then netLoop fuel (goTillNondigit curr) { r with rby := digit, digitCnt := cnt }
        else if cnt = 9 then netLoop fuel (goTillNondigit curr) { r with tby := digit, digitCnt := cnt }
        else netLoop fuel (goTillNondigit curr) { r with digitCnt := cnt }

/-- `rby` and `tby` are the values before the call. Every round passes a digit. -/
def netParse (line : List Char) (rby tby : Int) : Except Fault NetResult :=
  match line.dropWhile (· ≠ ':') with
  | [] => .error .segv
  | _ :: curr => netLoop (line.length + 1) (some curr) ⟨0, rby, tby, 0⟩

/-- A line of `/proc/net/dev`: a name, a colon, counters and white space. -/
structure NetLine where
  name : List Char
  fields : List Field
  tail : List Char
  name_colon : ':' ∉ name
  nine : 9 ≤ fields.length
  separated : ∀ f ∈ fields.tail, 0 < f.blanks
  bounded : ∀ f ∈ fields, f.value < 2 ^ 64
  tail_space : ∀ c ∈ tail, isSpace c = true

def NetLine.text (l : NetLine) : List Char :=
  l.name ++ ':' :: (l.fields.flatMap Field.text ++ l.tail)

def NetLine.counter (l : NetLine) (i : Nat) : Nat := (l.fields.map Field.value).getD i 0

/-- A counter as `%d` stores it. -/
def stored (v : Nat) : Int := (min (v : Int) (2 ^ 63 - 1)).bmod (2 ^ 32)

section
variable {f : Field} {fs : List Field} {rest tail : List Char} {v fuel : Nat} {r : NetResult}

theorem goTillDigit_field : goTillDigit (f.text ++ rest) = some (Nat.toDigits 10 f.value ++ rest) := by
  obtain ⟨c, cs, digits, digit⟩ := toDigits_eq_cons f.value
  have blanks : ∀ x ∈ List.replicate f.blanks ' ', (!x.isDigit) = true := fun x mem => by
    rw [space_not_digit (blanks_space f.blanks x mem), Bool.not_false]
  have skip : (f.text ++ rest).dropWhile (fun c => !c.isDigit) = Nat.toDigits 10 f.value ++ rest := by
    rw [Field.text, List.append_assoc]
    exact dropWhile_append_stop blanks (by simp [digits, digit])
  rw [goTillDigit, skip, if_neg (by simp [digits])]

theorem goTillNondigit_digits (ends : EndsNumber rest) :
    goTillNondigit (Nat.toDigits 10 v ++ rest) = if rest = [] then none else some rest := by
  rw [goTillNondigit, dropWhile_append_stop isDigit_toDigits ends]

theorem goTillDigit_tail (space : ∀ c ∈ tail, isSpace c = true) : goTillDigit tail = none := by
  have none_ : tail.dropWhile (fun c => !c.isDigit) = [] := by
    rw [List.dropWhile_eq_nil_iff]
    intro c mem
    rw [space_not_digit (space c mem), Bool.not_false]
  rw [goTillDigit, none_, if_pos rfl]

/-- Behind a run of digits the loop goes on as from the text there. -/
theorem netLoop_goTillNondigit (ends : EndsNumber rest) :
    netLoop fuel (goTillNondigit (Nat.toDigits 10 v ++ rest)) r = netLoop fuel (some rest) r := by
  rw [goTillNondigit_digits ends]
  split_ifs with empty
  · subst empty
    cases fuel <;> rfl
  · rfl

theorem head_space (separated : ∀ f ∈ fs, 0 < f.blanks) (space : ∀ c ∈ tail, isSpace c = true) :
    ∀ c ∈ (fs.flatMap Field.text ++ tail).head?, isSpace c = true := by
  cases fs with
  | nil => exact fun c mem => space c (List.mem_of_mem_head? mem)
  | cons f fs =>
    obtain ⟨b, blanks⟩ := Nat.exists_eq_succ_of_ne_zero
      (Nat.pos_iff_ne_zero.mp (separated f List.mem_cons_self))
    simp [Field.text, blanks, List.replicate_succ]
    decide

/-- The word behind a counter is the next counter, which is short. -/
theorem length_word (separated : ∀ f ∈ fs, 0 < f.blanks) (bounded : ∀ f ∈ fs, f.value < 2 ^ 64)
    (space : ∀ c ∈ tail, isSpace c = true) :
    (((fs.flatMap Field.text ++ tail).dropWhile isSpace).takeWhile fun c => !isSpace c).length <
      1000 := by
  cases fs with
  | nil =>
    have none_ : tail.dropWhile isSpace = [] := List.dropWhile_eq_nil_iff.mpr space
    simp [none_]
  | cons f fs =>
    obtain ⟨_, separated⟩ := List.forall_mem_cons.mp separated
    obtain ⟨c, cs, digits, digit⟩ := toDigits_eq_cons f.value
    have skip : ((f :: fs).flatMap Field.text ++ tail).dropWhile isSpace =
        Nat.toDigits 10 f.value ++ (fs.flatMap Field.text ++ tail) := by
      rw [List.flatMap_cons, Field.text, List.append_assoc, List.append_assoc]
      exact dropWhile_append_stop (blanks_space f.blanks) (by simp [digits, digit_not_space digit])
    have word : (Nat.toDigits 10 f.value ++ (fs.flatMap Field.text ++ tail)).takeWhile
        (fun c => !isSpace c) = Nat.toDigits 10 f.value := by
      refine takeWhile_append_stop (fun x mem => ?_) fun x mem => ?_
      · simp [digit_not_space (isDigit_toDigits x mem)]
      · simp [head_space separated space x mem]
    have short : (Nat.toDigits 10 f.value).length ≤ 20 :=
      (Nat.length_toDigits_le_iff (by decide) (by decide)).mpr
        (Nat.lt_trans (bounded f List.mem_cons_self) (by decide))
    rw [skip, word]
    omega

/-- What a round of the loop does with a counter. -/
def NetResult.meet (r : NetResult) (f : Field) : NetResult :=
  ⟨r.ret, if r.digitCnt + 1 = 1 then stored f.value else r.rby,
    if r.digitCnt + 1 = 9 then stored f.value else r.tby, r.digitCnt + 1⟩

theorem netLoop_fields (separated : ∀ f ∈ fs.tail, 0 < f.blanks)
    (bounded : ∀ f ∈ fs, f.value < 2 ^ 64) (space : ∀ c ∈ tail, isSpace c = true)
    (enough : fs.length < fuel) :
    netLoop fuel (some (fs.flatMap Field.text ++ tail)) r = .ok (fs.foldl NetResult.meet r) := by
  induction fs generalizing fuel r with
  | nil =>
    obtain ⟨fuel, rfl⟩ := Nat.exists_eq_succ_of_ne_zero (Nat.ne_of_gt enough)
    have none_ := goTillDigit_tail space
    simp only [netLoop, List.flatMap_nil, List.nil_append, Option.bind_some, none_, List.foldl_nil]
  | cons f fs ih =>
    obtain ⟨fuel, rfl⟩ := Nat.exists_eq_succ_of_ne_zero (Nat.ne_of_gt (Nat.zero_lt_of_lt enough))
    rw [List.tail_cons] at separated
    obtain ⟨_, bounded⟩ := List.forall_mem_cons.mp bounded
    have ends : EndsNumber (fs.flatMap Field.text ++ tail) := fun c mem =>
      space_not_digit (head_space separated space c mem)
    have read := scanInt_field (f := ⟨0, f.value⟩) ends
    rw [Field.text, List.replicate_zero, List.nil_append] at read
    have word := length_word separated bounded space
    have rest : ∀ r, netLoop fuel (goTillNondigit (Nat.toDigits 10 f.value ++
        (fs.flatMap Field.text ++ tail))) r = .ok (fs.foldl NetResult.meet r) := fun r => by
      rw [netLoop_goTillNondigit ends]
      exact ih (fun f mem => separated f (List.mem_of_mem_tail mem)) bounded
        (by rw [List.length_cons] at enough; omega)
    simp only [netLoop, List.flatMap_cons, List.append_assoc, Option.bind_some, goTillDigit_field,
      read, if_neg (Nat.not_le_of_lt word), rest, List.foldl_cons]
    split_ifs with first ninth
    · simp [NetResult.meet, first, stored]
    · simp [NetResult.meet, ninth, stored]
    · rw [NetResult.meet, if_neg first, if_neg ninth]

/-- What is in the variable for the `k`-th counter, when `cnt` counters came before. -/
def pick (k cnt : Nat) (old : Int) (fs : List Field) : Int :=
  if k ≤ cnt then old else ((fs.map Field.value)[k - 1 - cnt]?).elim old stored

theorem pick_cons {k cnt : Nat} {old : Int} :
    pick k (cnt + 1) (if cnt + 1 = k then stored f.value else old) fs = pick k cnt old (f :: fs) := by
  rcases Nat.lt_trichotomy k (cnt + 1) with before | rfl | behind
  · simp only [pick, if_pos (Nat.le_of_lt before), if_pos (Nat.le_of_lt_succ before),
      if_neg (Nat.ne_of_gt before)]
  · simp [pick]
  · obtain ⟨d, rfl⟩ := Nat.exists_eq_add_of_lt behind
    have far : ¬ cnt + 1 + d + 1 ≤ cnt + 1 := by omega
    have further : ¬ cnt + 1 + d + 1 ≤ cnt := by omega
    have index : cnt + 1 + d + 1 - 1 - cnt = d + 1 := by omega
    have index' : cnt + 1 + d + 1 - 1 - (cnt + 1) = d := by omega
    simp only [pick, if_neg far, if_neg further, if_neg (Nat.ne_of_lt behind), index, index',
      List.map_cons, List.getElem?_cons_succ]

theorem foldl_meet : fs.foldl NetResult.meet r =
    ⟨r.ret, pick 1 r.digitCnt r.rby fs, pick 9 r.digitCnt r.tby fs, r.digitCnt + fs.length⟩ := by
  induction fs generalizing r with
  | nil => simp [pick]
  | cons f fs ih =>
    rw [List.foldl_cons, ih, ← pick_cons, ← pick_cons]
    simp only [NetResult.meet, List.length_cons, Nat.add_assoc, Nat.add_comm 1]

theorem pick_counter {k : Nat} {old : Int} (pos : 0 < k) (le : k ≤ fs.length) :
    pick k 0 old fs = stored ((fs.map Field.value).getD (k - 1) 0) := by
  have lt : k - 1 < (fs.map Field.value).length := by
    rw [List.length_map]
    omega
  rw [pick, if_neg (by omega), Nat.sub_zero, List.getD_eq_getElem?_getD,
    List.getElem?_eq_getElem lt]
  rfl

theorem length_le_flatMap (fs : List Field) : fs.length ≤ (fs.flatMap Field.text).length := by
  induction fs with
  | nil => exact Nat.zero_le _
  | cons f fs ih =>
    have digits : 0 < (Nat.toDigits 10 f.value).length := Nat.length_toDigits_pos
    simp only [List.flatMap_cons, Field.text, List.length_append, List.length_cons]
    omega

/-- What a call does with a line. -/
theorem netParse_line (l : NetLine) (rby tby : Int) : netParse l.text rby tby =
    .ok ⟨0, stored (l.counter 0), stored (l.counter 8), l.fields.length⟩ := by
  have name : ∀ c ∈ l.name, (decide (c ≠ ':')) = true := by
    intro c mem
    rw [decide_eq_true_eq]
    rintro rfl
    exact l.name_colon mem
  have found : l.text.dropWhile (· ≠ ':') = ':' :: (l.fields.flatMap Field.text ++ l.tail) :=
    dropWhile_append_stop name (by simp)
  have enough : l.fields.length < l.text.length + 1 := by
    have each := length_le_flatMap l.fields
    simp only [NetLine.text, List.length_append, List.length_cons]
    omega
  simp only [netParse, found]
  rw [netLoop_fields l.separated l.bounded l.tail_space enough, foldl_meet]
  have nine := l.nine
  simp only [pick_counter (show 0 < 1 by decide) (show 1 ≤ l.fields.length by omega),
    pick_counter (show 0 < 9 by decide) nine, Nat.zero_add]
  rfl

theorem stored_eq_iff (v : Nat) : stored v = v ↔ v < 2 ^ 31 := by
  constructor
  · intro same
    have lt : stored v < 2 ^ 31 := Int.bmod_lt (by decide)
    omega
  · intro lt
    have small : min (v : Int) (2 ^ 63 - 1) = v := by omega
    rw [stored, small]
    exact Int.bmod_eq_of_le (by omega) (by omega)

end

/-- An interface with a received and a sent number of bytes. -/
def netLine (received sent : Fin (2 ^ 64)) : NetLine where
  name := [' ', 'e', 't', 'h', '0']
  fields := [⟨1, received⟩, ⟨1, 0⟩, ⟨1, 0⟩, ⟨1, 0⟩, ⟨1, 0⟩, ⟨1, 0⟩, ⟨1, 0⟩, ⟨1, 0⟩, ⟨1, sent⟩]
  tail := []
  name_colon := by decide
  nine := by simp
  separated := by simp
  bounded := by simp
  tail_space := by simp

/-- An interface that received `2 ^ 31` bytes. -/
theorem netParse_wraps : netParse (netLine 2147483648 0).text 0 0 = .ok ⟨0, -2147483648, 0, 9⟩ ∧
    ¬ ∀ (l : NetLine) (rby tby : Int), netParse l.text rby tby =
      .ok ⟨0, l.counter 0, l.counter 8, l.fields.length⟩ := by
  have wraps : netParse (netLine 2147483648 0).text 0 0 = .ok ⟨0, -2147483648, 0, 9⟩ := by
    rw [netParse_line]
    decide
  refine ⟨wraps, fun all => ?_⟩
  have same := all (netLine 2147483648 0) 0 0
  rw [wraps] at same
  exact absurd same (by decide)

/-- A call returns 0, stores the true counters and comes to the end of the line if and only if the
first and the ninth counter are below `2 ^ 31`. -/
theorem netParse_true_iff (l : NetLine) (rby tby : Int) :
    netParse l.text rby tby = .ok ⟨0, l.counter 0, l.counter 8, l.fields.length⟩ ↔
      l.counter 0 < 2 ^ 31 ∧ l.counter 8 < 2 ^ 31 := by
  rw [netParse_line, ← stored_eq_iff, ← stored_eq_iff]
  simp

end OsProjects.Monitor
