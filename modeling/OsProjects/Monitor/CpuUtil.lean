import OsProjects.Library.Scan
import Mathlib.Algebra.Order.Field.Rat
import Mathlib.Tactic

/-!
# The processor load (`cpu_util`)

The counters of a line are read into `unsigned`, summed and compared with those of the call before,
all modulo `2 ^ 32`. A sum and a difference of truncated counters are the truncated sum and
difference, so wraps do not matter as long as the increase fits in 32 bits.
-/
namespace OsProjects.Monitor
open OsProjects.Library

/-- The static variables `sum_` and `vector_`. -/
structure CpuState where
  sum : UInt32
  vector : List UInt32
  deriving DecidableEq

def CpuState.initial : CpuState := ⟨0, List.replicate 7 0⟩

/-- The quotient is exact; it is not used where the sums are equal. -/
def cpuUtil (st : CpuState) (s : List Char) : ℚ × CpuState :=
  let p := s.dropWhile (· ≠ ' ')
  if p = [] then (0, st)
  else
    match scanUnsigneds 7 p with
    | none => (0, st)
    | some vector =>
      let sum := vector.foldl (fun sum v => sum + v) 0
      let idle := vector.getD 3 0 - st.vector.getD 3 0
      ((1 - (idle.toNat : ℚ) / ((sum - st.sum).toNat : ℚ)) * 100, ⟨sum, vector⟩)

/-- A line of `/proc/stat`: the label, the seven counters that are read, and more text. -/
structure CpuLine where
  label : List Char
  fields : List Field
  more : List Char
  label_blank : ' ' ∉ label
  seven : fields.length = 7
  separated : ∀ f ∈ fields, 0 < f.blanks
  bounded : ∀ f ∈ fields, f.value < 2 ^ 64
  ends : EndsNumber more

def CpuLine.text (l : CpuLine) : List Char := l.label ++ (l.fields.flatMap Field.text ++ l.more)

def CpuLine.counters (l : CpuLine) : List Nat := l.fields.map Field.value

/-- The increases of the counters from one line to the next. -/
def CpuLine.increases (l l' : CpuLine) : List Nat :=
  List.zipWith (fun old new => new - old) l.counters l'.counters

section
variable {l l' : CpuLine} {xs ys : List Nat} {a b : Nat}

theorem CpuLine.length_counters (l : CpuLine) : l.counters.length = 7 := by
  rw [CpuLine.counters, List.length_map, l.seven]

theorem foldl_ofNat (xs : List Nat) (a : Nat) :
    (xs.map UInt32.ofNat).foldl (fun sum v => sum + v) (UInt32.ofNat a) =
      UInt32.ofNat (a + xs.sum) := by
  induction xs generalizing a with
  | nil => simp
  | cons x xs ih =>
    rw [List.map_cons, List.foldl_cons, ← UInt32.ofNat_add, ih, List.sum_cons, Nat.add_assoc]

/-- A difference of truncated numbers is exact when it fits. -/
theorem toNat_sub_ofNat (le : a ≤ b) (lt : b - a < 2 ^ 32) :
    (UInt32.ofNat b - UInt32.ofNat a).toNat = b - a := by
  rw [← UInt32.ofNat_sub le, UInt32.toNat_ofNat']
  exact Nat.mod_eq_of_lt lt

/-- The increases add up to the increase of the sum. -/
theorem sum_increases (mono : List.Forall₂ (· ≤ ·) xs ys) :
    xs.sum + (List.zipWith (fun old new => new - old) xs ys).sum = ys.sum := by
  induction mono with
  | nil => rfl
  | cons le _ ih =>
    rw [List.zipWith_cons_cons, List.sum_cons, List.sum_cons, List.sum_cons, ← ih]
    omega

theorem getD_increases (mono : List.Forall₂ (· ≤ ·) xs ys) (i : Nat) :
    xs.getD i 0 + (List.zipWith (fun old new => new - old) xs ys).getD i 0 = ys.getD i 0 := by
  induction mono generalizing i with
  | nil => rfl
  | cons le _ ih =>
    cases i with
    | zero => exact Nat.add_sub_cancel' le
    | succ i => exact ih i

theorem getD_le_sum (xs : List Nat) (i : Nat) : xs.getD i 0 ≤ xs.sum := by
  induction xs generalizing i with
  | nil => simp
  | cons x xs ih =>
    cases i with
    | zero => simp
    | succ i =>
      have := ih i
      rw [List.getD_cons_succ, List.sum_cons]
      omega

/-- A call for a line keeps the truncated counters and their truncated sum. -/
theorem cpuUtil_line (st : CpuState) (l : CpuLine) : cpuUtil st l.text =
    ((1 - ((UInt32.ofNat (l.counters.getD 3 0) - st.vector.getD 3 0).toNat : ℚ) /
        ((UInt32.ofNat l.counters.sum - st.sum).toNat : ℚ)) * 100,
      ⟨UInt32.ofNat l.counters.sum, l.counters.map UInt32.ofNat⟩) := by
  obtain ⟨f, fs, fields⟩ : ∃ f fs, l.fields = f :: fs :=
    List.exists_cons_of_length_pos (by rw [l.seven]; decide)
  obtain ⟨b, blanks⟩ := Nat.exists_eq_succ_of_ne_zero
    (Nat.pos_iff_ne_zero.mp (l.separated f (by simp [fields])))
  have label : ∀ c ∈ l.label, (decide (c ≠ ' ')) = true := by
    intro c mem
    rw [decide_eq_true_eq]
    rintro rfl
    exact l.label_blank mem
  have found : l.text.dropWhile (· ≠ ' ') = l.fields.flatMap Field.text ++ l.more := by
    refine dropWhile_append_stop label ?_
    simp [fields, Field.text, blanks, List.replicate_succ]
  have some_ : l.fields.flatMap Field.text ++ l.more ≠ [] := by
    simp [fields, Field.text, blanks, List.replicate_succ]
  have scanned := scanUnsigneds_fields l.separated l.bounded l.ends
  rw [l.seven] at scanned
  have vector : (l.fields.map fun f => UInt32.ofNat f.value) = l.counters.map UInt32.ofNat := by
    rw [CpuLine.counters, List.map_map]
    rfl
  have sum : (l.counters.map UInt32.ofNat).foldl (fun sum v => sum + v) 0 =
      UInt32.ofNat l.counters.sum := by
    have := foldl_ofNat l.counters 0
    rwa [Nat.zero_add] at this
  have idle : (l.counters.map UInt32.ofNat).getD 3 0 = UInt32.ofNat (l.counters.getD 3 0) := by
    simp [List.getD_eq_getElem?_getD, l.length_counters]
  simp only [cpuUtil, found, if_neg some_, scanned, vector, sum, idle]

end

/-- For two lines in a row whose counters do not decrease and grow by less than `2 ^ 32` together,
the load is the share of the increase that is not idle. -/
theorem cpuUtil_share (st : CpuState) (l l' : CpuLine)
    (mono : List.Forall₂ (· ≤ ·) l.counters l'.counters) (pos : 0 < (l.increases l').sum)
    (fits : (l.increases l').sum < 2 ^ 32) :
    let util := (cpuUtil (cpuUtil st l.text).2 l'.text).1
    util = 100 * (1 - ((l.increases l').getD 3 0 : ℚ) / ((l.increases l').sum : ℚ)) ∧
      0 ≤ util ∧ util ≤ 100 := by
  have total := sum_increases mono
  have idle := getD_increases mono 3
  have part := getD_le_sum (l.increases l') 3
  have old : (l.counters.map UInt32.ofNat).getD 3 0 = UInt32.ofNat (l.counters.getD 3 0) := by
    simp [List.getD_eq_getElem?_getD, l.length_counters]
  have sums : (UInt32.ofNat l'.counters.sum - UInt32.ofNat l.counters.sum).toNat =
      (l.increases l').sum := by
    rw [CpuLine.increases] at fits ⊢
    rw [toNat_sub_ofNat (by omega) (by omega)]
    omega
  have idles : (UInt32.ofNat (l'.counters.getD 3 0) - UInt32.ofNat (l.counters.getD 3 0)).toNat =
      (l.increases l').getD 3 0 := by
    rw [CpuLine.increases] at fits part ⊢
    rw [toNat_sub_ofNat (by omega) (by omega)]
    omega
  simp only [cpuUtil_line, old, sums, idles]
  have pos : (0 : ℚ) < ((l.increases l').sum : ℚ) := by exact_mod_cast pos
  have nonneg : (0 : ℚ) ≤ ((l.increases l').getD 3 0 : ℚ) / ((l.increases l').sum : ℚ) := by
    positivity
  have le_one : ((l.increases l').getD 3 0 : ℚ) / ((l.increases l').sum : ℚ) ≤ 1 := by
    rw [div_le_one pos]
    exact_mod_cast part
  refine ⟨by ring, ?_, ?_⟩
  · linarith
  · linarith

/-- A line of `cpu` with a user and an idle counter. -/
def cpuLine (user idle : Fin (2 ^ 64)) : CpuLine where
  label := ['c', 'p', 'u']
  fields := [⟨2, user⟩, ⟨1, 0⟩, ⟨1, 0⟩, ⟨1, idle⟩, ⟨1, 0⟩, ⟨1, 0⟩, ⟨1, 0⟩]
  more := []
  label_blank := by decide
  seven := rfl
  separated := by simp
  bounded := by simp
  ends := by simp [EndsNumber]

/-- Both counters pass `2 ^ 32`. -/
theorem cpuUtil_share_wrapped : (cpuUtil (cpuUtil .initial (cpuLine 4294967290 4294967295).text).2
    (cpuLine 4294967305 4294967300).text).1 = 75 := by
  obtain ⟨share, _⟩ := cpuUtil_share .initial (cpuLine 4294967290 4294967295)
    (cpuLine 4294967305 4294967300) (by simp [cpuLine, CpuLine.counters]) (by decide) (by decide)
  rw [share]
  norm_num [CpuLine.increases, CpuLine.counters, cpuLine]

end OsProjects.Monitor
