import OsProjects.Library.Memory
import Mathlib.Data.List.DropRight

/-!
# Strings in a memory

Bytes that stand at an address, and a string as its bytes with a zero byte behind them. Pieces are
put together by `holds_append`, so that an edit in place becomes an equation of lists. The last part
is about a list without the blanks around it.
-/
namespace OsProjects.Library

/-- The bytes stand at `p`. -/
def Mem.Holds (m : Mem) (p : Nat) (bs : Bytes) : Prop := m.read p bs.length = bs

/-- The string at `p`. -/
structure Mem.Spells (m : Mem) (p : Nat) (t : Bytes) : Prop where
  holds : m.Holds p (t ++ [0])
  ends : (0 : UInt8) ∉ t

section
variable {m m' : Mem} {p q n : Nat} {a b : Bytes} {x : UInt8}

theorem Mem.holds_nil : m.Holds p [] := rfl

@[simp] theorem Mem.holds_cons : m.Holds p (x :: b) ↔ m p = x ∧ m.Holds (p + 1) b := by
  simp [Mem.Holds, Mem.read]

theorem Mem.holds_append : m.Holds p (a ++ b) ↔ m.Holds p a ∧ m.Holds (p + a.length) b := by
  induction a generalizing p with
  | nil => simp [Mem.holds_nil]
  | cons y a ih =>
    rw [List.cons_append, holds_cons, holds_cons, ih, and_assoc, List.length_cons, Nat.add_assoc,
      Nat.add_comm 1]

theorem Mem.holds_write : (m.write p b).Holds p b := m.read_write_self p b

theorem Mem.Holds.congr (h : m.Holds p b) (same : ∀ x, p ≤ x → x < p + b.length → m' x = m x) :
    m'.Holds p b := (Mem.read_congr same).trans h

/-- A write of other bytes. -/
theorem Mem.Holds.write (h : m.Holds p b) (apart : p + b.length ≤ q ∨ q + a.length ≤ p) :
    (m.write q a).Holds p b :=
  h.congr fun x ge lt => m.write_outside (by omega)

theorem Mem.Holds.update (h : m.Holds p b) (apart : p + b.length ≤ q ∨ q < p) :
    Mem.Holds (Function.update m q x) p b :=
  h.congr fun y ge lt => Function.update_of_ne (by omega) _ _

theorem Mem.Spells.congr (h : m.Spells p a) (same : ∀ x, p ≤ x → x ≤ p + a.length → m' x = m x) :
    m'.Spells p a := by
  refine ⟨h.holds.congr fun x ge lt => same x ge ?_, h.ends⟩
  rw [List.length_append, List.length_singleton] at lt
  omega

theorem Mem.Spells.read (h : m.Spells p a) : m.read p a.length = a := (holds_append.mp h.holds).1

theorem Mem.Spells.nul (h : m.Spells p a) : m (p + a.length) = 0 :=
  (holds_cons.mp (holds_append.mp h.holds).2).1

theorem Mem.Spells.nonzero (h : m.Spells p a) (lt : n < a.length) : m (p + n) ≠ 0 := by
  have byte := m.getElem?_read p a.length n lt
  rw [h.read] at byte
  intro zero
  exact h.ends (zero ▸ List.mem_of_getElem? byte)

theorem Mem.spells_of (text : m.Holds p a) (nul : m (p + a.length) = 0) (ends : (0 : UInt8) ∉ a) :
    m.Spells p a := ⟨holds_append.mpr ⟨text, holds_cons.mpr ⟨nul, holds_nil⟩⟩, ends⟩

theorem Mem.write_concat : m.write p (b ++ [x]) = Function.update (m.write p b) (p + b.length) x := by
  induction b generalizing p with
  | nil => rfl
  | cons y b ih =>
    rw [List.cons_append, Mem.write, ih, Mem.write, List.length_cons, Nat.add_assoc, Nat.add_comm 1]
    exact Function.update_comm (by omega) _ _ _

/-- What stands behind a place in a string is written anew. -/
theorem Mem.Spells.splice {c : Bytes} (h : m.Spells p (a ++ b)) (ends : (0 : UInt8) ∉ c) :
    (m.write (p + a.length) (c ++ [0])).Spells p (a ++ c) := by
  have holds := h.holds
  rw [List.append_assoc] at holds
  refine ⟨?_, fun mem => ?_⟩
  · rw [List.append_assoc]
    exact holds_append.mpr ⟨(holds_append.mp holds).1.write (Or.inl le_rfl), holds_write⟩
  · rcases List.mem_append.mp mem with first | second
    · exact h.ends (List.mem_append_left b first)
    · exact ends second

/-- The rest of a string behind a place in it. -/
theorem Mem.Spells.behind (h : m.Spells p (a ++ b)) : m.Spells (p + a.length) b := by
  have holds := h.holds
  rw [List.append_assoc] at holds
  refine ⟨(holds_append.mp holds).2, fun mem => h.ends (List.mem_append_right a mem)⟩

/-- Bytes with a zero byte behind them spell what stands before their first zero byte. -/
theorem Mem.Holds.spells (h : m.Holds p (a ++ [0])) : m.Spells p (a.takeWhile (· ≠ 0)) := by
  have ends : (0 : UInt8) ∉ a.takeWhile (· ≠ 0) := fun zero => by
    simpa using List.mem_takeWhile_imp zero
  rw [← List.takeWhile_append_dropWhile (p := (· ≠ 0)) (l := a), List.append_assoc,
    holds_append] at h
  refine spells_of h.1 ?_ ends
  have rest := h.2
  cases first : a.dropWhile (· ≠ 0) with
  | nil =>
    rw [first] at rest
    exact (holds_cons.mp rest).1
  | cons x b =>
    have zero : x = 0 := by
      have := List.head?_dropWhile_not (· ≠ 0) a
      rw [first] at this
      simpa using this
    rw [first, zero] at rest
    exact (holds_cons.mp rest).1

/-- At one place stands one string. -/
theorem Mem.Spells.unique (h : m.Spells p a) (h' : m.Spells p b) : a = b := by
  have length : a.length = b.length := by
    rcases Nat.lt_trichotomy a.length b.length with lt | eq | gt
    · exact absurd h.nul (h'.nonzero lt)
    · exact eq
    · exact absurd h'.nul (h.nonzero gt)
  rw [← h.read, ← h'.read, length]

end

section
variable {α : Type} {blank : α → Bool} {t u : List α}

/-- A list without the blanks around it. -/
def trim (blank : α → Bool) (t : List α) : List α := (t.dropWhile blank).rdropWhile blank

theorem dropWhile_eq (h : ∀ x ∈ t.head?, ¬ blank x) : t.dropWhile blank = t := by
  cases t with
  | nil => rfl
  | cons x t => exact List.dropWhile_cons_of_neg (h x rfl)

/-- The ends of a trimmed list are no blanks. -/
theorem trim_head (t : List α) : ∀ x ∈ (trim blank t).head?, ¬ blank x := by
  intro x first
  obtain ⟨rest, whole⟩ := List.rdropWhile_prefix blank (t.dropWhile blank)
  have head : (t.dropWhile blank).head? = some x := by
    rw [← whole, List.head?_append, show (List.rdropWhile _ _).head? = some x from first]
    rfl
  have := List.head?_dropWhile_not blank t
  rw [head] at this
  simpa using this

theorem trim_last (t : List α) : ∀ x ∈ (trim blank t).getLast?, ¬ blank x := by
  intro x last
  obtain ⟨some_, rfl⟩ := List.mem_getLast?_eq_getLast last
  exact List.rdropWhile_last_not blank _ some_

theorem trim_of_ends (head : ∀ x ∈ t.head?, ¬ blank x) (last : ∀ x ∈ t.getLast?, ¬ blank x) :
    trim blank t = t := by
  rw [trim, dropWhile_eq head, List.rdropWhile_eq_self_iff]
  exact fun some_ => last _ (List.getLast?_eq_some_getLast some_)

theorem trim_trim (t : List α) : trim blank (trim blank t) = trim blank t := by
  rw [trim, dropWhile_eq (trim_head t)]
  exact List.rdropWhile_idempotent _ _

theorem trim_sublist (t : List α) : (trim blank t).Sublist t := by
  have front : trim blank t <+: t.dropWhile blank := List.rdropWhile_prefix blank _
  exact front.sublist.trans (List.dropWhile_suffix _).sublist

/-- Where a trimmed list starts and how long it is, from the numbers of blanks at the two ends. -/
theorem take_drop_trim (t : List α) :
    let b := (t.takeWhile blank).length
    let e := t.length - (t.reverse.takeWhile blank).length
    let n := if b < e then e - b else 0
    b + n ≤ t.length ∧ (t.drop b).take n = trim blank t ∧ (trim blank t).length = n := by
  intro b e n
  set u := t.dropWhile blank with u_eq
  have split : t.takeWhile blank ++ u = t := List.takeWhile_append_dropWhile
  have total : b + u.length = t.length := by
    have := congrArg List.length split
    rwa [List.length_append] at this
  have rest : t.drop b = u := by
    conv_lhs => rw [← split]
    exact List.drop_left
  have kept : (u.rdropWhile blank).length + (u.reverse.takeWhile blank).length = u.length := by
    have := congrArg List.length (List.takeWhile_append_dropWhile (p := blank) (l := u.reverse))
    simp only [List.length_append, List.length_reverse] at this
    rw [List.rdropWhile, List.length_reverse]
    omega
  have length : (u.rdropWhile blank).length = n := by
    cases first : u with
    | nil =>
      have all : ∀ x ∈ t, blank x := List.dropWhile_eq_nil_iff.mp first
      have back : t.reverse.takeWhile blank = t.reverse := by simpa using all
      have none_ : ¬ b < e := by
        simp only [e, back, List.length_reverse]
        omega
      rw [List.rdropWhile_nil]
      exact (if_neg none_).symm
    | cons x v =>
      have kept_x : ¬ blank x := by
        have := List.head?_dropWhile_not blank t
        rw [← u_eq, first] at this
        simpa using this
      have short : (u.reverse.takeWhile blank).length ≠ u.reverse.length := by
        intro whole
        have same := (List.takeWhile_prefix blank).eq_of_length whole
        have all : ∀ y ∈ u, blank y := by simpa using same
        exact kept_x (all x (by rw [first]; simp))
      have back : t.reverse.takeWhile blank = u.reverse.takeWhile blank := by
        conv_lhs => rw [← split]
        rw [List.reverse_append, List.takeWhile_append, if_neg short]
      rw [List.length_reverse] at short
      have more : b < e := by
        simp only [e, back]
        omega
      rw [← first]
      refine Eq.trans ?_ (if_pos more).symm
      simp only [e, back]
      omega
  have front : u.rdropWhile blank <+: u := List.rdropWhile_prefix blank u
  refine ⟨?_, ?_, length⟩
  · have := front.length_le
    omega
  · rw [rest, ← length]
    exact (List.prefix_iff_eq_take.mp front).symm

end
end OsProjects.Library
