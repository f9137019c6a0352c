import OsProjects.Library.Memory

/-!
# Rings

A ring of `size` slots holds a list from slot `start` on, wrapping once. Appending
writes behind the last element, dropping moves the start. Reading the first elements
takes one or two contiguous pieces. A `Fifo` is what a ring is for: a queue that never
has more elements than its capacity.
-/
namespace OsProjects.Library

structure Fifo (α : Type) (capacity : Nat) where
  items : List α
  bound : items.length ≤ capacity

def Fifo.empty {α : Type} {capacity : Nat} : Fifo α capacity := ⟨[], Nat.zero_le capacity⟩

/-- All of the elements go in, or none does. -/
def Fifo.enqueue {α : Type} {capacity : Nat} (q : Fifo α capacity) (xs : List α) :
    Option (Fifo α capacity) :=
  if fits : (q.items ++ xs).length ≤ capacity then some ⟨q.items ++ xs, fits⟩ else none

/-- The oldest `n` elements go out. -/
def Fifo.discard {α : Type} {capacity : Nat} (q : Fifo α capacity) (n : Nat) : Fifo α capacity :=
  ⟨q.items.drop n, by have := q.bound; simp only [List.length_drop]; omega⟩

/-- The slot `i` places behind `start`. -/
def slot (size start i : Nat) : Nat := if start + i < size then start + i else start + i - size

def Ring {α : Type} (m : Nat → α) (size start : Nat) (xs : List α) : Prop :=
  ∀ i x, xs[i]? = some x → m (slot size start i) = x

variable {size start i j : Nat}

theorem slot_cases (size start i : Nat) :
    start + i < size ∧ slot size start i = start + i ∨
      size ≤ start + i ∧ slot size start i = start + i - size := by
  unfold slot
  split_ifs <;> omega

theorem slot_lt (hs : start < size) (hi : i ≤ size) : slot size start i < size := by
  unfold slot
  split_ifs <;> omega

theorem slot_slot (hs : start < size) (h : i + j ≤ size) :
    slot size (slot size start i) j = slot size start (i + j) := by
  unfold slot
  split_ifs <;> omega

theorem mod_eq_slot (hs : start < size) (hi : i ≤ size) :
    (start + i) % size = slot size start i := by
  unfold slot
  split_ifs with lt
  · exact Nat.mod_eq_of_lt lt
  · rw [Nat.mod_eq_sub_mod (by omega), Nat.mod_eq_of_lt (by omega)]

section
variable {α : Type} {m m' : Nat → α} {xs ys : List α}

theorem Ring.nil : Ring m size start ([] : List α) := by
  intro i x h
  simp at h

theorem Ring.congr (h : Ring m size start xs)
    (same : ∀ i < xs.length, m' (slot size start i) = m (slot size start i)) :
    Ring m' size start xs := by
  intro i x hi
  have lt : i < xs.length := (List.getElem?_eq_some_iff.mp hi).1
  rw [same i lt]
  exact h i x hi

theorem Ring.append (h : Ring m size start xs)
    (more : ∀ j y, ys[j]? = some y → m (slot size start (xs.length + j)) = y) :
    Ring m size start (xs ++ ys) := by
  intro i x hi
  rcases Nat.lt_or_ge i xs.length with lt | ge
  · rw [List.getElem?_append_left lt] at hi
    exact h i x hi
  · rw [List.getElem?_append_right ge] at hi
    have := more (i - xs.length) x hi
    rwa [Nat.add_sub_cancel' ge] at this

theorem Ring.drop (h : Ring m size start xs) (hs : start < size) (fits : xs.length ≤ size)
    (k : Nat) (hk : k ≤ xs.length) : Ring m size (slot size start k) (xs.drop k) := by
  intro i x hi
  have lt : k + i < xs.length := by
    have := (List.getElem?_eq_some_iff.mp hi).1
    simp only [List.length_drop] at this
    omega
  rw [List.getElem?_drop] at hi
  rw [slot_slot hs (by omega)]
  exact h (k + i) x hi

end

section
variable {m : Mem} {xs : Bytes}

/-- The first elements of a ring that does not wrap before them. -/
theorem Ring.read_flat (h : Ring m size start xs) {n : Nat} (le : n ≤ xs.length)
    (flat : start + n ≤ size) : m.read start n = xs.take n := by
  apply List.ext_getElem?
  intro i
  rcases Nat.lt_or_ge i n with lt | ge
  · obtain ⟨x, hx⟩ : ∃ x, xs[i]? = some x := ⟨xs[i], List.getElem?_eq_getElem (by omega)⟩
    have value := h i x hx
    simp only [slot, if_pos (by omega : start + i < size)] at value
    rw [Mem.getElem?_read _ _ _ _ lt, value, List.getElem?_take_of_lt lt, hx]
  · rw [List.getElem?_eq_none (by simpa using ge), List.getElem?_eq_none (by simp; omega)]

/-- The first elements of a ring that wraps among them. -/
theorem Ring.read_wrap (h : Ring m size start xs) (hs : start < size) {n : Nat}
    (le : n ≤ xs.length) (fits : xs.length ≤ size) (wrap : size ≤ start + n) :
    m.read start (size - start) ++ m.read 0 (n - (size - start)) = xs.take n := by
  have first := h.read_flat (n := size - start) (by omega) (by omega)
  have rest := h.drop hs fits (size - start) (by omega)
  have origin : slot size start (size - start) = 0 := by
    unfold slot
    split_ifs <;> omega
  rw [origin] at rest
  have second := rest.read_flat (n := n - (size - start)) (by simp; omega) (by omega)
  rw [first, second, ← List.take_add]
  congr 1
  omega

/-- A contiguous piece written from slot `q` on lands in its slots. -/
theorem Ring.write_slot {start' : Nat} {bs : Bytes} {q : Nat}
    (at_ : start' = slot size start q) (flat : start' + bs.length ≤ size) {j : Nat} {b : UInt8}
    (hj : bs[j]? = some b) :
    m.write start' bs (slot size start (q + j)) = b := by
  have lt : j < bs.length := (List.getElem?_eq_some_iff.mp hj).1
  have place : slot size start (q + j) = start' + j := by
    have first := slot_cases size start q
    have here := slot_cases size start (q + j)
    omega
  rw [place]
  exact m.write_inside hj

end

end OsProjects.Library
