import Mathlib.Data.Set.Card
import Mathlib.Tactic

/-!
# Open addressing

A table of slots, each free or holding one key, and a probe sequence for every
key. The no-gap invariant says that a stored key is reached by its own probe
sequence over slots that all hold other keys. It is what makes a search that
stops at the first free slot complete, and it needs nothing of the probe
sequence itself: slots may repeat and some may never be visited.
-/
namespace OsProjects.Library.Probing

variable {ι κ : Type*} {table : ι → Option κ} {probe : κ → Nat → ι} {limit : Nat}

/-- The first `i` probes of `k` all hit slots held by other keys. -/
def Passes (table : ι → Option κ) (probe : κ → Nat → ι) (k : κ) (i : Nat) : Prop :=
  ∀ j < i, ∃ k', table (probe k j) = some k' ∧ k' ≠ k

/-- Every stored key is reached within `limit` probes of its own sequence. -/
def NoGap (table : ι → Option κ) (probe : κ → Nat → ι) (limit : Nat) : Prop :=
  ∀ s k, table s = some k → ∃ i < limit, probe k i = s ∧ Passes table probe k i

theorem Passes.zero (k : κ) : Passes table probe k 0 := by
  intro j hj
  omega

theorem Passes.succ {k k' : κ} {i : Nat} (h : Passes table probe k i)
    (hit : table (probe k i) = some k') (ne : k' ≠ k) : Passes table probe k (i + 1) := by
  intro j hj
  rcases Nat.lt_succ_iff_lt_or_eq.mp hj with lt | rfl
  · exact h j lt
  · exact ⟨k', hit, ne⟩

theorem NoGap.empty : NoGap (fun _ : ι => (none : Option κ)) probe limit := by
  intro s k h
  simp at h

/-- A key occupies at most one slot. -/
theorem NoGap.unique (h : NoGap table probe limit) {s t : ι} {k : κ}
    (hs : table s = some k) (ht : table t = some k) : s = t := by
  obtain ⟨i, _, rfl, before_i⟩ := h s k hs
  obtain ⟨j, _, rfl, before_j⟩ := h t k ht
  rcases Nat.lt_trichotomy i j with lt | rfl | lt
  · obtain ⟨k', hk', ne⟩ := before_j i lt
    exact absurd (Option.some.inj (hk'.symm.trans hs)) ne
  · rfl
  · obtain ⟨k', hk', ne⟩ := before_i j lt
    exact absurd (Option.some.inj (hk'.symm.trans ht)) ne

/-- A free slot met before the key shows that the key is not stored. -/
theorem NoGap.absent_of_free (h : NoGap table probe limit) {k : κ} {i : Nat}
    (pass : Passes table probe k i) (free : table (probe k i) = none) (s : ι) :
    table s ≠ some k := by
  intro hs
  obtain ⟨j, _, rfl, before⟩ := h s k hs
  rcases Nat.lt_trichotomy i j with lt | rfl | lt
  · obtain ⟨k', hk', _⟩ := before i lt
    simp [free] at hk'
  · simp [free] at hs
  · obtain ⟨k', hk', ne⟩ := pass j lt
    exact ne (Option.some.inj (hk'.symm.trans hs))

/-- A key that no probe hits is not stored. -/
theorem NoGap.absent_of_passes (h : NoGap table probe limit) {k : κ}
    (pass : Passes table probe k limit) (s : ι) : table s ≠ some k := by
  intro hs
  obtain ⟨j, lt, rfl, _⟩ := h s k hs
  obtain ⟨k', hk', ne⟩ := pass j lt
  exact ne (Option.some.inj (hk'.symm.trans hs))

/-- Storing a key in the first free slot of its sequence keeps the invariant. -/
theorem NoGap.insert [DecidableEq ι] (h : NoGap table probe limit) {k : κ} {i : Nat}
    (lt : i < limit) (pass : Passes table probe k i) (free : table (probe k i) = none) :
    NoGap (Function.update table (probe k i) (some k)) probe limit := by
  have keep : ∀ (k' : κ) (j : Nat), Passes table probe k' j →
      Passes (Function.update table (probe k i) (some k)) probe k' j := by
    intro k' j before j' hj'
    obtain ⟨k'', hk'', ne⟩ := before j' hj'
    have other : probe k' j' ≠ probe k i := by
      intro e
      simp [e, free] at hk''
    exact ⟨k'', by simpa [Function.update_of_ne other] using hk'', ne⟩
  intro s k' hs
  by_cases e : s = probe k i
  · subst e
    obtain rfl : k = k' := by simpa using hs
    exact ⟨i, lt, rfl, keep k i pass⟩
  · rw [Function.update_of_ne e] at hs
    obtain ⟨j, hj, rfl, before⟩ := h s k' hs
    exact ⟨j, hj, rfl, keep k' j before⟩

/-- Distinct probes that are more than the stored keys do not all hit other keys. -/
theorem NoGap.exists_hit (h : NoGap table probe limit) {keys : Set κ} (finite : keys.Finite)
    (stored : ∀ s k', table s = some k' → k' ∈ keys) {k : κ} {a b : Nat}
    (distinct : Set.InjOn (probe k) (Set.Ico a b)) (more : keys.ncard < b - a) :
    ∃ i ∈ Set.Ico a b, ∀ k', table (probe k i) = some k' → k' = k := by
  by_contra! others
  have : Nonempty κ := ⟨k⟩
  choose! other hit ne using others
  have few : (Set.Ico a b).ncard ≤ keys.ncard := by
    refine Set.ncard_le_ncard_of_injOn other (fun i mem => stored _ _ (hit i mem)) ?_ finite
    intro i mem j mem' same
    apply distinct mem mem'
    apply h.unique (hit i mem)
    rw [same]
    exact hit j mem'
  rw [← Finset.coe_Ico, Set.ncard_coe_finset, Nat.card_Ico] at few
  omega

end OsProjects.Library.Probing
