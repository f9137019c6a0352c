import OsProjects.KeyValue.Index

/-!
# The index as a finite map

`Index.Rep index m` says that the table stores the map `m` from hash keys to
offsets. Updates and growth keep it, whatever the load test answers, unless the
probe loop runs into its `EXIT`. Lookups read the map exactly.
-/
namespace OsProjects.KeyValue
open OsProjects.Library Probing

/-- The key held by a slot. -/
def Index.occupant (index : Index) (j : Nat) : Option Nat :=
  if (index.maps j).key = 0 then none else some (index.maps j).key

@[simp] theorem Index.occupant_eq_none {index : Index} {j : Nat} :
    index.occupant j = none ↔ (index.maps j).key = 0 := by
  simp [Index.occupant]

theorem Index.occupant_eq_some {index : Index} {j k : Nat} :
    index.occupant j = some k ↔ (index.maps j).key = k ∧ k ≠ 0 := by
  unfold Index.occupant
  split
  · constructor
    · simp
    · rintro ⟨rfl, ne⟩
      contradiction
  · simp only [Option.some.injEq]
    constructor
    · rintro rfl
      exact ⟨rfl, by assumption⟩
    · exact And.left

structure Index.Rep (index : Index) (m : Nat → Option Nat) : Prop where
  noGap : NoGap index.occupant (probe index.capacity) index.capacity
  entry : ∀ k o, m k = some o ↔ k ≠ 0 ∧ ∃ j, index.maps j = ⟨k, o⟩
  finite : {k | m k ≠ none}.Finite
  size : index.size = {k | m k ≠ none}.ncard

theorem Index.Rep.create (capacity : Nat) : (create capacity).Rep (fun _ => none) where
  noGap := by
    have free : (KeyValue.create capacity).occupant = fun _ => none := by
      funext j
      simp [KeyValue.create]
    rw [free]
    exact NoGap.empty
  entry k o := by
    constructor
    · simp
    · rintro ⟨ne, j, h⟩
      exact absurd (congrArg Map.key h).symm ne
  finite := by simp
  size := by simp [KeyValue.create]

/-- A stored key sits in exactly one slot. -/
theorem Index.Rep.unique {index : Index} {m : Nat → Option Nat} (h : index.Rep m)
    {i j : Nat} (ne : (index.maps i).key ≠ 0) (same : (index.maps j).key = (index.maps i).key) :
    i = j :=
  h.noGap.unique (Index.occupant_eq_some.mpr ⟨rfl, ne⟩)
    (Index.occupant_eq_some.mpr ⟨same, ne⟩)

theorem Index.Rep.value {index : Index} {m : Nat → Option Nat} (h : index.Rep m) {j k : Nat}
    (ne : k ≠ 0) (held : (index.maps j).key = k) : m k = some (index.maps j).off := by
  subst held
  exact (h.entry _ _).mpr ⟨ne, j, rfl⟩

theorem Index.Rep.absent {index : Index} {m : Nat → Option Nat} (h : index.Rep m) {k : Nat}
    (none_held : ∀ j, index.occupant j ≠ some k) : m k = none := by
  cases e : m k with
  | none => rfl
  | some o =>
    obtain ⟨ne, j, hj⟩ := (h.entry k o).mp e
    exact absurd (Index.occupant_eq_some.mpr ⟨congrArg Map.key hj, ne⟩) (none_held j)

/-- Storing through the reference of a held key changes the map at that key only. -/
theorem Index.Rep.store {index : Index} {m : Nat → Option Nat} (h : index.Rep m) {j k : Nat}
    (ne : k ≠ 0) (held : (index.maps j).key = k) (o : Nat) :
    (index.store j o).Rep (Function.update m k (some o)) := by
  have occupant_eq : (index.store j o).occupant = index.occupant := by
    funext i
    by_cases e : i = j
    · subst e
      simp [Index.occupant, Index.store]
    · simp [Index.occupant, Index.store, Function.update_of_ne e]
  have dom : {x | Function.update m k (some o) x ≠ none} = {x | m x ≠ none} := by
    ext x
    by_cases e : x = k
    · subst e
      simp [h.value ne held]
    · simp [Function.update_of_ne e]
  refine ⟨?_, ?_, dom ▸ h.finite, by rw [dom]; exact h.size⟩
  · rw [occupant_eq]
    exact h.noGap
  · intro x p
    by_cases e : x = k
    · subst e
      simp only [Function.update_self, Option.some.injEq]
      constructor
      · rintro rfl
        exact ⟨ne, j, by simp [Index.store, held]⟩
      · rintro ⟨_, i, hi⟩
        have key : (index.maps i).key = x := by
          have := Index.occupant_eq_some.mpr ⟨congrArg Map.key hi, ne⟩
          rw [occupant_eq] at this
          exact (Index.occupant_eq_some.mp this).1
        have : j = i := h.unique (by rwa [held]) (key.trans held.symm)
        subst this
        simpa [Index.store] using congrArg Map.off hi
    · rw [Function.update_of_ne e, h.entry]
      refine and_congr_right fun _ => exists_congr fun i => ?_
      by_cases ij : i = j
      · subst ij
        simp only [Index.store, Function.update_self]
        constructor <;> intro hi
        · exact absurd ((congrArg Map.key hi).symm.trans held) e
        · exact absurd ((congrArg Map.key hi).symm.trans held) e
      · simp [Index.store, Function.update_of_ne ij]

theorem Index.Rep.add {index : Index} {m : Nat → Option Nat} (h : index.Rep m) {k i : Nat}
    (ne : k ≠ 0) (lt : i < index.capacity)
    (pass : Passes index.occupant (probe index.capacity) k i)
    (free : (index.maps (probe index.capacity k i)).key = 0) :
    Index.Rep { index with
        maps := Function.update index.maps (probe index.capacity k i) ⟨k, 0⟩
        size := index.size + 1 }
      (Function.update m k (some 0)) := by
  set s := probe index.capacity k i with hs
  have occ : index.occupant s = none := Index.occupant_eq_none.mpr free
  have absent : m k = none := h.absent (h.noGap.absent_of_free pass occ)
  have occupant_eq : Index.occupant { index with
      maps := Function.update index.maps s ⟨k, 0⟩, size := index.size + 1 } =
      Function.update index.occupant s (some k) := by
    funext j
    by_cases e : j = s
    · rw [e]
      simp [Index.occupant, ne]
    · simp [Index.occupant, Function.update_of_ne e]
  have dom : {x | Function.update m k (some 0) x ≠ none} = insert k {x | m x ≠ none} := by
    ext x
    by_cases e : x = k <;> simp [e, Function.update_apply]
  refine ⟨?_, ?_, ?_, ?_⟩
  · rw [occupant_eq]
    exact h.noGap.insert lt pass occ
  · intro x p
    by_cases e : x = k
    · subst e
      simp only [Function.update_self, Option.some.injEq]
      constructor
      · rintro rfl
        exact ⟨ne, s, by simp⟩
      · rintro ⟨_, j, hj⟩
        by_cases js : j = s
        · rw [js] at hj
          simpa using congrArg Map.off hj
        · simp only [Function.update_of_ne js] at hj
          have := h.value ne (congrArg Map.key hj)
          simp [absent] at this
    · rw [Function.update_of_ne e, h.entry]
      refine and_congr_right fun xne => exists_congr fun j => ?_
      by_cases js : j = s
      · rw [js]
        simp only [Function.update_self]
        constructor <;> intro hj
        · exact absurd ((congrArg Map.key hj).symm.trans free) xne
        · exact absurd (congrArg Map.key hj).symm e
      · simp [Function.update_of_ne js]
  · rw [dom]
    exact h.finite.insert k
  · rw [dom, Set.ncard_insert_of_notMem (by simpa using absent) h.finite]
    exact congrArg (· + 1) h.size

/-- What `update` returns: the reference of `k`, old or fresh with offset 0. -/
def Index.Updated (m : Nat → Option Nat) (k : Nat) (r : Nat × Index) : Prop :=
  r.2.Rep (Function.update m k (some ((m k).getD 0))) ∧ r.2.maps r.1 = ⟨k, (m k).getD 0⟩

theorem updateLoop_spec {index : Index} {m : Nat → Option Nat} (h : index.Rep m) {k : Nat}
    (ne : k ≠ 0) (n i : Nat) (total : i + n = index.capacity)
    (pass : Passes index.occupant (probe index.capacity) k i) :
    updateLoop index k n i = .error .exitSoftware ∨
      ∃ r, updateLoop index k n i = .ok r ∧ Index.Updated m k r := by
  induction n generalizing i with
  | zero => exact Or.inl rfl
  | succ n ih =>
    have lt : i < index.capacity := by omega
    simp only [updateLoop]
    split_ifs with free held
    · have absent : m k = none :=
        h.absent (h.noGap.absent_of_free pass (Index.occupant_eq_none.mpr free))
      refine Or.inr ⟨_, rfl, ?_, ?_⟩
      · simpa [absent] using h.add ne lt pass free
      · simp [absent]
    · have value := h.value ne held
      have same : Function.update index.maps (probe index.capacity k i)
          { index.maps (probe index.capacity k i) with key := k } = index.maps := by
        have self : { index.maps (probe index.capacity k i) with key := k } =
            index.maps (probe index.capacity k i) := Map.ext held.symm rfl
        rw [self, Function.update_eq_self]
      refine Or.inr ⟨_, rfl, ?_, ?_⟩
      · rw [value, Option.getD_some, ← value, Function.update_eq_self]
        simpa [same] using h
      · simp [value]
    · refine ih (i + 1) (by omega) (pass.succ (Index.occupant_eq_some.mpr ⟨rfl, free⟩) held)

theorem update_spec {index : Index} {m : Nat → Option Nat} (h : index.Rep m) {k : Nat}
    (ne : k ≠ 0) :
    update index k = .error .exitSoftware ∨ ∃ r, update index k = .ok r ∧ Index.Updated m k r :=
  updateLoop_spec h ne index.capacity 0 (by simp) (Passes.zero k)

/-- The part of the old table that the first `n` steps of `rehash` have moved. -/
def Index.Moved (old : Index) (n : Nat) (m' : Nat → Option Nat) : Prop :=
  ∀ k o, m' k = some o ↔ k ≠ 0 ∧ ∃ j < n, old.maps j = ⟨k, o⟩

theorem rehash_spec {old : Index} {m : Nat → Option Nat} (h : old.Rep m) (capacity n : Nat) :
    rehash old n (create capacity) = .error .exitSoftware ∨
      ∃ new m', rehash old n (create capacity) = .ok new ∧ new.Rep m' ∧ old.Moved n m' := by
  induction n with
  | zero =>
    refine Or.inr ⟨_, _, rfl, Index.Rep.create capacity, ?_⟩
    intro k o
    simp
  | succ n ih =>
    rcases ih with stop | ⟨new, m', run, rep, moved⟩
    · exact Or.inl (by simp [rehash, stop, bind, Except.bind])
    · by_cases free : (old.maps n).key = 0
      · refine Or.inr ⟨new, m', by simp [rehash, run, free, bind, Except.bind, pure, Except.pure],
          rep, ?_⟩
        intro k o
        rw [moved]
        refine and_congr_right fun ne => ⟨?_, ?_⟩
        · rintro ⟨j, lt, hj⟩
          exact ⟨j, by omega, hj⟩
        · rintro ⟨j, lt, hj⟩
          rcases Nat.lt_succ_iff_lt_or_eq.mp lt with lt | rfl
          · exact ⟨j, lt, hj⟩
          · exact absurd ((congrArg Map.key hj).symm.trans free) ne
      · rcases update_spec rep free with stop | ⟨⟨j, next⟩, ok, rep', held⟩
        · exact Or.inl (by simp [rehash, run, free, stop, bind, Except.bind])
        · refine Or.inr ⟨next.store j (old.maps n).off, _,
            by simp [rehash, run, free, ok, bind, Except.bind, pure, Except.pure],
            rep'.store free (by rw [held]) _, ?_⟩
          intro k o
          by_cases e : k = (old.maps n).key
          · subst e
            simp only [Function.update_self, Option.some.injEq]
            constructor
            · rintro rfl
              exact ⟨free, n, by omega, rfl⟩
            · rintro ⟨_, i, _, hi⟩
              have : n = i := h.unique free (by rw [hi])
              subst this
              exact congrArg Map.off hi
          · simp only [Function.update_of_ne e]
            rw [moved]
            refine and_congr_right fun ne => ⟨?_, ?_⟩
            · rintro ⟨i, lt, hi⟩
              exact ⟨i, by omega, hi⟩
            · rintro ⟨i, lt, hi⟩
              rcases Nat.lt_succ_iff_lt_or_eq.mp lt with lt | rfl
              · exact ⟨i, lt, hi⟩
              · exact absurd (congrArg Map.key hi).symm e

theorem Index.Rep.slot_lt {index : Index} {m : Nat → Option Nat} (h : index.Rep m) {j : Nat}
    (ne : (index.maps j).key ≠ 0) : j < index.capacity := by
  obtain ⟨i, lt, at_j, _⟩ := h.noGap j _ (Index.occupant_eq_some.mpr ⟨rfl, ne⟩)
  rw [← at_j]
  exact Nat.mod_lt _ (by omega)

section
variable (overload : Nat → Nat → Bool)

theorem grow_spec {index : Index} {m : Nat → Option Nat} (h : index.Rep m) :
    grow overload index = .error .exitSoftware ∨
      ∃ new, grow overload index = .ok new ∧ new.Rep m := by
  unfold grow
  split_ifs with full
  · rcases rehash_spec h ((index.capacity + 97) * 3 / 2) index.capacity with
      stop | ⟨new, m', run, rep, moved⟩
    · exact Or.inl stop
    · refine Or.inr ⟨new, run, ?_⟩
      have same : m' = m := by
        funext k
        apply Option.ext
        intro o
        rw [moved, h.entry]
        refine and_congr_right fun ne => ⟨fun ⟨j, _, hj⟩ => ⟨j, hj⟩, fun ⟨j, hj⟩ => ⟨j, ?_, hj⟩⟩
        exact h.slot_lt (by rw [hj]; exact ne)
      exact same ▸ rep
  · exact Or.inr ⟨index, rfl, h⟩

theorem indexUpdate_spec {index : Index} {m : Nat → Option Nat} (h : index.Rep m) {key : Bytes}
    (ne : key ≠ []) :
    indexUpdate overload index key = .error .exitSoftware ∨
      ∃ r, indexUpdate overload index key = .ok r ∧ Index.Updated m (indexKey key) r := by
  rcases grow_spec overload h with stop | ⟨new, grown, rep⟩
  · exact Or.inl (by simp [indexUpdate, ne, stop, bind, Except.bind])
  · simpa [indexUpdate, ne, grown, bind, Except.bind] using update_spec rep (indexKey_ne_zero key)

end

theorem lookupLoop_spec {index : Index} {m : Nat → Option Nat} (h : index.Rep m) {k : Nat}
    (ne : k ≠ 0) (n i : Nat) (total : i + n = index.capacity)
    (pass : Passes index.occupant (probe index.capacity) k i) :
    match lookupLoop index k n i with
    | none => m k = none
    | some j => index.maps j = ⟨k, (m k).getD 0⟩ ∧ m k ≠ none := by
  induction n generalizing i with
  | zero =>
    have last : i = index.capacity := by omega
    exact h.absent (h.noGap.absent_of_passes (last ▸ pass))
  | succ n ih =>
    simp only [lookupLoop]
    split_ifs with free held
    · exact h.absent (h.noGap.absent_of_free pass (Index.occupant_eq_none.mpr free))
    · have value := h.value ne held
      exact ⟨Map.ext held (by simp [value]), by simp [value]⟩
    · exact ih (i + 1) (by omega) (pass.succ (Index.occupant_eq_some.mpr ⟨rfl, free⟩) held)

/-- `index_lookup` finds the entry of the key's hash, or none when there is none. -/
theorem indexLookup_spec {index : Index} {m : Nat → Option Nat} (h : index.Rep m) {key : Bytes}
    (ne : key ≠ []) :
    ∃ r, indexLookup index key = .ok r ∧
      r.map (fun j => (index.maps j).off) = m (indexKey key) := by
  refine ⟨lookupLoop index (indexKey key) index.capacity 0, by simp [indexLookup, ne], ?_⟩
  have found := lookupLoop_spec h (indexKey_ne_zero key) index.capacity 0 (by simp) (Passes.zero _)
  split at found
  · rename_i e
    simp [e, found]
  · rename_i j e
    rw [e, Option.map_some, found.1]
    cases v : m (indexKey key) with
    | none => exact absurd v found.2
    | some o => rfl

/-- The table without its offsets. -/
def Index.keys (index : Index) : Index :=
  { index with maps := fun j => { index.maps j with off := 0 } }

theorem Index.keys_store (index : Index) (j off : Nat) : (index.store j off).keys = index.keys := by
  simp only [Index.keys, Index.store, Index.mk.injEq, true_and]
  funext i
  by_cases same : i = j
  · subst same
    simp
  · simp [Function.update_of_ne same]

theorem Index.store_keys (index : Index) (j : Nat) : index.keys.store j 0 = index.keys := by
  simp [Index.keys, Index.store]

/-- Which slot an update takes depends on the keys of the table only. -/
theorem updateLoop_keys (index : Index) (k n i : Nat) :
    updateLoop index.keys k n i = (updateLoop index k n i).map (Prod.map id Index.keys) := by
  induction n generalizing i with
  | zero => rfl
  | succ n ih =>
    have put : ∀ j entry, (fun x => { Function.update index.maps j entry x with off := 0 }) =
        Function.update (fun x => { index.maps x with off := 0 }) j { entry with off := 0 } := by
      intro j entry
      funext x
      by_cases same : x = j
      · subst same
        simp
      · simp [Function.update_of_ne same]
    simp only [updateLoop]
    have capacity : index.keys.capacity = index.capacity := rfl
    have key : ∀ j, (index.keys.maps j).key = (index.maps j).key := fun _ => rfl
    simp only [capacity, key]
    split_ifs with free held
    · simp [Except.map, Index.keys, put]
    · simp [Except.map, Index.keys, put]
    · exact ih (i + 1)

theorem update_keys (index : Index) (k : Nat) :
    update index.keys k = (update index k).map (Prod.map id Index.keys) :=
  updateLoop_keys index k index.capacity 0

theorem rehash_keys (old : Index) (n : Nat) (new : Index) :
    rehash old.keys n new.keys = (rehash old n new).map Index.keys := by
  induction n with
  | zero => rfl
  | succ n ih =>
    have key : (old.keys.maps n).key = (old.maps n).key := rfl
    have off : (old.keys.maps n).off = 0 := rfl
    simp only [rehash, ih, key, off]
    cases rehash old n new with
    | error e => rfl
    | ok next =>
      simp only [Except.map, bind, Except.bind, update_keys]
      split_ifs with free
      · rfl
      · cases update next (old.maps n).key with
        | error e => rfl
        | ok r => simp [pure, Except.pure, Index.keys_store, Index.store_keys]

theorem indexUpdate_keys (overload : Nat → Nat → Bool) (index : Index) (key : Bytes) :
    indexUpdate overload index.keys key =
      (indexUpdate overload index key).map (Prod.map id Index.keys) := by
  have grow_keys : grow overload index.keys = (grow overload index).map Index.keys := by
    have size : index.keys.size = index.size := rfl
    have capacity : index.keys.capacity = index.capacity := rfl
    have fresh : ∀ c, create c = (create c).keys := fun _ => rfl
    simp only [grow, size, capacity]
    split_ifs with full
    · rw [fresh, rehash_keys, ← fresh]
    · rfl
  simp only [indexUpdate, grow_keys]
  split_ifs with empty
  · rfl
  · cases grow overload index with
    | error e => rfl
    | ok new => exact update_keys new (indexKey key)

end OsProjects.KeyValue
