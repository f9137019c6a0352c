import OsProjects.KeyValue.StoreMap
import OsProjects.Library.Runs

/-!
# Where the probes of the index go

The load test leaves free slots in the table, but the probe sum wraps at `2 ^ 64` before it
is reduced modulo the capacity, so the probes of a key near `2 ^ 64` come to some slots
twice and miss others. They still visit half of the table, which is enough inside `grow`,
where the new table is less than half full. An update between two growths finds its key or
a free slot exactly when the sum does not wrap or one of the two lies outside the gap.
-/
namespace OsProjects.KeyValue
open OsProjects.Library Probing

/-- A hash key as `index_update` passes it on: 64 bits, not 0. -/
abbrev HashKey := { k : Nat // 0 < k ∧ k < 2 ^ 64 }

/-- A call of `grow` and `update`, with what the caller stores through the reference. -/
structure Filing where
  key : HashKey
  stored : Option Nat

/-- `grow` followed by `update`, with the load compared exactly. -/
def Index.file (index : Index) (f : Filing) : Except Fault Index :=
  match grow loadTest index with
  | .error e => .error e
  | .ok index =>
    match update index f.key.1 with
    | .error e => .error e
    | .ok (ref, index) =>
      .ok (match f.stored with
        | none => index
        | some off => index.store ref off)

/-- The slots that the probes of a wrapping sum miss. The sum wraps after `2 ^ 64 - key` probes,
which end at slot `2 ^ 64 % capacity`, and starts again at slot 0. -/
def Missed (capacity key j : Nat) : Prop :=
  2 ^ 64 % capacity ≤ j ∧ capacity ≤ j + (2 ^ 64 - key) ∧
    j + (2 ^ 64 - key) < capacity + 2 ^ 64 % capacity

instance decidableMissed (capacity key j : Nat) : Decidable (Missed capacity key j) :=
  inferInstanceAs (Decidable (_ ∧ _ ∧ _))

/-- The slot is free or holds the key. -/
def Index.Takes (index : Index) (key j : Nat) : Prop :=
  (index.maps j).key = 0 ∨ (index.maps j).key = key

instance Index.decidableTakes (index : Index) (key j : Nat) : Decidable (index.Takes key j) :=
  inferInstanceAs (Decidable (_ ∨ _))

/-- The step grows the table, or the probe sums of the key do not wrap, or a slot that is free or
holds the key is not among those that they miss. -/
def Index.Admits (index : Index) (f : Filing) : Prop :=
  index.capacity = 0 ∨ loadTest index.size index.capacity = true ∨
    f.key.1 + index.capacity ≤ 2 ^ 64 ∨
    ∃ j < index.capacity, ¬ Missed index.capacity f.key.1 j ∧ index.Takes f.key.1 j

instance Index.decidableAdmits (index : Index) (f : Filing) : Decidable (index.Admits f) :=
  inferInstanceAs (Decidable (_ ∨ _ ∨ _ ∨ _))

section
variable {c k i j : Nat}

/-- Before the sum wraps the probes go up to slot `2 ^ 64 % c`. -/
theorem probe_before (lt : k + i < 2 ^ 64) : probe c k i = (k + i) % c := by
  rw [probe, Nat.mod_eq_of_lt lt]

/-- Behind the wrap they start again at slot 0. -/
theorem probe_behind (ge : 2 ^ 64 ≤ k + i) (lt : k + i < 2 ^ 64 + c) (c_le : c ≤ 2 ^ 64) :
    probe c k i = k + i - 2 ^ 64 := by
  have wrapped : (k + i) % 2 ^ 64 = k + i - 2 ^ 64 := by
    rw [Nat.mod_eq_sub_mod ge, Nat.mod_eq_of_lt (by omega)]
  rw [probe, wrapped, Nat.mod_eq_of_lt (by omega)]

/-- The slot `t` places in front of slot `2 ^ 64 % c`. -/
theorem mod_before {t : Nat} (c_pos : 0 < c) (t_le : t ≤ 2 ^ 64) (short : t ≤ c) :
    (2 ^ 64 - t) % c =
      if t ≤ 2 ^ 64 % c then 2 ^ 64 % c - t else c + 2 ^ 64 % c - t := by
  have r_lt := Nat.mod_lt (2 ^ 64) c_pos
  have j_lt := Nat.mod_lt (2 ^ 64 - t) c_pos
  have sum : ((2 ^ 64 - t) % c + t) % c = 2 ^ 64 % c := by
    rw [Nat.mod_add_mod, Nat.sub_add_cancel t_le]
  generalize (2 ^ 64 - t) % c = j at j_lt sum ⊢
  rcases Nat.lt_or_ge (j + t) c with flat | beyond
  · rw [Nat.mod_eq_of_lt flat] at sum
    rw [if_pos (by omega)]
    omega
  · rw [Nat.mod_eq_sub_mod beyond, Nat.mod_eq_of_lt (by omega)] at sum
    split_ifs <;> omega

/-- No probe comes to a slot that is missed. -/
theorem not_missed_probe (wraps : 2 ^ 64 < k + c) (k_lt : k < 2 ^ 64) (lt : i < c) :
    ¬ Missed c k (probe c k i) := by
  have c_pos : 0 < c := by omega
  have r_lt := Nat.mod_lt (2 ^ 64) c_pos
  rintro ⟨r_le, from_, to_⟩
  rcases Nat.lt_or_ge (k + i) (2 ^ 64) with before | behind
  · have slot := @mod_before c (2 ^ 64 - (k + i)) c_pos (by omega) (by omega)
    rw [Nat.sub_sub_self (Nat.le_of_lt before), ← probe_before before] at slot
    split_ifs at slot <;> omega
  · rcases Nat.lt_or_ge (2 ^ 64) c with large | small
    · have whole : 2 ^ 64 % c = 2 ^ 64 := Nat.mod_eq_of_lt large
      have below : (k + i) % 2 ^ 64 < 2 ^ 64 := Nat.mod_lt _ (by decide)
      have slot : probe c k i = (k + i) % 2 ^ 64 := Nat.mod_eq_of_lt (by omega)
      omega
    · rw [probe_behind behind (by omega) small] at from_
      omega

/-- Every other slot is visited. -/
theorem exists_probe (c_le : c ≤ 2 ^ 64) (wraps : 2 ^ 64 < k + c) (k_lt : k < 2 ^ 64) (lt : j < c)
    (hit : ¬ Missed c k j) : ∃ i < c, probe c k i = j := by
  have c_pos : 0 < c := by omega
  have r_lt := Nat.mod_lt (2 ^ 64) c_pos
  -- the probe that is `t` places in front of the wrap
  have before : ∀ t, 0 < t → t ≤ 2 ^ 64 - k → t ≤ c → (2 ^ 64 - t) % c = j →
      ∃ i < c, probe c k i = j := by
    intro t pos le short at_
    refine ⟨2 ^ 64 - k - t, by omega, ?_⟩
    rw [probe_before (by omega), ← at_]
    congr 1
    omega
  by_cases behind : j + (2 ^ 64 - k) < c
  · exact ⟨j + (2 ^ 64 - k), behind, by rw [probe_behind (by omega) (by omega) c_le]; omega⟩
  by_cases low : j < 2 ^ 64 % c
  · apply before (2 ^ 64 % c - j) (by omega) (by omega) (by omega)
    rw [mod_before c_pos (by omega) (by omega), if_pos (by omega)]
    omega
  · have high : c + 2 ^ 64 % c ≤ j + (2 ^ 64 - k) := by
      by_contra inside
      exact hit ⟨by omega, by omega, by omega⟩
    apply before (c + 2 ^ 64 % c - j) (by omega) (by omega) (by omega)
    rw [mod_before c_pos (by omega) (by omega), if_neg (by omega)]
    omega

theorem mod_injOn {n a b : Nat} (le : b - a ≤ n) : Set.InjOn (· % n) (Set.Ico a b) := by
  have ordered : ∀ x ∈ Set.Ico a b, ∀ y ∈ Set.Ico a b, x ≤ y → x % n = y % n → x = y := by
    intro x x_mem y y_mem x_le same
    have dvd : n ∣ y - x := (Nat.modEq_iff_dvd' x_le).mp same
    have zero := Nat.eq_zero_of_dvd_of_lt dvd (by grind)
    omega
  intro x x_mem y y_mem same
  rcases Nat.le_total x y with le | ge
  · exact ordered x x_mem y y_mem le same
  · exact (ordered y y_mem x x_mem ge same.symm).symm

/-- Probes in a row that do not wrap among them are distinct. -/
theorem probe_injOn {a b : Nat} (short : b - a ≤ c)
    (flat : k + b ≤ 2 ^ 64 ∨ 2 ^ 64 ≤ k + a ∧ k + b ≤ 2 ^ 65 ∨ 2 ^ 64 ≤ c ∧ b - a ≤ 2 ^ 64) :
    Set.InjOn (probe c k) (Set.Ico a b) := by
  intro x x_mem y y_mem same
  have shifted : ∀ {s n : Nat}, b - a ≤ n → s ≤ k + a → (k + x - s) % n = (k + y - s) % n → x = y := by
    intro s n le low same
    have inj := @mod_injOn n (k + a - s) (k + b - s) (by omega)
    have equal := inj (by grind) (by grind) same
    grind
  simp only [Set.mem_Ico] at x_mem y_mem
  have wrap : ∀ z, 2 ^ 64 ≤ k + z → k + z < 2 ^ 65 → (k + z) % 2 ^ 64 = k + z - 2 ^ 64 := by
    intro z ge lt
    rw [Nat.mod_eq_sub_mod ge, Nat.mod_eq_of_lt (by omega)]
  obtain before | ⟨behind, once⟩ | ⟨large, few⟩ := flat
  · rw [probe_before (by omega), probe_before (by omega)] at same
    exact shifted short (Nat.zero_le _) same
  · simp only [probe, wrap x (by omega) (by omega), wrap y (by omega) (by omega)] at same
    exact shifted short behind same
  · have slot : ∀ z, probe c k z = (k + z) % 2 ^ 64 := fun z =>
      Nat.mod_eq_of_lt (Nat.lt_of_lt_of_le (Nat.mod_lt _ (by decide)) large)
    rw [slot, slot] at same
    exact shifted few (Nat.zero_le _) same

end

section
variable {index index' : Index} {m : Nat → Option Nat} {k : Nat}

/-- The probe loop returns exactly when one of its probes comes to a slot that takes the key. -/
theorem updateLoop_returns_iff (n i : Nat) :
    (∃ r, updateLoop index k n i = .ok r) ↔
      ∃ j, i ≤ j ∧ j < i + n ∧ index.Takes k (probe index.capacity k j) := by
  induction n generalizing i with
  | zero =>
    simp only [updateLoop, reduceCtorEq, exists_false, false_iff]
    grind
  | succ n ih =>
    simp only [updateLoop]
    split_ifs with free held
    · exact ⟨fun _ => ⟨i, by omega, by omega, Or.inl free⟩, fun _ => ⟨_, rfl⟩⟩
    · exact ⟨fun _ => ⟨i, by omega, by omega, Or.inr held⟩, fun _ => ⟨_, rfl⟩⟩
    · rw [ih (i + 1)]
      constructor
      · rintro ⟨j, ge, lt, takes⟩
        exact ⟨j, by omega, by omega, takes⟩
      · rintro ⟨j, ge, lt, takes⟩
        have later : j ≠ i := by
          rintro rfl
          exact takes.elim free held
        exact ⟨j, by omega, by omega, takes⟩

theorem update_returns_iff :
    (∃ r, update index k = .ok r) ↔
      ∃ j < index.capacity, index.Takes k (probe index.capacity k j) := by
  rw [update, updateLoop_returns_iff]
  simp

/-- An update adds one entry at most and keeps the capacity. -/
theorem updateLoop_counts {n i : Nat} {r : Nat × Index} (ok : updateLoop index k n i = .ok r) :
    r.2.capacity = index.capacity ∧ r.2.size ≤ index.size + 1 := by
  fun_induction updateLoop index k n i <;> grind

theorem Index.occupant_takes {j : Nat} (h : ∀ k', index.occupant j = some k' → k' = k) :
    index.Takes k j := by
  by_cases free : (index.maps j).key = 0
  · exact Or.inl free
  · exact Or.inr (h _ (Index.occupant_eq_some.mpr ⟨rfl, free⟩))

/-- More distinct probes than entries find the key or a free slot. -/
theorem Index.Rep.update_returns (h : index.Rep m) {a b : Nat} (b_le : b ≤ index.capacity)
    (distinct : Set.InjOn (probe index.capacity k) (Set.Ico a b)) (more : index.size < b - a) :
    ∃ r, update index k = .ok r := by
  have stored : ∀ s k', index.occupant s = some k' → k' ∈ {k | m k ≠ none} := by
    intro s k' held
    obtain ⟨key, ne⟩ := Index.occupant_eq_some.mp held
    simp [h.value ne key]
  rw [h.size] at more
  obtain ⟨i, ⟨_, lt⟩, hit⟩ := h.noGap.exists_hit h.finite stored distinct more
  exact update_returns_iff.mpr ⟨i, by omega, Index.occupant_takes hit⟩

/-- The entries of a table are fewer than there are hash keys. -/
theorem Index.Rep.size_lt (h : index.Rep m) (keys : ∀ k, m k ≠ none → k < 2 ^ 64) :
    index.size < 2 ^ 64 := by
  have within : {k | m k ≠ none} ⊆ Set.Ico 1 (2 ^ 64) := by
    intro k filed
    obtain ⟨o, some_⟩ := Option.ne_none_iff_exists'.mp filed
    have ne := ((h.entry k o).mp some_).1
    exact ⟨Nat.pos_of_ne_zero ne, keys k filed⟩
  have few := Set.ncard_le_ncard within (Set.finite_Ico 1 (2 ^ 64))
  rw [← Finset.coe_Ico, Set.ncard_coe_finset, Nat.card_Ico] at few
  rw [h.size]
  omega

/-- A table less than half full takes every key: the probes up to the wrap or those behind it
are half of the table. -/
theorem Index.Rep.update_sparse (h : index.Rep m) (keys : ∀ k, m k ≠ none → k < 2 ^ 64)
    (k_lt : k < 2 ^ 64) (sparse : 2 * index.size < index.capacity) :
    ∃ r, update index k = .ok r := by
  have few := h.size_lt keys
  rcases Nat.lt_or_ge (2 ^ 64) index.capacity with large | small
  · exact h.update_returns (a := 0) (Nat.le_of_lt large) (probe_injOn (by omega) (by omega))
      (by omega)
  · rcases Nat.lt_or_ge (2 ^ 64) (k + index.capacity) with wraps | flat
    · rcases Nat.lt_or_ge index.size (2 ^ 64 - k) with before | behind
      · exact h.update_returns (a := 0) (b := 2 ^ 64 - k) (by omega)
          (probe_injOn (by omega) (by omega)) (by omega)
      · exact h.update_returns (a := 2 ^ 64 - k) (Nat.le_refl _)
          (probe_injOn (by omega) (by omega)) (by omega)
    · exact h.update_returns (a := 0) (Nat.le_refl _) (probe_injOn (by omega) (by omega))
        (by omega)

/-- The loop of `grow` never runs out of probes when the new table has more than twice as many slots
as the old one has entries. -/
theorem rehash_returns {old : Index} (h : old.Rep m) (keys : ∀ k, m k ≠ none → k < 2 ^ 64)
    {capacity : Nat} (sparse : 2 * old.size < capacity) (n : Nat) :
    ∃ new, rehash old n (create capacity) = .ok new ∧ new.capacity = capacity := by
  induction n with
  | zero => exact ⟨_, rfl, rfl⟩
  | succ n ih =>
    obtain ⟨new, run, capacity_eq⟩ := ih
    obtain stop | ⟨new', m', run', rep, moved⟩ := rehash_spec h capacity n
    · rw [stop] at run
      cases run
    rw [run] at run'
    obtain rfl := Except.ok.inj run'
    have within : ∀ k, m' k ≠ none → m k ≠ none := by
      intro k filed
      obtain ⟨o, some_⟩ := Option.ne_none_iff_exists'.mp filed
      obtain ⟨ne, j, _, held⟩ := (moved k o).mp some_
      simp [(h.entry k o).mpr ⟨ne, j, held⟩]
    have fewer : new.size ≤ old.size := by
      rw [rep.size, h.size]
      exact Set.ncard_le_ncard within h.finite
    by_cases free : (old.maps n).key = 0
    · exact ⟨new, by simp [rehash, run, free, bind, Except.bind, pure, Except.pure], capacity_eq⟩
    · have key_lt : (old.maps n).key < 2 ^ 64 := keys _ (by simp [h.value free rfl])
      obtain ⟨⟨j, next⟩, ok⟩ := rep.update_sparse (fun k filed => keys k (within k filed)) key_lt
        (by omega)
      refine ⟨next.store j (old.maps n).off, ?_, ?_⟩
      · simp [rehash, run, free, ok, bind, Except.bind, pure, Except.pure]
      · exact (updateLoop_counts ok).1.trans capacity_eq

/-- What every run keeps: the load that an update leaves behind. -/
structure Index.Loaded (index : Index) (m : Nat → Option Nat) : Prop where
  rep : index.Rep m
  keys : ∀ k, m k ≠ none → k < 2 ^ 64
  load : 10 * index.size ≤ 7 * index.capacity + 10

/-- The growth of a table never stops, and leaves it below the load, or below half where it
happens. -/
theorem Index.Loaded.grow (h : index.Loaded m) :
    ∃ new, grow loadTest index = .ok new ∧ new.Rep m ∧ 10 * new.size ≤ 7 * new.capacity ∧
      ((index.capacity = 0 ∨ loadTest index.size index.capacity = true) ∧
          2 * new.size < new.capacity ∨
        ¬ (index.capacity = 0 ∨ loadTest index.size index.capacity = true) ∧ new = index) := by
  obtain ⟨rep, keys, load⟩ := h
  by_cases full : index.capacity = 0 ∨ loadTest index.size index.capacity = true
  · obtain ⟨new, run, capacity⟩ := rehash_returns rep keys
      (by omega : 2 * index.size < (index.capacity + 97) * 3 / 2) index.capacity
    have grown : KeyValue.grow loadTest index = .ok new := by rw [KeyValue.grow, if_pos full, run]
    obtain stop | ⟨new', grown', rep'⟩ := grow_spec loadTest rep
    · rw [stop] at grown
      cases grown
    rw [grown] at grown'
    obtain rfl := Except.ok.inj grown'
    have size : new.size = index.size := by rw [rep'.size, rep.size]
    exact ⟨new, grown, rep', by omega, Or.inl ⟨full, by omega⟩⟩
  · refine ⟨index, by rw [KeyValue.grow, if_neg full], rep, ?_, Or.inr ⟨full, rfl⟩⟩
    simp only [loadTest, decide_eq_true_eq] at full
    omega

theorem Index.Loaded.opened : indexOpen.Loaded fun _ => none :=
  ⟨Index.Rep.create 0, by simp, by simp [indexOpen, create]⟩

/-- On a table below the load an update finds the key or a free slot exactly when its probe sums do
not wrap or one of the two is not missed. -/
theorem Index.Rep.update_returns_iff (h : index.Rep m) (keys : ∀ k, m k ≠ none → k < 2 ^ 64)
    (k_lt : k < 2 ^ 64) (load : index.size < index.capacity) :
    (∃ r, update index k = .ok r) ↔ k + index.capacity ≤ 2 ^ 64 ∨
      ∃ j < index.capacity, ¬ Missed index.capacity k j ∧ index.Takes k j := by
  have few := h.size_lt keys
  rcases Nat.lt_or_ge (2 ^ 64) (k + index.capacity) with wraps | flat
  · constructor
    · intro returns
      obtain ⟨i, lt, takes⟩ := KeyValue.update_returns_iff.mp returns
      exact Or.inr ⟨_, Nat.mod_lt _ (by omega), not_missed_probe wraps k_lt lt, takes⟩
    · rintro (flat | ⟨j, lt, hit, takes⟩)
      · omega
      rcases Nat.lt_or_ge (2 ^ 64) index.capacity with large | small
      · exact h.update_returns (a := 0) (Nat.le_of_lt large) (probe_injOn (by omega) (by omega))
          (by omega)
      · obtain ⟨i, i_lt, rfl⟩ := exists_probe small wraps k_lt lt hit
        exact KeyValue.update_returns_iff.mpr ⟨i, i_lt, takes⟩
  · refine ⟨fun _ => Or.inl flat, fun _ => ?_⟩
    exact h.update_returns (a := 0) (Nat.le_refl _) (probe_injOn (by omega) (by omega)) (by omega)

/-- The new state after a step that returns. -/
theorem Index.Loaded.file (h : index.Loaded m) {f : Filing} (ok : index.file f = .ok index') :
    ∃ m', index'.Loaded m' := by
  obtain ⟨new, grown, rep, load, _⟩ := h.grow
  simp only [Index.file, grown] at ok
  obtain stop | ⟨⟨ref, next⟩, found, rep', held⟩ := update_spec rep (Nat.ne_of_gt f.key.2.1)
  · simp [stop] at ok
  · simp only [found] at ok
    obtain ⟨capacity, size⟩ := updateLoop_counts found
    simp only at capacity size
    have keys : ∀ o, ∀ k, Function.update m f.key.1 o k ≠ none → k < 2 ^ 64 := by
      intro o k filed
      by_cases same : k = f.key.1
      · exact same ▸ f.key.2.2
      · rw [Function.update_of_ne same] at filed
        exact h.keys k filed
    cases stored : f.stored with
    | none =>
      simp only [stored, Except.ok.injEq] at ok
      subst ok
      exact ⟨_, rep', keys _, by omega⟩
    | some off =>
      simp only [stored, Except.ok.injEq] at ok
      subst ok
      have rep'' := rep'.store (Nat.ne_of_gt f.key.2.1) (congrArg Map.key held) off
      rw [Function.update_idem] at rep''
      refine ⟨_, rep'', keys _, ?_⟩
      simp only [Index.store]
      omega

theorem Index.Loaded.file_returns_iff (h : index.Loaded m) (f : Filing) :
    (∃ index', index.file f = .ok index') ↔ index.Admits f := by
  obtain ⟨new, grown, rep, load, outcome⟩ := h.grow
  have step : (∃ index', index.file f = .ok index') ↔ ∃ r, update new f.key.1 = .ok r := by
    simp only [Index.file, grown]
    cases update new f.key.1 with
    | error e => simp
    | ok r => simp
  rw [step, Index.Admits, ← or_assoc]
  obtain ⟨full, sparse⟩ | ⟨kept, rfl⟩ := outcome
  · exact ⟨fun _ => Or.inl full, fun _ => rep.update_sparse h.keys f.key.2.2 sparse⟩
  · have pos : 0 < new.capacity := by omega
    rw [rep.update_returns_iff h.keys f.key.2.2 (by omega)]
    exact ⟨Or.inr, fun admits => admits.resolve_left kept⟩

end

/-- From an empty index on, a run of growths and updates returns exactly when every step grows the
table, or its probe sums do not wrap, or a slot that takes the key is not missed; and in every state
that a run reaches the rehash of `grow` returns. -/
theorem index_update_finds_iff (calls : List Filing) :
    ((∃ index, calls.foldlM Index.file indexOpen = .ok index) ↔
        Meets Index.file Index.Admits indexOpen calls) ∧
      ((∃ new, (calls.foldlM Index.file indexOpen >>= grow loadTest) = .ok new) ↔
        Meets Index.file Index.Admits indexOpen calls) := by
  have start : ∃ m, indexOpen.Loaded m := ⟨_, Index.Loaded.opened⟩
  have keeps : ∀ (index : Index) (f : Filing) (index' : Index), (∃ m, index.Loaded m) →
      index.file f = .ok index' → ∃ m, index'.Loaded m :=
    fun _ _ _ ⟨_, loaded⟩ ok => loaded.file ok
  have returns := foldlM_returns_iff keeps (fun index f ⟨_, loaded⟩ => loaded.file_returns_iff f)
    calls start
  refine ⟨returns, ?_⟩
  rw [← returns]
  constructor
  · rintro ⟨new, run⟩
    cases filed : calls.foldlM Index.file indexOpen with
    | error e => simp [filed, bind, Except.bind] at run
    | ok index => exact ⟨index, rfl⟩
  · rintro ⟨index, filed⟩
    obtain ⟨m, loaded⟩ := foldlM_keeps (fun index f index' inv _ ok => keeps index f index' inv ok)
      calls start (returns.mp ⟨index, filed⟩) filed
    obtain ⟨new, grown, _⟩ := loaded.grow
    exact ⟨new, by simpa [filed, bind, Except.bind] using grown⟩

/-- The keys 363 and 1 to 213, which fill the first 214 of 363 slots, and a key whose probes come
to no other slots. -/
def crowdingCalls : List Filing :=
  ⟨⟨363, by decide⟩, none⟩ ::
    (List.finRange 213).map (fun i => ⟨⟨i.1 + 1, by omega, by omega⟩, none⟩) ++
      [⟨⟨2 ^ 64 - 149, by decide⟩, none⟩]

/-- With 214 entries in 363 slots, below the load, an update ends in `EXIT`. -/
theorem index_update_misses : crowdingCalls.foldlM Index.file indexOpen = .error .exitSoftware := by
  have stops : (crowdingCalls.foldlM Index.file indexOpen).map (fun _ => ()) =
      .error .exitSoftware := by
    decide +kernel
  cases run : crowdingCalls.foldlM Index.file indexOpen with
  | error e => simpa [run, Except.map] using stops
  | ok index => simp [run, Except.map] at stops

end OsProjects.KeyValue
