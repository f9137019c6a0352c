import OsProjects.KeyValue.Layers

/-!
# A store that was opened or restored

A restore starts the chain of a hash at its newest record, or nowhere when this is a
tombstone, so a slot no longer holds the offset of the newest record of its hash.
`Kvdb.Strands` allows any chain through the log that shows the newest value of every key
of the hash. That is enough for each operation, and each operation keeps it.
-/
namespace OsProjects.KeyValue
open OsProjects.Library

/-- The map that the records of a log tell. -/
structure KvMap.Tells (m : KvMap) (rs : List Rec) : Prop where
  value : ∀ k, latest k (history rs) = if k ∈ m.live then m.value k else []
  nonempty : ∀ k ∈ m.live, m.value k ≠ []
  created : m.live.card + tally removes (history rs) = tally creates (history rs)
  wasted : m.overwrites + m.removals =
    tally removes (history rs) + tally KeyValue.overwrites (history rs)

/-- The effect of one more record. -/
def KvMap.record (m : KvMap) (key val : Bytes) : KvMap :=
  if val = [] then { m with live := m.live.erase key, removals := m.removals + 1 }
  else if key ∈ m.live then { m.put key val with overwrites := m.overwrites + 1 }
  else m.put key val

section
variable {m : KvMap} {rs : List Rec} {op : Op} {mode : Mode} {r : Reply}

theorem KvMap.Tells.live_iff (h : m.Tells rs) (k : Bytes) : latest k (history rs) ≠ [] ↔ k ∈ m.live := by
  rw [h.value]
  split_ifs with live
  · simpa [live] using h.nonempty k live
  · simp [live]

theorem KvMap.Tells.of_live (h : m.Tells rs) {k : Bytes} (live : k ∈ m.live) :
    latest k (history rs) = m.value k := by
  rw [h.value, if_pos live]

theorem KvMap.Tells.empty : KvMap.empty.Tells [] :=
  ⟨fun _ => rfl, fun _ live => absurd live (Finset.notMem_empty _), rfl, rfl⟩

/-- A mutation that applies has the effect of the record it appends. -/
theorem KvMap.step_applies (is_mutation : op.mode = some mode)
    (applies : mode.Applies (op.key.1 ∈ m.live)) : m.step op = m.record op.key.1 op.data := by
  cases op with
  | insert key val =>
    cases is_mutation
    have dead : key.1 ∉ m.live := applies
    simp [KvMap.step, KvMap.record, Op.key, Op.data, val.ne_nil, dead]
  | update key val =>
    cases is_mutation
    by_cases live : key.1 ∈ m.live <;>
      simp [KvMap.step, KvMap.record, Op.key, Op.data, val.ne_nil, live]
  | replace key val =>
    cases is_mutation
    have live : key.1 ∈ m.live := applies
    simp [KvMap.step, KvMap.record, Op.key, Op.data, val.ne_nil, live]
  | remove key out =>
    cases is_mutation
    have live : key.1 ∈ m.live := applies
    simp [KvMap.step, KvMap.record, Op.key, Op.data, live]
  | lookup key out => cases is_mutation

theorem KvMap.step_idle (is_mutation : op.mode = some mode)
    (idle : ¬ mode.Applies (op.key.1 ∈ m.live)) : m.step op = m := by
  cases op with
  | lookup key out => rfl
  | update key val => cases is_mutation; exact absurd trivial idle
  | insert key val =>
    cases is_mutation
    have live : key.1 ∈ m.live := not_not.mp idle
    simp [KvMap.step, live]
  | replace key val | remove key out =>
    cases is_mutation
    have dead : key.1 ∉ m.live := idle
    simp [KvMap.step, dead]

theorem KvMap.logged_applies (is_mutation : op.mode = some mode)
    (applies : mode.Applies (op.key.1 ∈ m.live)) (prev : Nat) :
    m.logged op = Rec.size ⟨op.key.1, op.data, prev⟩ := by
  cases op with
  | lookup key out => cases is_mutation
  | update key val => rfl
  | insert key val =>
    cases is_mutation
    have dead : key.1 ∉ m.live := applies
    simp [KvMap.logged, dead, Rec.size, Op.key, Op.data]
  | replace key val | remove key out =>
    cases is_mutation
    have live : key.1 ∈ m.live := applies
    simp [KvMap.logged, live, Rec.size, Op.key, Op.data]

theorem KvMap.logged_idle (is_mutation : op.mode = some mode)
    (idle : ¬ mode.Applies (op.key.1 ∈ m.live)) : m.logged op = 0 := by
  cases op with
  | lookup key out => rfl
  | update key val => cases is_mutation; exact absurd trivial idle
  | insert key val =>
    cases is_mutation
    have live : key.1 ∈ m.live := not_not.mp idle
    simp [KvMap.logged, live]
  | replace key val | remove key out =>
    cases is_mutation
    have dead : key.1 ∉ m.live := idle
    simp [KvMap.logged, dead]

theorem KvMap.agrees_idle (is_mutation : op.mode = some mode)
    (idle : ¬ mode.Applies (op.key.1 ∈ m.live)) (rv : r.rv = 1) : m.Agrees op r := by
  cases op with
  | lookup key out => cases is_mutation
  | update key val => cases is_mutation; exact absurd trivial idle
  | insert key val =>
    cases is_mutation
    have live : key.1 ∈ m.live := not_not.mp idle
    simp [KvMap.Agrees, live, rv]
  | replace key val =>
    cases is_mutation
    have dead : key.1 ∉ m.live := idle
    simp [KvMap.Agrees, dead, rv]
  | remove key out =>
    cases is_mutation
    have dead : key.1 ∉ m.live := idle
    exact ⟨by simp [dead, rv], fun _ _ live => absurd live dead⟩

/-- A mutation that applies agrees with the map when a removal delivers the value it was asked for. -/
theorem KvMap.agrees_applies (is_mutation : op.mode = some mode)
    (applies : mode.Applies (op.key.1 ∈ m.live)) (rv : r.rv = 0)
    (delivers : mode = .remove → ∀ cap, op.args.2 = some cap → r.Delivers cap (m.value op.key.1)) :
    m.Agrees op r := by
  cases op with
  | lookup key out => cases is_mutation
  | update key val => exact rv
  | insert key val =>
    cases is_mutation
    have dead : key.1 ∉ m.live := applies
    simp [KvMap.Agrees, dead, rv]
  | replace key val =>
    cases is_mutation
    have live : key.1 ∈ m.live := applies
    simp [KvMap.Agrees, live, rv]
  | remove key out =>
    cases is_mutation
    have live : key.1 ∈ m.live := applies
    refine ⟨by simp [live, rv], ?_⟩
    rintro buf rfl _
    exact delivers rfl buf.cap rfl

/-- One more record; a tombstone is for a live key. -/
theorem KvMap.Tells.record (h : m.Tells rs) {key val : Bytes} (prev : Nat)
    (tomb : val = [] → key ∈ m.live) :
    (m.record key val).Tells (rs ++ [⟨key, val, prev⟩]) := by
  have created := h.created
  have wasted := h.wasted
  unfold KvMap.record
  by_cases empty : val = []
  · subst empty
    have live := tomb rfl
    have pos := Finset.card_pos.mpr ⟨_, live⟩
    rw [if_pos rfl]
    refine ⟨fun k => ?_, fun k mem => h.nonempty k (Finset.mem_of_mem_erase mem), ?_, ?_⟩
    · rw [latest_snoc, h.value]
      by_cases same : key = k
      · simp [same]
      · simp [same, Ne.symm same]
    · simp [Finset.card_erase_of_mem live, history_snoc, tally, removes, creates]
      omega
    · simp [history_snoc, tally, removes, KeyValue.overwrites]
      omega
  · rw [if_neg empty]
    have value : ∀ k, latest k (history (rs ++ [⟨key, val, prev⟩])) =
        if k ∈ (m.put key val).live then (m.put key val).value k else [] := by
      intro k
      rw [latest_snoc, h.value, KvMap.value_put]
    have nonempty : ∀ k ∈ (m.put key val).live, (m.put key val).value k ≠ [] := by
      intro k live
      by_cases same : k = key
      · simpa [KvMap.put, same] using empty
      · simpa [KvMap.put, same] using h.nonempty k (by simpa [KvMap.put, same] using live)
    have counted := h.live_iff key
    split_ifs with live
    · refine ⟨value, nonempty, ?_, ?_⟩
      · simpa [KvMap.put, Finset.insert_eq_of_mem live, history_snoc, tally, removes, creates, empty,
          counted.mpr live] using created
      · simp [KvMap.put, history_snoc, tally, removes, KeyValue.overwrites, empty, counted.mpr live]
        omega
    · have dead : latest key (history rs) = [] := by
        by_contra other
        exact live (counted.mp other)
      refine ⟨value, nonempty, ?_, ?_⟩
      · simp [KvMap.put, Finset.card_insert_of_notMem live, history_snoc, tally, removes, creates,
          empty, dead]
        omega
      · simpa [KvMap.put, history_snoc, tally, removes, KeyValue.overwrites, empty, dead] using wasted

end

/-- The log consists of records, and the index holds for every hash the start of a chain that shows
the newest value of each key of the hash. -/
structure Kvdb.Strands (db : Kvdb Bytes) (rs : List Rec) (es : Nat → List Entry) : Prop where
  holds : db.kvraw.Holds id (dummy :: rs)
  slots : db.index.Slots fun h => headOff (es h)
  linked : ∀ h, Linked (es h)
  within : ∀ h, (es h).Sublist (history rs)
  seen : ∀ key, latest key (es (indexKey key)) = latest key (history rs)
  threaded : Threaded rs

section
variable {db db' : Kvdb Bytes} {rs : List Rec} {es : Nat → List Entry}

theorem Chain.Reports.live_of {c : Chain} {val : Option Bytes} {cap : Nat} {key : Bytes}
    {chain : List Entry} (h : c.Reports val cap (newest key chain)) (live : latest key chain ≠ []) :
    c.valLen = (latest key chain).length ∧
      (c.val.getD []).take (min cap (latest key chain).length) =
        (latest key chain).take (min cap (latest key chain).length) := by
  cases found : newest key chain with
  | none => simp [latest, found] at live
  | some e =>
    rw [h.valLen]
    simpa [latest, found] using h.copied e found

/-- What the walk from the slot of a key reports. -/
structure Chain.Shows (c : Chain) (cap : Nat) (value : Bytes) : Prop where
  dead : (c.off = 0 ∨ c.valLen = 0) ↔ value = []
  found : value ≠ [] → c.valLen = value.length ∧
    (c.val.getD []).take (min cap value.length) = value.take (min cap value.length)

theorem Kvdb.Strands.walk (h : db.Strands rs es) (key : Bytes) {val : Option Bytes} {cap : Nat}
    (fits : cap ≤ (val.getD []).length) :
    ∃ c kvraw, chainLookup idealLogfs (db.kvraw.size + 1) db.kvraw key val cap
        (headOff (es (indexKey key))) = .ok (some c, kvraw) ∧
      kvraw.Holds id (dummy :: rs) ∧ c.Shows cap (latest key (history rs)) := by
  have member : ∀ e ∈ es (indexKey key), e ∈ history rs := fun e mem =>
    (h.within (indexKey key)).subset mem
  have short : (es (indexKey key)).length < db.kvraw.size + 1 := by
    have count := (h.within (indexKey key)).length_le
    have total := length_le_logSize (dummy :: rs)
    rw [length_history] at count
    rw [h.holds.size]
    simp only [List.length_cons] at total
    omega
  obtain ⟨c, kvraw, found, holds, reports⟩ := chainLookup_spec idealLogfs_honours key
    (es (indexKey key))
    (fun e mem => ⟨history_stored (member e mem), history_off_ne_zero (member e mem)⟩)
    (h.linked (indexKey key)) _ short h.holds val fits
  refine ⟨c, kvraw, found, holds, ?_, ?_⟩
  · rw [← h.seen]
    exact reports.dead_of fun e mem => history_off_ne_zero (member e mem)
  · rw [← h.seen]
    exact reports.live_of

/-- Appending through the slot of a key's hash puts the new record in front of its chain. -/
theorem Kvdb.Strands.append (h : db.Strands rs es) {key data : Bytes} {ref : Nat}
    (held : db.index.maps ref = ⟨indexKey key, headOff (es (indexKey key))⟩)
    (key_ok : keyLenOk key) (data_le : data.length ≤ 0xffffffff)
    (small : logSize (dummy :: rs) + (metaLen + key.length + data.length) < 2 ^ 64) :
    ∃ db' prev es', db.appendAt idealLogfs key data ref = .ok (true, db') ∧
      db'.Strands (rs ++ [⟨key, data, prev⟩]) es' ∧ db'.size = db.size ∧ db'.waste = db.waste := by
  set prev := headOff (es (indexKey key)) with prev_def
  have within := h.within (indexKey key)
  have prev_lt : prev < 2 ^ 64 := by
    cases chain : es (indexKey key) with
    | nil => simp [prev_def, chain, headOff]
    | cons e older =>
      have member : e ∈ history rs := within.subset (by rw [chain]; exact List.mem_cons_self)
      have bound := (history_stored member).bound
      rw [prev_def, chain, headOff]
      omega
  obtain ⟨kvraw', ok, holds⟩ := kvrawAppend_spec idealLogfs_honours h.holds key data prev
    ⟨Nat.pos_of_ne_zero key_ok.1, key_ok.2, data_le, prev_lt⟩ small
  set chain : List Entry := (logSize (dummy :: rs), ⟨key, data, prev⟩) :: es (indexKey key)
    with chain_def
  refine ⟨{ db with kvraw := kvraw', index := db.index.store ref (logSize (dummy :: rs)) }, prev,
    Function.update es (indexKey key) chain, ?_, ⟨by simpa using holds, ?_, ?_, ?_, ?_, ?_⟩, rfl, rfl⟩
  · simp only [Kvdb.appendAt, held, ok]
  · convert h.slots.store (indexKey_ne_zero key) held (logSize (dummy :: rs)) using 1
    funext k
    by_cases same : k = indexKey key
    · subst same
      simp [chain_def, headOff]
    · simp [Function.update_of_ne same]
  · intro k
    by_cases same : k = indexKey key
    · subst same
      rw [Function.update_self]
      exact ⟨prev_def, h.linked _⟩
    · rw [Function.update_of_ne same]
      exact h.linked k
  · intro k
    rw [history_snoc]
    by_cases same : k = indexKey key
    · subst same
      rw [Function.update_self]
      exact within.cons_cons _
    · rw [Function.update_of_ne same]
      exact (h.within k).cons _
  · intro k
    rw [latest_snoc]
    by_cases same : indexKey k = indexKey key
    · rw [same, Function.update_self, chain_def, latest_cons, ← same, h.seen]
    · have other : key ≠ k := fun eq => same (by rw [eq])
      rw [Function.update_of_ne same, h.seen, if_neg other]
  · exact h.threaded.snoc prev_def (h.linked _) within

theorem Kvdb.Strands.opened : ∃ db, kvdbOpen idealLogfs [] = .ok (some db) ∧
    db.Strands [] (fun _ => []) ∧ db.size = 0 ∧ db.waste = 0 := by
  obtain ⟨kvraw, ok, holds⟩ := kvrawOpen_spec idealLogfs_honours (rfl : id ([] : Bytes) = [])
  refine ⟨⟨0, 0, kvraw, indexOpen⟩, by simp [kvdbOpen, ok], ⟨holds, Index.Slots.open_,
    fun _ => trivial, fun _ => List.nil_sublist _, fun _ => rfl, ?_⟩, rfl, rfl⟩
  intro e older suffix_
  simp at suffix_

end

/-- What a mutation that applies makes of `size`. -/
def Mode.counted (live : Prop) [Decidable live] (n : UInt64) : Mode → UInt64
  | .remove => n - 1
  | .insert => n + 1
  | .update => if live then n else n + 1
  | .replace => n

/-- What it makes of `waste`. -/
def Mode.wasted (live : Prop) [Decidable live] (n : UInt64) : Mode → UInt64
  | .remove => n + 1
  | .insert => n
  | .update => if live then n + 1 else n
  | .replace => n + 1

section
variable {σ : Type} {fs : LogfsOps σ} {db db' : Kvdb σ} {op : Op} {mode : Mode} {c : Chain}
  {val : Option Bytes} {ref : Nat}

theorem Kvdb.appendAt_recount {key data : Bytes} (ok : db.appendAt fs key data ref = .ok (true, db'))
    (size waste : UInt64) :
    Kvdb.appendAt fs { db with size := size, waste := waste } key data ref =
      .ok (true, { db' with size := size, waste := waste }) := by
  unfold Kvdb.appendAt at ok ⊢
  split at ok
  · cases ok
  · cases ok
  · next append =>
    simp only [append]
    cases ok
    rfl

theorem mutateFound_idle (fs : LogfsOps σ) (db : Kvdb σ) (val : Option Bytes) (ref : Nat)
    (is_mutation : op.mode = some mode) {live : Prop}
    (test : (c.off = 0 ∨ c.valLen = 0) ↔ ¬ live) (idle : ¬ mode.Applies live) :
    ∃ r, mutateFound fs db op.key.1 val op.args.2 mode ref c = .ok (r, db) ∧ r.rv = 1 := by
  cases op with
  | lookup key out => cases is_mutation
  | update key value => cases is_mutation; exact absurd trivial idle
  | insert key value =>
    cases is_mutation
    have found : c.off ≠ 0 ∧ c.valLen ≠ 0 := not_or.mp fun dead => idle (test.mp dead)
    simp only [mutateFound, Op.args, if_pos found]
    exact ⟨_, rfl, rfl⟩
  | replace key value | remove key out =>
    cases is_mutation
    simp only [mutateFound, Op.args, if_pos (test.mpr idle)]
    exact ⟨_, rfl, rfl⟩

/-- A mutation whose append succeeds. -/
theorem mutateFound_applies (is_mutation : op.mode = some mode) {live : Prop} [Decidable live]
    (test : (c.off = 0 ∨ c.valLen = 0) ↔ ¬ live) (applies : mode.Applies live)
    (val_eq : mode ≠ .remove → val = op.args.1)
    (appended : db.appendAt fs op.key.1 op.data ref = .ok (true, db')) (size : db'.size = db.size)
    (waste : db'.waste = db.waste) :
    ∃ r, mutateFound fs db op.key.1 val op.args.2 mode ref c = .ok (r, { db' with
        size := mode.counted live db.size
        waste := mode.wasted live db.waste }) ∧
      r.rv = 0 ∧ r.val = val ∧ (mode = .remove → r.valLen = op.args.2.map fun _ => c.valLen) := by
  cases op with
  | lookup key out => cases is_mutation
  | remove key out =>
    cases is_mutation
    have found : ¬ (c.off = 0 ∨ c.valLen = 0) := fun dead => test.mp dead applies
    simp only [Op.key, Op.data] at appended
    simp only [mutateFound, Op.args, Op.key, if_neg found, appended, Mode.counted, Mode.wasted, size,
      waste]
    exact ⟨_, rfl, rfl, rfl, fun _ => rfl⟩
  | insert key value =>
    cases is_mutation
    obtain rfl := val_eq (by simp)
    have dead : ¬ (c.off ≠ 0 ∧ c.valLen ≠ 0) := by
      rw [← not_or, not_not]
      exact test.mpr applies
    simp only [Op.key, Op.data] at appended
    simp only [mutateFound, Op.args, Op.key, if_neg dead, Option.getD_some, List.take_length,
      appended, Mode.counted, Mode.wasted, size, waste]
    exact ⟨_, rfl, rfl, rfl, by simp⟩
  | replace key value =>
    cases is_mutation
    obtain rfl := val_eq (by simp)
    have found : ¬ (c.off = 0 ∨ c.valLen = 0) := fun dead => test.mp dead applies
    simp only [Op.key, Op.data] at appended
    simp only [mutateFound, Op.args, Op.key, if_neg found, Option.getD_some, List.take_length,
      appended, Mode.counted, Mode.wasted, size, waste]
    exact ⟨_, rfl, rfl, rfl, by simp⟩
  | update key value =>
    cases is_mutation
    obtain rfl := val_eq (by simp)
    simp only [Op.key, Op.data] at appended
    simp only [mutateFound, Op.args, Op.key, Option.getD_some, List.take_length, Mode.counted,
      Mode.wasted]
    by_cases here : live
    · have found : ¬ (c.off = 0 ∨ c.valLen = 0) := fun dead => test.mp dead here
      simp only [if_neg found, if_pos here, Kvdb.appendAt_recount appended]
      exact ⟨_, rfl, rfl, rfl, by simp⟩
    · simp only [if_pos (test.mpr here), if_neg here, Kvdb.appendAt_recount appended]
      exact ⟨_, rfl, rfl, rfl, by simp⟩

end

/-- The store on the ideal log shows the map. -/
structure Kvdb.Shows (db : Kvdb Bytes) (rs : List Rec) (m : KvMap) : Prop where
  strands : ∃ es, db.Strands rs es
  tells : m.Tells rs
  size : db.size = UInt64.ofNat m.live.card
  waste : db.waste = UInt64.ofNat (m.overwrites + m.removals)

section
variable {db : Kvdb Bytes} {rs : List Rec} {m : KvMap} {op : Op} {mode : Mode}

/-- The counters follow the map. -/
theorem KvMap.counted_step (m : KvMap) (is_mutation : op.mode = some mode)
    (applies : mode.Applies (op.key.1 ∈ m.live)) :
    mode.counted (op.key.1 ∈ m.live) (UInt64.ofNat m.live.card) =
        UInt64.ofNat (m.step op).live.card ∧
      mode.wasted (op.key.1 ∈ m.live) (UInt64.ofNat (m.overwrites + m.removals)) =
        UInt64.ofNat ((m.step op).overwrites + (m.step op).removals) := by
  cases op with
  | lookup key out => cases is_mutation
  | insert key val =>
    cases is_mutation
    have dead : key.1 ∉ m.live := applies
    simp [Mode.counted, Mode.wasted, KvMap.step, KvMap.put, dead]
  | replace key val =>
    cases is_mutation
    have live : key.1 ∈ m.live := applies
    simp [Mode.counted, Mode.wasted, KvMap.step, KvMap.put, live]
    grind
  | update key val =>
    cases is_mutation
    by_cases live : key.1 ∈ m.live
    · simp [Mode.counted, Mode.wasted, KvMap.step, KvMap.put, Op.key, live]
      grind
    · simp [Mode.counted, Mode.wasted, KvMap.step, KvMap.put, Op.key, live]
  | remove key out =>
    cases is_mutation
    have live : key.1 ∈ m.live := applies
    have pos := Finset.card_pos.mpr ⟨_, live⟩
    have split : m.live.card = (m.live.erase key.1).card + 1 := by
      rw [Finset.card_erase_of_mem live]
      omega
    refine ⟨?_, ?_⟩
    · simp only [Mode.counted, KvMap.step, if_pos live]
      rw [split, UInt64.ofNat_add]
      simp
    · simp [Mode.wasted, KvMap.step, live]
      grind

/-- What an operation on the store does, unless the index runs into its `EXIT`: it answers as the map
does and adds its record, if it has one. -/
def Kvdb.Does (overload : Nat → Nat → Bool) (db : Kvdb Bytes) (rs : List Rec) (m : KvMap) (op : Op) :
    Prop :=
  ∃ r db' added, Kvdb.step idealLogfs overload db op = .ok (r, db') ∧ m.Agrees op r ∧ r.rv ≠ -1 ∧
    db'.Shows (rs ++ added) (m.step op) ∧ logSize added = m.logged op ∧
    ∀ a ∈ added, a.key = op.key.1 ∧ a.val = op.data

/-- The index ends the process when it looks up the key of a mutation. -/
def Kvdb.Exits {σ : Type} (overload : Nat → Nat → Bool) (db : Kvdb σ) (op : Op) : Prop :=
  op.mode.isSome ∧ indexUpdate overload db.index op.key.1 = .error .exitSoftware

theorem Kvdb.Exits.step {σ : Type} {fs : LogfsOps σ} {overload : Nat → Nat → Bool} {db : Kvdb σ}
    (h : db.Exits overload op) : Kvdb.step fs overload db op = .error .exitSoftware := by
  obtain ⟨is_mutation, exits⟩ := h
  obtain ⟨mode, is_mutation⟩ := Option.isSome_iff_exists.mp is_mutation
  rw [Kvdb.step_mutate fs overload db is_mutation, mutate, exits]

theorem Kvdb.Shows.mutate (overload : Nat → Nat → Bool) (h : db.Shows rs m)
    (is_mutation : op.mode = some mode) (small : logSize (dummy :: rs) + m.logged op < 2 ^ 64) :
    db.Exits overload op ∨ db.Does overload rs m op := by
  obtain ⟨⟨es, strands⟩, tells, size, waste⟩ := h
  have key_ok := op.key.2
  have ne : op.key.1 ≠ [] := fun e => key_ok.1 (by simp [e])
  rcases strands.slots.update overload ne with stop | ⟨ref, index, located, slots, held⟩
  · exact Or.inl ⟨by simp [is_mutation], stop⟩
  set reads : Bool := mode == .remove && op.args.2.isSome with reads_def
  have fits : (if reads then op.args.2.getD 0 else 0) ≤
      ((if reads then op.args.1 else none).getD []).length := by
    cases reads with
    | false => simp
    | true => exact op.args_fit
  obtain ⟨c, kvraw, walk, holds, shows_⟩ := strands.walk op.key.1 fits
  have located_strands : Kvdb.Strands { db with kvraw := kvraw, index := index } rs es :=
    ⟨holds, slots, strands.linked, strands.within, strands.seen, strands.threaded⟩
  have test : (c.off = 0 ∨ c.valLen = 0) ↔ ¬ op.key.1 ∈ m.live := by
    rw [shows_.dead, ← tells.live_iff, not_not]
  have val_eq : mode ≠ .remove → (if reads then c.val else op.args.1) = op.args.1 := by
    intro other
    have off : reads = false := by simp [reads_def, other]
    simp [off]
  have run : Kvdb.step idealLogfs overload db op =
      mutateFound idealLogfs { db with kvraw := kvraw, index := index } op.key.1
        (if reads then c.val else op.args.1) op.args.2 mode ref c := by
    rw [Kvdb.step_mutate idealLogfs overload db is_mutation, KeyValue.mutate, located]
    simp only [held, ← reads_def, walk]
  right
  by_cases applies : mode.Applies (op.key.1 ∈ m.live)
  · have logged := KvMap.logged_applies is_mutation applies
    have total : logSize (dummy :: rs) + (metaLen + op.key.1.length + op.data.length) < 2 ^ 64 := by
      rwa [logged 0] at small
    obtain ⟨db', prev, es', appended, strands', same_size, same_waste⟩ :=
      located_strands.append held key_ok op.data_le total
    obtain ⟨r, found, rv, val, valLen⟩ := mutateFound_applies is_mutation test applies val_eq appended
      same_size same_waste
    obtain ⟨counted, wasted⟩ := m.counted_step is_mutation applies
    refine ⟨r, _, [⟨op.key.1, op.data, prev⟩], run.trans found,
      KvMap.agrees_applies is_mutation applies rv ?_, by rw [rv]; decide, ⟨⟨es', ?_⟩, ?_, ?_, ?_⟩,
      by rw [logged prev, logSize_cons, logSize_nil, Nat.add_zero], by simp⟩
    · rintro rfl cap asked
      have live : op.key.1 ∈ m.live := applies
      have on : reads = true := by simp [reads_def, asked]
      have value := tells.of_live live
      obtain ⟨length, copied⟩ := shows_.found ((tells.live_iff _).mpr live)
      rw [value] at length copied
      refine ⟨rv, by rw [valLen rfl, asked, Option.map_some, length], ?_⟩
      rw [val, if_pos on]
      simpa [on, asked] using copied
    · exact ⟨strands'.holds, strands'.slots, strands'.linked, strands'.within, strands'.seen,
        strands'.threaded⟩
    · rw [KvMap.step_applies is_mutation applies]
      refine tells.record prev fun tomb => ?_
      cases op with
      | insert key value | update key value | replace key value => exact absurd tomb value.ne_nil
      | remove key out => cases is_mutation; exact applies
      | lookup key out => cases is_mutation
    · rw [← counted, ← size]
    · rw [← wasted, ← waste]
  · obtain ⟨r, found, rv⟩ := mutateFound_idle idealLogfs
      { db with kvraw := kvraw, index := index } (if reads then c.val else op.args.1) ref
      is_mutation test applies
    refine ⟨r, _, [], run.trans found, KvMap.agrees_idle is_mutation applies rv,
      by rw [rv]; decide, ?_, by rw [KvMap.logged_idle is_mutation applies, logSize_nil], by simp⟩
    rw [List.append_nil, KvMap.step_idle is_mutation applies]
    exact ⟨⟨es, located_strands⟩, tells, size, waste⟩

theorem Kvdb.Shows.lookup (overload : Nat → Nat → Bool) (h : db.Shows rs m) (key : Key)
    (out : LookupBuf) : db.Does overload rs m (.lookup key out) := by
  obtain ⟨⟨es, strands⟩, tells, size, waste⟩ := h
  have buffer : ¬ ((some out.cap).getD 0 ≠ 0 ∧ out.val = none) := by
    rintro ⟨pos, none_⟩
    have fits := out.fits
    rw [none_] at fits
    exact pos (Nat.le_zero.mp fits)
  have ne : key.1 ≠ [] := fun e => key.2.1 (by simp [e])
  obtain ⟨j, found, held⟩ := strands.slots.lookup ne
  have empty : headOff (es (indexKey key.1)) = 0 → key.1 ∉ m.live := by
    intro zero
    rw [← tells.live_iff, not_not, ← strands.seen]
    cases chain : es (indexKey key.1) with
    | nil => rfl
    | cons e older =>
      rw [chain, headOff] at zero
      have member : e ∈ history rs :=
        (strands.within _).subset (by rw [chain]; exact List.mem_cons_self)
      exact absurd zero (history_off_ne_zero member)
  -- a lookup leaves the index and the counters alone
  have does : ∀ r (kvraw : Kvraw Bytes),
      kvdbLookup idealLogfs db key.1 out.val (some out.cap) = .ok (r, { db with kvraw := kvraw }) →
      kvraw.Holds id (dummy :: rs) → m.Agrees (.lookup key out) r → r.rv ≠ -1 →
      db.Does overload rs m (.lookup key out) := by
    intro r kvraw ok holds agrees answers
    refine ⟨r, _, [], ok, agrees, answers, ?_, rfl, by simp⟩
    rw [List.append_nil]
    exact ⟨⟨es, holds, strands.slots, strands.linked, strands.within, strands.seen,
      strands.threaded⟩, tells, size, waste⟩
  have absent : key.1 ∉ m.live → ∀ val valLen, m.Agrees (.lookup key out) ⟨1, val, valLen⟩ :=
    fun dead _ _ => by simp [KvMap.Agrees, dead]
  rw [kvdbLookup, if_neg (not_not.mpr key.2), if_neg buffer, found] at does
  cases j with
  | none => exact does _ db.kvraw rfl strands.holds (absent (empty held.symm) _ _) (by simp)
  | some ref =>
    simp only [Option.map_some, Option.getD_some] at held
    simp only [Option.isSome_some, if_true, Option.getD_some, held] at does
    by_cases zero : headOff (es (indexKey key.1)) = 0
    · simp only [if_pos zero] at does
      exact does _ db.kvraw rfl strands.holds (absent (empty zero) _ _) (by simp)
    · obtain ⟨c, kvraw, walk, holds, shows_⟩ := strands.walk key.1 out.fits
      simp only [if_neg zero, walk] at does
      by_cases live : key.1 ∈ m.live
      · have alive : ¬ (c.off = 0 ∨ c.valLen = 0) := by
          rw [shows_.dead]
          exact (tells.live_iff _).mpr live
        obtain ⟨length, copied⟩ := shows_.found ((tells.live_iff _).mpr live)
        rw [tells.of_live live] at length copied
        simp only [if_neg alive] at does
        refine does _ kvraw rfl holds ?_ (by simp)
        simp only [KvMap.Agrees, if_pos live]
        exact ⟨rfl, by rw [length], copied⟩
      · have gone : c.off = 0 ∨ c.valLen = 0 := by
          rw [shows_.dead]
          by_contra other
          exact live ((tells.live_iff _).mp other)
        simp only [if_pos gone] at does
        exact does _ kvraw rfl holds (absent live _ _) (by simp)

theorem Kvdb.Shows.step (overload : Nat → Nat → Bool) (h : db.Shows rs m) (op : Op)
    (small : logSize (dummy :: rs) + m.logged op < 2 ^ 64) :
    db.Exits overload op ∨ db.Does overload rs m op := by
  cases is_mutation : op.mode with
  | some mode => exact h.mutate overload is_mutation small
  | none =>
    cases op with
    | lookup key out => exact Or.inr (h.lookup overload key out)
    | _ => cases is_mutation

theorem Kvdb.Shows.opened : ∃ db, kvdbOpen idealLogfs [] = .ok (some db) ∧
    db.Shows [] KvMap.empty := by
  obtain ⟨db, ok, strands, size, waste⟩ := Kvdb.Strands.opened
  exact ⟨db, ok, ⟨_, strands⟩, KvMap.Tells.empty, size, waste⟩

/-- The offset of the first record of a hash, where the restore loop finds the hash live. -/
theorem Kvdb.Strands.restored {kvraw : Kvraw Bytes} (holds : kvraw.Holds id (dummy :: rs))
    (threaded : Threaded rs)
    (apart : ∀ e ∈ history rs, ∀ e' ∈ history rs, indexKey e.2.key = indexKey e'.2.key →
      e.2.key = e'.2.key)
    (kvraw_eq : db.kvraw = kvraw) (slots : db.index.Slots (replaySlot (history rs))) :
    ∃ es, db.Strands rs es := by
  have chains : ∀ h, ∃ chain, headOff chain = replaySlot (history rs) h ∧ Linked chain ∧
      chain.Sublist (history rs) ∧
      ∀ key, indexKey key = h → latest key chain = latest key (history rs) := by
    intro h
    by_cases live : hashLive h (history rs) = true
    · cases newest_first : classOf h (history rs) with
      | nil => simp [hashLive, newest_first] at live
      | cons e rest =>
        have member : e ∈ classOf h (history rs) := by simp [newest_first]
        have hash : indexKey e.2.key = h := by simpa using (List.mem_filter.mp member).2
        have logged := List.mem_of_mem_filter member
        obtain ⟨newer, older, split, _⟩ := List.filter_eq_cons_iff.mp newest_first
        obtain ⟨chain, linked, within⟩ := threaded e older ⟨newer, split.symm⟩
        have within' : (e :: chain).Sublist (history rs) := by
          rw [split]
          exact (within.cons_cons e).trans (List.sublist_append_right newer (e :: older))
        refine ⟨e :: chain, by simp [replaySlot, live, newest_first, headOff], linked, within', ?_⟩
        intro key same
        by_cases here : e.2.key = key
        · rw [latest_cons, if_pos here, latest, ← newest_classOf, same, newest_first, newest_cons,
            if_pos here]
          rfl
        · -- no record of the log has the key
          have absent : ∀ es, es.Sublist (history rs) → latest key es = [] := by
            intro es sub
            cases first : newest key es with
            | none => simp [latest, first]
            | some e' =>
              obtain ⟨mem, rfl⟩ := newest_mem first
              exact absurd (apart e logged e' (sub.subset mem) (hash.trans same.symm)) here
          rw [absent _ within', absent _ (List.Sublist.refl _)]
    · refine ⟨[], by simp [replaySlot, live, headOff], trivial, List.nil_sublist _, ?_⟩
      intro key same
      cases first : newest key (history rs) with
      | none => rw [latest, latest, first]; rfl
      | some e =>
        obtain ⟨mem, rfl⟩ := newest_mem first
        have only := hashLive_iff fun e' mem' => apart e' mem' e mem
        rw [same] at only
        exact (not_not.mp fun other => live (only.mpr (Ne.symm other)))
  choose es start linked within seen using chains
  refine ⟨es, by rwa [kvraw_eq], ?_, linked, within, fun key => seen _ key rfl, threaded⟩
  simpa only [start] using slots

/-- A restore from a log without colliding keys shows the map that the log tells. -/
theorem Kvdb.Shows.restored {overload : Nat → Nat → Bool} {kvraw : Kvraw Bytes}
    (holds : kvraw.Holds id (dummy :: rs)) (threaded : Threaded rs)
    (apart : ∀ e ∈ history rs, ∀ e' ∈ history rs, indexKey e.2.key = indexKey e'.2.key →
      e.2.key = e'.2.key)
    (tells : m.Tells rs) (ok : kvdbRestore overload kvraw (visits rs) = .ok db) :
    db.Shows rs m := by
  have ne : ∀ r ∈ rs, r.key ≠ [] := fun r mem =>
    List.length_pos_iff.mp (holds.fits r (List.mem_cons_of_mem _ mem)).key_pos
  have restored := kvdbRestore_restored ne ok
  obtain ⟨shadow, expose⟩ := tally_of_injective apart
  obtain ⟨new, old⟩ := tally_balance (history rs)
  have created := tells.created
  have wasted := tells.wasted
  refine ⟨Kvdb.Strands.restored holds threaded apart restored.kvraw_eq restored.slots, tells, ?_, ?_⟩
  · have size := restored.size
    have total : tally fresh (history rs) = m.live.card + tally removes (history rs) := by omega
    rw [total, UInt64.ofNat_add] at size
    exact (UInt64.add_left_inj _).mp size
  · rw [restored.waste]
    congr 1
    omega

end

end OsProjects.KeyValue
