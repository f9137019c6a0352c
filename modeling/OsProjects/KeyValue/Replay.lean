import OsProjects.KeyValue.StoreMap

/-!
# Restoring a store from its log

The restore loop of `kvdb_open_internal` keeps one offset for each hash and never looks
at the keys behind it, while the live store follows the chain. For a visitor that
yields the records of the log, the two agree exactly when no record meets a hash whose
newest record belongs to another key in a way that matters (`ReplaySafe`). Without
collisions in the log that is always so.
-/
namespace OsProjects.KeyValue
open OsProjects.Library

/-- The records after the dummy as the visitor yields them. -/
def visits (rs : List Rec) : List Visit :=
  (entriesFrom dummy.size rs).map fun e => ⟨e.1, e.2.key, e.2.val.length⟩

/-- The newest record of the hash carries a value. -/
def hashLive (h : Nat) (es : List Entry) : Bool := (classOf h es).head?.any fun e => e.2.val ≠ []

/-- A value for a dead key under a hash that another key holds: the restore counts it as
an overwrite. -/
def shadowed (e : Entry) (es : List Entry) : Bool := creates e es ∧ hashLive (indexKey e.2.key) es

/-- A value over a live one after a tombstone of another key with the same hash: the restore
counts it as a new item. -/
def exposed (e : Entry) (es : List Entry) : Bool :=
  overwrites e es ∧ ¬ hashLive (indexKey e.2.key) es

/-- The `index_update` calls of a restore, for their result only. -/
def indexAll (overload : Nat → Nat → Bool) (index : Index) : List Bytes → Except Fault Index
  | [] => .ok index
  | key :: keys =>
    match indexUpdate overload index key with
    | .error e => .error e
    | .ok (_, index) => indexAll overload index keys

/-- The logs that a restore reads back correctly. -/
structure ReplaySafe (overload : Nat → Nat → Bool) (rs : List Rec) : Prop where
  indexed : ∃ index, indexAll overload indexOpen (rs.map Rec.key) = .ok index
  counted : tally shadowed (history rs) = tally exposed (history rs)
  visible : ∀ k, latest k (history rs) ≠ [] → hashLive (indexKey k) (history rs)

/-- The same result, and for a found key the same value. -/
def Reply.Same (cap : Nat) (r r' : Reply) : Prop :=
  r.rv = r'.rv ∧ (r.rv = 0 → r.valLen = r'.valLen ∧
    (r.val.getD []).take (min cap (r.valLen.getD 0)) =
      (r'.val.getD []).take (min cap (r.valLen.getD 0)))

/-- Two stores that no lookup tells apart and whose counters agree. -/
structure Kvdb.Equivalent {σ : Type} (fs : LogfsOps σ) (db db' : Kvdb σ) : Prop where
  lookup : ∀ (key : Key) (out : LookupBuf), ∃ r r' next next',
    kvdbLookup fs db key.1 out.val (some out.cap) = .ok (r, next) ∧
      kvdbLookup fs db' key.1 out.val (some out.cap) = .ok (r', next') ∧ r.Same out.cap r'
  size : kvdbSize db = kvdbSize db'
  waste : kvdbWaste db = kvdbWaste db'

theorem Reply.Finds.same {r r' : Reply} {cap : Nat} {value : Bytes} (h : r.Finds cap value)
    (h' : r'.Finds cap value) : r.Same cap r' := by
  by_cases empty : value = []
  · simp only [Reply.Finds, empty, if_true] at h h'
    simp [Reply.Same, h, h']
  · simp only [Reply.Finds, empty, if_false] at h h'
    refine ⟨h.ok.trans h'.ok.symm, fun _ => ⟨h.valLen.trans h'.valLen.symm, ?_⟩⟩
    rw [h.valLen, Option.getD_some, h.copied, h'.copied]

theorem Reply.Finds.rv_eq_zero {r : Reply} {cap : Nat} {value : Bytes} (h : r.Finds cap value) :
    r.rv = 0 ↔ value ≠ [] := by
  by_cases empty : value = []
  · simp only [Reply.Finds, empty, if_true] at h
    simp [h, empty]
  · simp only [Reply.Finds, empty, if_false] at h
    simp [h.ok, empty]

theorem hashLive_cons (h : Nat) (e : Entry) (es : List Entry) :
    hashLive h (e :: es) =
      if indexKey e.2.key = h then decide (e.2.val ≠ []) else hashLive h es := by
  by_cases same : indexKey e.2.key = h <;> simp [hashLive, classOf_cons, same]

/-- The offset the restore loop leaves for a hash. -/
def replaySlot (es : List Entry) (h : Nat) : Nat :=
  if hashLive h es then headOff (classOf h es) else 0

theorem replaySlot_cons (e : Entry) (es : List Entry) :
    replaySlot (e :: es) = Function.update (replaySlot es) (indexKey e.2.key)
      (if e.2.val = [] then 0 else e.1) := by
  funext h
  by_cases same : indexKey e.2.key = h
  · subst same
    by_cases tomb : e.2.val = [] <;> simp [replaySlot, hashLive_cons, classOf_cons, headOff, tomb]
  · simp [replaySlot, hashLive_cons, classOf_cons, same, Function.update_of_ne (Ne.symm same)]

theorem replaySlot_ne_zero (rs : List Rec) (h : Nat) :
    replaySlot (history rs) h ≠ 0 ↔ hashLive h (history rs) = true := by
  unfold replaySlot
  split_ifs with live
  · simp only [live, iff_true]
    cases e : classOf h (history rs) with
    | nil => simp [hashLive, e] at live
    | cons entry rest => exact (class_stored h rs entry (by rw [e]; exact List.mem_cons_self)).2
  · simp [live]

/-- A value under a hash whose slot the restore loop finds empty. -/
def fresh (e : Entry) (es : List Entry) : Bool :=
  e.2.val ≠ [] ∧ ¬ hashLive (indexKey e.2.key) es

/-- A value under a hash whose slot the restore loop finds set. -/
def stale (e : Entry) (es : List Entry) : Bool := e.2.val ≠ [] ∧ hashLive (indexKey e.2.key) es

/-- The two ways of counting differ by the records that collide. -/
theorem tally_balance (es : List Entry) :
    tally fresh es + tally shadowed es = tally creates es + tally exposed es ∧
      tally stale es + tally exposed es = tally overwrites es + tally shadowed es := by
  induction es with
  | nil => exact ⟨rfl, rfl⟩
  | cons e es ih =>
    obtain ⟨new, old⟩ := ih
    simp only [tally, fresh, stale, shadowed, exposed, creates, overwrites]
    by_cases tomb : e.2.val = []
    · simp [tomb]
      omega
    · by_cases dead : latest e.2.key es = []
      · cases held : hashLive (indexKey e.2.key) es
        · simp [tomb, dead]
          omega
        · simp [tomb, dead]
          omega
      · cases held : hashLive (indexKey e.2.key) es
        · simp [tomb, dead]
          omega
        · simp [tomb, dead]
          omega

/-- Where no other key of the history has the hash of `k`, the hash is live when `k` is. -/
theorem hashLive_iff {k : Bytes} {es : List Entry}
    (only : ∀ e ∈ es, indexKey e.2.key = indexKey k → e.2.key = k) :
    hashLive (indexKey k) es = true ↔ latest k es ≠ [] := by
  induction es with
  | nil => simp [hashLive, classOf, latest, newest]
  | cons e es ih =>
    obtain ⟨here, rest⟩ := List.forall_mem_cons.mp only
    rw [hashLive_cons, latest_cons]
    by_cases same : indexKey e.2.key = indexKey k
    · simp [here same]
    · have other : e.2.key ≠ k := fun eq => same (by rw [eq])
      simp [same, other, ih rest]

theorem tally_of_injective {es : List Entry} (injective : ∀ e ∈ es, ∀ e' ∈ es,
    indexKey e.2.key = indexKey e'.2.key → e.2.key = e'.2.key) :
    tally shadowed es = 0 ∧ tally exposed es = 0 := by
  induction es with
  | nil => exact ⟨rfl, rfl⟩
  | cons e es ih =>
    have agree : hashLive (indexKey e.2.key) es = true ↔ latest e.2.key es ≠ [] :=
      hashLive_iff fun e' mem same =>
        injective e' (List.mem_cons_of_mem _ mem) e List.mem_cons_self same
    obtain ⟨shadow, expose⟩ := ih fun a ha b hb =>
      injective a (List.mem_cons_of_mem _ ha) b (List.mem_cons_of_mem _ hb)
    simp only [tally, shadow, expose, shadowed, exposed, creates, overwrites, agree]
    by_cases live : latest e.2.key es = [] <;> simp [live]

/-- A log without colliding keys is safe to replay. -/
theorem ReplaySafe.of_injective {overload : Nat → Nat → Bool} {rs : List Rec}
    (indexed : ∃ index, indexAll overload indexOpen (rs.map Rec.key) = .ok index)
    (injective : ∀ r ∈ rs, ∀ r' ∈ rs, indexKey r.key = indexKey r'.key → r.key = r'.key) :
    ReplaySafe overload rs := by
  have record : ∀ e ∈ history rs, e.2 ∈ rs := by
    intro e mem
    have : ∀ off, ∀ e ∈ entriesFrom off rs, e.2 ∈ rs := by
      clear injective indexed mem
      induction rs with
      | nil => simp [entriesFrom]
      | cons r rs ih =>
        intro off e mem
        rcases List.mem_cons.mp mem with rfl | mem
        · exact List.mem_cons_self
        · exact List.mem_cons_of_mem _ (ih _ e mem)
    exact this _ e (List.mem_reverse.mp mem)
  obtain ⟨shadow, expose⟩ := tally_of_injective fun e mem e' mem' =>
    injective e.2 (record e mem) e'.2 (record e' mem')
  refine ⟨indexed, shadow.trans expose.symm, fun k live => ?_⟩
  cases e : newest k (history rs) with
  | none => simp [latest, e] at live
  | some entry =>
    obtain ⟨mem, rfl⟩ := newest_mem e
    refine (hashLive_iff fun e' mem' same => ?_).mpr live
    exact injective e'.2 (record e' mem') entry.2 (record entry mem) same

theorem visits_snoc (rs : List Rec) (r : Rec) :
    visits (rs ++ [r]) = visits rs ++ [⟨logSize (dummy :: rs), r.key, r.val.length⟩] := by
  simp [visits, entriesFrom_append, entriesFrom]

section
variable {σ : Type} {overload : Nat → Nat → Bool}

theorem restoreLoop_append (db : Kvdb σ) (vs vs' : List Visit) :
    restoreLoop overload db (vs ++ vs') =
      match restoreLoop overload db vs with
      | .error e => .error e
      | .ok db => restoreLoop overload db vs' := by
  induction vs generalizing db with
  | nil => rfl
  | cons v vs ih =>
    simp only [List.cons_append, restoreLoop]
    cases restoreStep overload db v with
    | error e => rfl
    | ok next => exact ih next

/-- The store after the restore loop has seen the records. -/
structure Kvdb.Restored (kvraw : Kvraw σ) (db : Kvdb σ) (rs : List Rec) : Prop where
  kvraw_eq : db.kvraw = kvraw
  slots : db.index.Slots (replaySlot (history rs))
  size : db.size + UInt64.ofNat (tally removes (history rs)) =
    UInt64.ofNat (tally fresh (history rs))
  waste : db.waste = UInt64.ofNat (tally removes (history rs) + tally stale (history rs))

theorem restoreStep_spec {kvraw : Kvraw σ} {db db' : Kvdb σ} {rs : List Rec}
    (h : db.Restored kvraw rs) {r : Rec} (ne : r.key ≠ [])
    (ok : restoreStep overload db ⟨logSize (dummy :: rs), r.key, r.val.length⟩ = .ok db') :
    db'.Restored kvraw (rs ++ [r]) := by
  rcases h.slots.update overload ne with stop | ⟨ref, index, found, slots, held⟩
  · simp [restoreStep, stop] at ok
  · have stored := fun off => slots.store (indexKey_ne_zero r.key) held off
    have set := replaySlot_ne_zero rs (indexKey r.key)
    simp only [restoreStep, found, held] at ok
    have size := h.size
    have waste := h.waste
    by_cases tomb : r.val = []
    · simp only [tomb, List.length_nil, if_true, Except.ok.injEq] at ok
      subst ok
      refine ⟨h.kvraw_eq, ?_, ?_, ?_⟩
      · rw [history_snoc, replaySlot_cons]
        simpa [tomb] using stored 0
      · simp [history_snoc, tally, removes, fresh, tomb, UInt64.ofNat_add]
        grind
      · simp [history_snoc, tally, removes, stale, tomb, UInt64.ofNat_add, waste]
        grind
    · have pos : ¬ r.val.length = 0 := by simpa using tomb
      simp only [pos, if_false, set] at ok
      cases live : hashLive (indexKey r.key) (history rs) with
      | false =>
        simp only [live, Bool.false_eq_true, if_false, Except.ok.injEq] at ok
        subst ok
        refine ⟨h.kvraw_eq, ?_, ?_, ?_⟩
        · rw [history_snoc, replaySlot_cons]
          simpa [tomb] using stored (logSize (dummy :: rs))
        · simp [history_snoc, tally, removes, fresh, tomb, live, UInt64.ofNat_add]
          grind
        · simp [history_snoc, tally, removes, stale, tomb, live, UInt64.ofNat_add, waste]
      | true =>
        simp only [live, if_true, Except.ok.injEq] at ok
        subst ok
        refine ⟨h.kvraw_eq, ?_, ?_, ?_⟩
        · rw [history_snoc, replaySlot_cons]
          simpa [tomb] using stored (logSize (dummy :: rs))
        · simpa [history_snoc, tally, removes, fresh, tomb, live] using size
        · simp [history_snoc, tally, removes, stale, tomb, live, UInt64.ofNat_add, waste]
          grind

theorem kvdbRestore_restored {kvraw : Kvraw σ} {rs : List Rec} (ne : ∀ r ∈ rs, r.key ≠ [])
    {db : Kvdb σ} (ok : kvdbRestore overload kvraw (visits rs) = .ok db) :
    db.Restored kvraw rs := by
  induction rs using List.reverseRecOn generalizing db with
  | nil =>
    obtain rfl : (⟨0, 0, kvraw, indexOpen⟩ : Kvdb σ) = db := by
      simpa [kvdbRestore, visits, entriesFrom, restoreLoop] using ok
    refine ⟨rfl, ?_, rfl, rfl⟩
    have none_ : replaySlot (history []) = fun _ => 0 := by
      funext h
      simp [replaySlot, hashLive, classOf]
    rw [none_]
    exact Index.Slots.open_
  | append_singleton rs r ih =>
    rw [visits_snoc, kvdbRestore, restoreLoop_append] at ok
    cases first : restoreLoop overload ⟨0, 0, kvraw, indexOpen⟩ (visits rs) with
    | error e => simp [first] at ok
    | ok before =>
      have ih := ih (fun r hr => ne r (List.mem_append_left _ hr)) first
      simp only [first, restoreLoop] at ok
      cases last : restoreStep overload before ⟨logSize (dummy :: rs), r.key, r.val.length⟩ with
      | error e => simp only [last, reduceCtorEq] at ok
      | ok after =>
        simp only [last, Except.ok.injEq] at ok
        subst ok
        exact restoreStep_spec ih (ne r (by simp)) last

/-- A restore ends in the `EXIT` of the index exactly when its `index_update` calls do. -/
theorem restoreLoop_index (overload : Nat → Nat → Bool) (db : Kvdb σ) (vs : List Visit) :
    (restoreLoop overload db vs).map (fun d => d.index.keys) =
      indexAll overload db.index.keys (vs.map Visit.key) := by
  induction vs generalizing db with
  | nil => rfl
  | cons v vs ih =>
    simp only [restoreLoop, restoreStep, List.map_cons, indexAll, indexUpdate_keys]
    cases indexUpdate overload db.index v.key with
    | error e => rfl
    | ok r =>
      obtain ⟨ref, index⟩ := r
      have keys : ∀ off, (index.store ref off).keys = index.keys := index.keys_store ref
      simp only [Except.map, Prod.map, id]
      split_ifs
      · exact (ih _).trans (by rw [keys])
      · exact (ih _).trans (by rw [keys])
      · exact (ih _).trans (by rw [keys])

theorem restoreLoop_ok_iff (db : Kvdb σ) (vs : List Visit) :
    (∃ db', restoreLoop overload db vs = .ok db') ↔
      ∃ index, indexAll overload db.index.keys (vs.map Visit.key) = .ok index := by
  rw [← restoreLoop_index]
  cases restoreLoop overload db vs with
  | error e => simp [Except.map]
  | ok db => simp [Except.map]

theorem map_key_visits (rs : List Rec) : (visits rs).map Visit.key = rs.map Rec.key := by
  have : ∀ off, (entriesFrom off rs).map (fun e => e.2.key) = rs.map Rec.key := by
    intro off
    induction rs generalizing off with
    | nil => rfl
    | cons r rs ih => simp [entriesFrom, ih]
  simp [visits, Function.comp_def, this]

theorem kvdbRestore_ok_iff (kvraw : Kvraw σ) (rs : List Rec) :
    (∃ db, kvdbRestore overload kvraw (visits rs) = .ok db) ↔
      ∃ index, indexAll overload indexOpen (rs.map Rec.key) = .ok index := by
  have run := @restoreLoop_ok_iff σ overload
    (⟨0, 0, kvraw, indexOpen⟩ : Kvdb σ) (visits rs)
  have start : indexOpen.keys = indexOpen := rfl
  rwa [map_key_visits, start] at run

variable {fs : LogfsOps σ} {contents : σ → Bytes} {rs : List Rec}

theorem Kvdb.Rep.size_eq {db : Kvdb σ} {m : KvMap} (h : db.Rep contents rs m) :
    db.size + UInt64.ofNat (tally removes (history rs)) =
      UInt64.ofNat (tally creates (history rs)) := by
  rw [h.size, ← UInt64.ofNat_add, h.created]

theorem Kvdb.Restored.size_iff {db db' : Kvdb σ} {m : KvMap} {kvraw : Kvraw σ}
    (restored : db'.Restored kvraw rs) (live : db.Rep contents rs m) :
    db.size = db'.size ↔ tally shadowed (history rs) = tally exposed (history rs) := by
  have total := tally_total (history rs)
  have balance := tally_balance (history rs)
  have records := length_le_logSize (dummy :: rs)
  have small := live.log.holds.small
  rw [length_history] at total
  simp only [List.length_cons] at records
  have counts : db.size = db'.size ↔
      UInt64.ofNat (tally creates (history rs)) = UInt64.ofNat (tally fresh (history rs)) := by
    rw [← live.size_eq, ← restored.size]
    constructor
    · exact fun e => by rw [e]
    · grind
  rw [counts]
  constructor
  · intro same
    have := congrArg UInt64.toNat same
    rw [UInt64.toNat_ofNat', UInt64.toNat_ofNat', Nat.mod_eq_of_lt (by omega),
      Nat.mod_eq_of_lt (by omega)] at this
    omega
  · intro same
    congr 1
    omega

/-- A restored store is equivalent to the live one exactly when the two counts of new items
agree and no live key is hidden behind a tombstone. -/
theorem Kvdb.Restored.equivalent_iff (honours : fs.Honours contents) {db db' : Kvdb σ} {m : KvMap}
    {kvraw : Kvraw σ} (live : db.Rep contents rs m) (restored : db'.Restored kvraw rs)
    (holds : kvraw.Holds contents (dummy :: rs)) :
    db.Equivalent fs db' ↔ tally shadowed (history rs) = tally exposed (history rs) ∧
      ∀ k, latest k (history rs) ≠ [] → hashLive (indexKey k) (history rs) := by
  have found : ∀ (key : Key) (out : LookupBuf), ∃ r r' next next',
      kvdbLookup fs db key.1 out.val (some out.cap) = .ok (r, next) ∧
        kvdbLookup fs db' key.1 out.val (some out.cap) = .ok (r', next') ∧
        r.Finds out.cap (latest key.1 (history rs)) ∧
        r'.Finds out.cap
          (if hashLive (indexKey key.1) (history rs) then latest key.1 (history rs) else []) := by
    intro key out
    obtain ⟨r, kvraw₁, ok, _, value⟩ := kvdbLookup_spec honours live.log.holds live.log.linked
      live.log.slots key.2 out.fits (Or.inr rfl)
    obtain ⟨r', kvraw₂, ok', _, value'⟩ := kvdbLookup_spec honours
      (by rw [restored.kvraw_eq]; exact holds) live.log.linked restored.slots key.2 out.fits (by
        unfold replaySlot
        split_ifs <;> simp)
    refine ⟨r, r', _, _, ok, ok', ?_, ?_⟩
    · rwa [ite_eq_right_iff.mpr fun zero => (latest_of_headOff zero).symm] at value
    · rw [← ite_not] at value'
      simpa only [← ne_eq, replaySlot_ne_zero] using value'
  constructor
  · intro same
    refine ⟨(restored.size_iff live).mp same.size, fun k alive => ?_⟩
    by_contra hidden
    cases e : newest k (history rs) with
    | none => simp [latest, e] at alive
    | some entry =>
      have mem := newest_mem e
      have fit := live.log.holds.fits entry.2 (history_stored mem.1).mem
      have key_ok : keyLenOk k := by
        rw [← mem.2]
        exact ⟨fit.key_pos.ne', fit.key_le⟩
      let out : LookupBuf := ⟨none, 0, Nat.zero_le _⟩
      obtain ⟨r, r', _, _, ok, ok', value, value'⟩ := found ⟨k, key_ok⟩ out
      obtain ⟨r₁, r₁', _, _, ok₁, ok₁', rv, _⟩ := same.lookup ⟨k, key_ok⟩ out
      rw [ok, Except.ok.injEq, Prod.mk.injEq] at ok₁
      rw [ok', Except.ok.injEq, Prod.mk.injEq] at ok₁'
      rw [← ok₁.1, ← ok₁'.1] at rv
      rw [if_neg hidden] at value'
      have zero := value.rv_eq_zero.mpr alive
      rw [rv] at zero
      exact value'.rv_eq_zero.mp zero rfl
  · rintro ⟨counted, visible⟩
    refine ⟨fun key out => ?_, ?_, ?_⟩
    · obtain ⟨r, r', next, next', ok, ok', value, value'⟩ := found key out
      refine ⟨r, r', next, next', ok, ok', value.same ?_⟩
      by_cases alive : latest key.1 (history rs) = []
      · simpa [alive] using value'
      · simpa [visible key.1 alive] using value'
    · exact (restored.size_iff live).mpr counted
    · have overs := (tally_balance (history rs)).2
      have : tally stale (history rs) = tally overwrites (history rs) := by omega
      rw [kvdbWaste, kvdbWaste, live.waste, restored.waste, live.wasted, this]

end

/-- Two keys with the same hash. -/
def collidingKeys : Key × Key :=
  (⟨[0x72, 0x07, 0x98, 0x6a, 0x10, 0x03, 0x14, 0xfe], by decide⟩,
    ⟨[0x90, 0x00, 0x8a, 0x62, 0xde, 0x43, 0xa6, 0x42], by decide⟩)

/-- The log that a run leaves, and the sizes before the close and after a restore of `rs`. -/
def sizesAround (ops : List Op) (rs : List Rec) : Option (Bytes × UInt64 × UInt64) :=
  match kvdbOpen idealLogfs [] with
  | .ok (some start) =>
    match Kvdb.run idealLogfs loadTest start ops with
    | .ok (_, db) =>
      match kvdbRestore loadTest db.kvraw (visits rs) with
      | .ok db' => some (db.kvraw.logfs, kvdbSize db, kvdbSize db')
      | .error _ => none
    | .error _ => none
  | _ => none

theorem sizesAround_run {ops : List Op} {rs : List Rec} {log : Bytes} {before after : UInt64}
    (sizes : sizesAround ops rs = some (log, before, after)) :
    ∃ start replies db db', kvdbOpen idealLogfs [] = .ok (some start) ∧
      Kvdb.run idealLogfs loadTest start ops = .ok (replies, db) ∧ db.kvraw.logfs = log ∧
      kvdbRestore loadTest db.kvraw (visits rs) = .ok db' ∧ kvdbSize db = before ∧
      kvdbSize db' = after := by
  unfold sizesAround at sizes
  split at sizes
  · rename_i start opened
    split at sizes
    · rename_i replies db run
      split at sizes
      · rename_i db' restored
        simp only [Option.some.injEq, Prod.mk.injEq] at sizes
        obtain ⟨same, first, second⟩ := sizes
        exact ⟨start, replies, db, db', opened, run, same, restored, first, second⟩
      · simp at sizes
    · simp at sizes
  · simp at sizes

/-- For every run of the store and every restore from its log: the restored store is
equivalent to the one that wrote the log exactly when the log is `ReplaySafe`. -/
theorem kvdbRestore_equivalent_iff {σ : Type} (fs : LogfsOps σ) (contents : σ → Bytes)
    (overload : Nat → Nat → Bool) (honours : fs.Honours contents) (logfs : σ)
    (fresh : contents logfs = []) (ops : List Op)
    (small : dummy.size + KvMap.empty.loggedAll ops < 2 ^ 64) (start db : Kvdb σ)
    (opened : kvdbOpen fs logfs = .ok (some start)) (replies : List Reply)
    (run : Kvdb.run fs overload start ops = .ok (replies, db)) (rs : List Rec)
    (log : contents db.kvraw.logfs = logBytes (dummy :: rs)) (fits : ∀ r ∈ rs, r.Fits)
    (kvraw : Kvraw σ) (size : kvraw.size = db.kvraw.size)
    (bytes : contents kvraw.logfs = contents db.kvraw.logfs) :
    (∃ db', kvdbRestore overload kvraw (visits rs) = .ok db' ∧ db.Equivalent fs db') ↔
      ReplaySafe overload rs := by
  obtain ⟨start', opened', rep⟩ := kvdbOpen_spec honours fresh
  obtain rfl : start' = start := by simpa [opened] using opened'.symm
  rcases Kvdb.run_follows overload honours ops rep (by simpa using small) with
    stop | ⟨_, db', rs', ok, _, rep', _⟩
  · simp [run] at stop
  · obtain ⟨_, rfl⟩ : _ ∧ db = db' := by simpa [run] using ok
    have dummy_fits : dummy.Fits := ⟨by decide, by decide, by decide, by decide⟩
    have same : dummy :: rs' = dummy :: rs :=
      logBytes_injective rep'.log.holds.fits (List.forall_mem_cons.mpr ⟨dummy_fits, fits⟩)
        (by rw [← rep'.log.holds.bytes, log])
    obtain rfl : rs' = rs := List.tail_eq_of_cons_eq same
    have holds : kvraw.Holds contents (dummy :: rs') :=
      ⟨bytes.trans log, size.trans rep'.log.holds.size, rep'.log.holds.small,
        rep'.log.holds.fits⟩
    have ne : ∀ r ∈ rs', r.key ≠ [] := fun r hr e => by
      have := (fits r hr).key_pos
      simp [e] at this
    constructor
    · rintro ⟨db', ok, same⟩
      obtain ⟨counted, visible⟩ :=
        ((kvdbRestore_restored ne ok).equivalent_iff honours rep' holds).mp same
      exact ⟨(kvdbRestore_ok_iff kvraw rs').mp ⟨db', ok⟩, counted, visible⟩
    · rintro ⟨indexed, counted, visible⟩
      obtain ⟨db', ok⟩ := (kvdbRestore_ok_iff kvraw rs').mpr indexed
      exact ⟨db', ok, ((kvdbRestore_restored ne ok).equivalent_iff honours rep' holds).mpr
        ⟨counted, visible⟩⟩

/-- Two keys are inserted, and the first is removed. -/
def removedOps : List Op :=
  [.insert ⟨[21], by decide⟩ ⟨[31], by decide⟩, .insert ⟨[22], by decide⟩ ⟨[32], by decide⟩,
    .remove ⟨[21], by decide⟩ none]

def removedRecs : List Rec := [⟨[21], [31], 0⟩, ⟨[22], [32], 0⟩, ⟨[21], [], dummy.size⟩]

theorem kvdbRestore_equivalent_iff_removed :
    ∃ start replies db db', kvdbOpen idealLogfs [] = .ok (some start) ∧
      Kvdb.run idealLogfs loadTest start removedOps = .ok (replies, db) ∧
      kvdbRestore loadTest db.kvraw (visits removedRecs) = .ok db' ∧
      db.Equivalent idealLogfs db' := by
  have sizes : sizesAround removedOps removedRecs =
      some (logBytes (dummy :: removedRecs), 1, 1) := by decide +kernel
  obtain ⟨start, replies, db, db', opened, run, log, restored, _⟩ := sizesAround_run sizes
  have fits : ∀ r ∈ removedRecs, r.Fits := by
    simp only [removedRecs, List.forall_mem_cons]
    exact ⟨⟨by decide, by decide, by decide, by decide⟩,
      ⟨by decide, by decide, by decide, by decide⟩, ⟨by decide, by decide, by decide, by decide⟩,
      by simp⟩
  have apart : indexKey [21] ≠ indexKey [22] := by decide +kernel
  have safe : ReplaySafe loadTest removedRecs := by
    refine .of_injective ((kvdbRestore_ok_iff db.kvraw removedRecs).mp ⟨db', restored⟩) ?_
    simp only [removedRecs, List.forall_mem_cons]
    simp [apart, apart.symm]
  obtain ⟨db'', again, same⟩ := (kvdbRestore_equivalent_iff idealLogfs id loadTest
    idealLogfs_honours [] rfl removedOps (by decide) start db opened replies run removedRecs log
    fits db.kvraw rfl rfl).mpr safe
  exact ⟨start, replies, db, db'', opened, run, again, same⟩

/-- The records of two inserted keys of one hash. -/
def collidingRecs : List Rec :=
  [⟨collidingKeys.1.1, [1], 0⟩, ⟨collidingKeys.2.1, [2], dummy.size⟩]

def collidingOps : List Op :=
  [.insert collidingKeys.1 ⟨[1], by decide⟩, .insert collidingKeys.2 ⟨[2], by decide⟩]

/-- Two inserted keys of one hash count as one item after the restore. -/
theorem kvdbRestore_collision :
    ∃ start replies db db', kvdbOpen idealLogfs [] = .ok (some start) ∧
      Kvdb.run idealLogfs loadTest start collidingOps = .ok (replies, db) ∧
      db.kvraw.logfs = logBytes (dummy :: collidingRecs) ∧
      kvdbRestore loadTest db.kvraw (visits collidingRecs) = .ok db' ∧
      kvdbSize db = 2 ∧ kvdbSize db' = 1 ∧ ¬ db.Equivalent idealLogfs db' := by
  have sizes : sizesAround collidingOps collidingRecs =
      some (logBytes (dummy :: collidingRecs), 2, 1) := by decide +kernel
  obtain ⟨start, replies, db, db', opened, run, log, restored, before, after⟩ := sizesAround_run sizes
  refine ⟨start, replies, db, db', opened, run, log, restored, before, after, fun same => ?_⟩
  have size := same.size
  rw [before, after] at size
  exact absurd size (by decide)

end OsProjects.KeyValue
