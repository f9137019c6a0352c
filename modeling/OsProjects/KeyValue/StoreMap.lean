import OsProjects.KeyValue.Mutation

/-!
# The store as a finite map

`KvMap` is what the store is for: a finite map from byte strings to byte strings, with
the number of overwritten and of removed values. Every run of the store from
`kvdb_open` answers as this map does and keeps its two counters, unless the index runs
into its `EXIT`. Keys that share a hash are covered: nothing is assumed of the hash.
-/
namespace OsProjects.KeyValue
open OsProjects.Library

/-- A key that the assertions of every operation admit. -/
abbrev Key := { key : Bytes // keyLenOk key }

/-- A value that the assertions of every storing operation admit. -/
abbrev Value := { val : Bytes // valLenOk val }

/-- The buffer of a lookup: NULL or a region that holds at least `cap` bytes. -/
structure LookupBuf where
  val : Option Bytes
  cap : Nat
  fits : cap ≤ (val.getD []).length

/-- The buffer of a removal that asks for the old value. -/
structure RemoveBuf where
  val : Bytes
  cap : Nat
  fits : cap ≤ val.length

inductive Op where
  | insert (key : Key) (val : Value)
  | update (key : Key) (val : Value)
  | replace (key : Key) (val : Value)
  | remove (key : Key) (out : Option RemoveBuf)
  | lookup (key : Key) (out : LookupBuf)

structure KvMap where
  live : Finset Bytes
  value : Bytes → Bytes
  overwrites : Nat
  removals : Nat

def KvMap.empty : KvMap := ⟨∅, fun _ => [], 0, 0⟩

def KvMap.put (m : KvMap) (key val : Bytes) : KvMap :=
  { m with live := insert key m.live, value := Function.update m.value key val }

/-- The effect of an operation on the map. -/
def KvMap.step (m : KvMap) : Op → KvMap
  | .insert key val => if key.1 ∈ m.live then m else m.put key.1 val.1
  | .update key val =>
    if key.1 ∈ m.live then { m.put key.1 val.1 with overwrites := m.overwrites + 1 }
    else m.put key.1 val.1
  | .replace key val =>
    if key.1 ∈ m.live then { m.put key.1 val.1 with overwrites := m.overwrites + 1 } else m
  | .remove key _ =>
    if key.1 ∈ m.live then { m with live := m.live.erase key.1, removals := m.removals + 1 } else m
  | .lookup _ _ => m

def KvMap.run (m : KvMap) (ops : List Op) : KvMap := ops.foldl KvMap.step m

/-- The reply that the map gives to an operation. -/
def KvMap.Agrees (m : KvMap) : Op → Reply → Prop
  | .insert key _, r => r.rv = if key.1 ∈ m.live then 1 else 0
  | .update _ _, r => r.rv = 0
  | .replace key _, r => r.rv = if key.1 ∈ m.live then 0 else 1
  | .remove key out, r =>
    r.rv = (if key.1 ∈ m.live then 0 else 1) ∧
      ∀ buf, out = some buf → key.1 ∈ m.live → r.Delivers buf.cap (m.value key.1)
  | .lookup key out, r =>
    if key.1 ∈ m.live then r.Delivers out.cap (m.value key.1) else r.rv = 1

def KvMap.AgreesAll : KvMap → List Op → List Reply → Prop
  | _, [], [] => True
  | m, op :: ops, r :: rs => m.Agrees op r ∧ (m.step op).AgreesAll ops rs
  | _, _, _ => False

/-- The bytes an operation adds to the log. -/
def KvMap.logged (m : KvMap) : Op → Nat
  | .insert key val => if key.1 ∈ m.live then 0 else metaLen + key.1.length + val.1.length
  | .update key val => metaLen + key.1.length + val.1.length
  | .replace key val => if key.1 ∈ m.live then metaLen + key.1.length + val.1.length else 0
  | .remove key _ => if key.1 ∈ m.live then metaLen + key.1.length else 0
  | .lookup _ _ => 0

def KvMap.loggedAll : KvMap → List Op → Nat
  | _, [] => 0
  | m, op :: ops => m.logged op + (m.step op).loggedAll ops

section
variable {σ : Type} (fs : LogfsOps σ) (overload : Nat → Nat → Bool)

def Kvdb.step (db : Kvdb σ) : Op → Except Fault (Reply × Kvdb σ)
  | .insert key val => kvdbInsert fs overload db key.1 val.1
  | .update key val => kvdbUpdate fs overload db key.1 val.1
  | .replace key val => kvdbReplace fs overload db key.1 val.1
  | .remove key none => kvdbRemove fs overload db key.1 none none
  | .remove key (some out) => kvdbRemove fs overload db key.1 (some out.val) (some out.cap)
  | .lookup key out => kvdbLookup fs db key.1 out.val (some out.cap)

def Kvdb.run (db : Kvdb σ) : List Op → Except Fault (List Reply × Kvdb σ)
  | [] => .ok ([], db)
  | op :: ops =>
    match Kvdb.step fs overload db op with
    | .error e => .error e
    | .ok (r, db) =>
      match Kvdb.run db ops with
      | .error e => .error e
      | .ok (rs, db) => .ok (r :: rs, db)

end

/-- A store whose log denotes the map. -/
structure Kvdb.Rep {σ : Type} (contents : σ → Bytes) (db : Kvdb σ) (rs : List Rec) (m : KvMap) :
    Prop where
  log : db.Log contents rs
  value : ∀ k, latest k (history rs) = if k ∈ m.live then m.value k else []
  nonempty : ∀ k ∈ m.live, m.value k ≠ []
  size : db.size = UInt64.ofNat m.live.card
  waste : db.waste = UInt64.ofNat (m.overwrites + m.removals)
  created : m.live.card + tally removes (history rs) = tally creates (history rs)
  wasted : m.overwrites + m.removals = tally removes (history rs) + tally overwrites (history rs)

theorem KvMap.value_put {m : KvMap} {k val : Bytes} (key : Bytes) :
    (if k ∈ (m.put key val).live then (m.put key val).value k else []) =
      if key = k then val else if k ∈ m.live then m.value k else [] := by
  by_cases same : k = key
  · subst same
    simp [KvMap.put]
  · simp [KvMap.put, same, Ne.symm same]

section
variable {σ : Type} {fs : LogfsOps σ} {contents : σ → Bytes} {overload : Nat → Nat → Bool}
variable {db : Kvdb σ} {rs : List Rec} {m : KvMap}

theorem Kvdb.Rep.live_iff (h : db.Rep contents rs m) (k : Bytes) :
    latest k (history rs) = [] ↔ k ∉ m.live := by
  rw [h.value]
  split_ifs with live
  · simpa [live] using h.nonempty k live
  · simp [live]

theorem Kvdb.Rep.of_live (h : db.Rep contents rs m) {k : Bytes} (live : k ∈ m.live) :
    latest k (history rs) = m.value k := by
  rw [h.value, if_pos live]

theorem Kvdb.Rep.latest_ne (h : db.Rep contents rs m) {k : Bytes} (live : k ∈ m.live) :
    latest k (history rs) ≠ [] :=
  fun e => (h.live_iff k).mp e live

section
variable {db' : Kvdb σ} {k v : Bytes} {prev : Nat}

/-- A value stored under a key that was not live. -/
theorem Kvdb.Rep.put_new (h : db.Rep contents rs m) (dead : k ∉ m.live) (val_ne : v ≠ [])
    (log : db'.Log contents (rs ++ [⟨k, v, prev⟩])) (size : db'.size = db.size + 1)
    (waste : db'.waste = db.waste) : db'.Rep contents (rs ++ [⟨k, v, prev⟩]) (m.put k v) where
  log := log
  value x := by rw [latest_snoc, h.value, KvMap.value_put]
  nonempty x live := by
    by_cases same : x = k
    · simpa [KvMap.put, same] using val_ne
    · simpa [KvMap.put, same] using h.nonempty x (by simpa [KvMap.put, same] using live)
  size := by
    rw [size, h.size]
    simp [KvMap.put, Finset.card_insert_of_notMem dead]
  waste := by rw [waste, h.waste]; rfl
  created := by
    have := h.created
    simp [KvMap.put, Finset.card_insert_of_notMem dead, history_snoc, tally, removes, creates,
      val_ne, (h.live_iff k).mpr dead]
    omega
  wasted := by
    simpa [KvMap.put, history_snoc, tally, removes, KeyValue.overwrites, val_ne,
      (h.live_iff k).mpr dead] using h.wasted

/-- A value stored over a live one. -/
theorem Kvdb.Rep.put_over (h : db.Rep contents rs m) (live : k ∈ m.live) (val_ne : v ≠ [])
    (log : db'.Log contents (rs ++ [⟨k, v, prev⟩])) (size : db'.size = db.size)
    (waste : db'.waste = db.waste + 1) :
    db'.Rep contents (rs ++ [⟨k, v, prev⟩]) { m.put k v with overwrites := m.overwrites + 1 } where
  log := log
  value x := by
    rw [latest_snoc, h.value]
    exact (KvMap.value_put k).symm
  nonempty x live' := by
    by_cases same : x = k
    · simpa [KvMap.put, same] using val_ne
    · simpa [KvMap.put, same] using h.nonempty x (by simpa [KvMap.put, same] using live')
  size := by
    rw [size, h.size]
    simp [KvMap.put, Finset.insert_eq_of_mem live]
  waste := by
    have total : m.overwrites + 1 + (m.put k v).removals = m.overwrites + m.removals + 1 := by
      simp only [KvMap.put]
      omega
    simp only [waste, h.waste, total, UInt64.ofNat_add, UInt64.reduceOfNat]
  created := by
    simpa [KvMap.put, Finset.insert_eq_of_mem live, history_snoc, tally, removes, creates, val_ne,
      h.latest_ne live] using h.created
  wasted := by
    have := h.wasted
    simp [KvMap.put, history_snoc, tally, removes, KeyValue.overwrites, val_ne, h.latest_ne live]
    omega

/-- A tombstone stored over a live value. -/
theorem Kvdb.Rep.erase (h : db.Rep contents rs m) (live : k ∈ m.live)
    (log : db'.Log contents (rs ++ [⟨k, [], prev⟩])) (size : db'.size = db.size - 1)
    (waste : db'.waste = db.waste + 1) :
    db'.Rep contents (rs ++ [⟨k, [], prev⟩])
      { m with live := m.live.erase k, removals := m.removals + 1 } where
  log := log
  value x := by
    rw [latest_snoc, h.value]
    by_cases same : x = k
    · simp [same]
    · simp [same, Ne.symm same]
  nonempty x live' := h.nonempty x (Finset.mem_of_mem_erase live')
  size := by
    have pos := Finset.card_pos.mpr ⟨_, live⟩
    have split : m.live.card = (m.live.erase k).card + 1 := by
      rw [Finset.card_erase_of_mem live]
      omega
    rw [size, h.size, split, UInt64.ofNat_add]
    simp
  waste := by
    have total : m.overwrites + (m.removals + 1) = m.overwrites + m.removals + 1 := by omega
    simp only [waste, h.waste, total, UInt64.ofNat_add, UInt64.reduceOfNat]
  created := by
    have := h.created
    have pos := Finset.card_pos.mpr ⟨_, live⟩
    simp [Finset.card_erase_of_mem live, history_snoc, tally, removes, creates]
    omega
  wasted := by
    have := h.wasted
    simp [history_snoc, tally, removes, KeyValue.overwrites]
    omega

end

/-- The result of one operation on the store and on the map. -/
def Kvdb.Follows (contents : σ → Bytes) (rs : List Rec) (m : KvMap) (op : Op)
    (result : Except Fault (Reply × Kvdb σ)) : Prop :=
  result = .error .exitSoftware ∨
    ∃ r db' rs', result = .ok (r, db') ∧ m.Agrees op r ∧ db'.Rep contents rs' (m.step op) ∧
      logSize rs' = logSize rs + m.logged op

/-- The state in which `mutate` leaves the store before it appends. -/
theorem Kvdb.Rep.located (h : db.Rep contents rs m) (kvraw : Kvraw σ) (index : Index)
    (log : Kvdb.Log contents { db with kvraw := kvraw, index := index } rs) :
    Kvdb.Rep contents { db with kvraw := kvraw, index := index } rs m :=
  ⟨log, h.value, h.nonempty, h.size, h.waste, h.created, h.wasted⟩

theorem Kvdb.Log.counters (log : db.Log contents rs) (size waste : UInt64) :
    Kvdb.Log contents { db with size := size, waste := waste } rs :=
  ⟨log.holds, log.slots, log.linked⟩

theorem Value.ne_nil (val : Value) : val.1 ≠ [] :=
  fun e => val.2.1 (by simp [e])

theorem kvdbInsert_follows (honours : fs.Honours contents) (h : db.Rep contents rs m) (key : Key)
    (val : Value) (small : logSize (dummy :: rs) + m.logged (.insert key val) < 2 ^ 64) :
    Kvdb.Follows contents rs m (.insert key val) (kvdbInsert fs overload db key.1 val.1) := by
  rw [kvdbInsert, if_neg (not_not.mpr key.2), if_neg (not_not.mpr val.2)]
  rcases mutate_start overload honours h.log key.2 (some val.1) (some val.1.length) .insert
    (by simp) with
    stop | ⟨ref, index, kvraw, c, cap, val_, run, log, held, dead, same, _⟩
  · exact Or.inl stop
  · obtain rfl := same (by simp)
    have rep := h.located kvraw index log
    rw [rep.live_iff] at dead
    simp only [run, mutateFound, Option.getD_some, List.take_length]
    by_cases live : key.1 ∈ m.live
    · have test : c.off ≠ 0 ∧ c.valLen ≠ 0 := by
        rw [← not_or, dead]
        simpa using live
      rw [if_pos test]
      refine Or.inr ⟨_, _, rs, rfl, by simp [KvMap.Agrees, live], ?_, by simp [KvMap.logged, live]⟩
      simpa [KvMap.step, live] using rep
    · have test : ¬ (c.off ≠ 0 ∧ c.valLen ≠ 0) := by
        rw [← not_or, not_not, dead]
        exact live
      rw [KvMap.logged, if_neg live] at small
      obtain ⟨db', prev, ok, log', size, waste⟩ := log.append honours val.1 held key.2 val.2.2 small
      simp only [if_neg test, ok]
      refine Or.inr ⟨_, _, rs ++ [⟨key.1, val.1, prev⟩], rfl, by simp [KvMap.Agrees, live], ?_,
        by simp [KvMap.logged, live, Rec.size]⟩
      simpa [KvMap.step, live] using rep.put_new live val.ne_nil
        (log'.counters (db'.size + 1) db'.waste) (by simp [size]) waste

theorem kvdbReplace_follows (honours : fs.Honours contents) (h : db.Rep contents rs m) (key : Key)
    (val : Value) (small : logSize (dummy :: rs) + m.logged (.replace key val) < 2 ^ 64) :
    Kvdb.Follows contents rs m (.replace key val) (kvdbReplace fs overload db key.1 val.1) := by
  rw [kvdbReplace, if_neg (not_not.mpr key.2), if_neg (not_not.mpr val.2)]
  rcases mutate_start overload honours h.log key.2 (some val.1) (some val.1.length) .replace
    (by simp) with
    stop | ⟨ref, index, kvraw, c, cap, val_, run, log, held, dead, same, _⟩
  · exact Or.inl stop
  · obtain rfl := same (by simp)
    have rep := h.located kvraw index log
    rw [rep.live_iff] at dead
    simp only [run, mutateFound, Option.getD_some, List.take_length, dead]
    by_cases live : key.1 ∈ m.live
    · rw [KvMap.logged, if_pos live] at small
      obtain ⟨db', prev, ok, log', size, waste⟩ := log.append honours val.1 held key.2 val.2.2 small
      simp only [live, not_true_eq_false, if_false, ok]
      refine Or.inr ⟨_, _, rs ++ [⟨key.1, val.1, prev⟩], rfl, by simp [KvMap.Agrees, live], ?_,
        by simp [KvMap.logged, live, Rec.size]⟩
      simpa [KvMap.step, live] using rep.put_over live val.ne_nil
        (log'.counters db'.size (db'.waste + 1)) size (by simp [waste])
    · simp only [live, not_false_eq_true, if_true]
      refine Or.inr ⟨_, _, rs, rfl, by simp [KvMap.Agrees, live], ?_, by simp [KvMap.logged, live]⟩
      simpa [KvMap.step, live] using rep

theorem kvdbUpdate_follows (honours : fs.Honours contents) (h : db.Rep contents rs m) (key : Key)
    (val : Value) (small : logSize (dummy :: rs) + m.logged (.update key val) < 2 ^ 64) :
    Kvdb.Follows contents rs m (.update key val) (kvdbUpdate fs overload db key.1 val.1) := by
  rw [kvdbUpdate, if_neg (not_not.mpr key.2), if_neg (not_not.mpr val.2)]
  rcases mutate_start overload honours h.log key.2 (some val.1) (some val.1.length) .update
    (by simp) with
    stop | ⟨ref, index, kvraw, c, cap, val_, run, log, held, dead, same, _⟩
  · exact Or.inl stop
  · obtain rfl := same (by simp)
    have rep := h.located kvraw index log
    rw [rep.live_iff] at dead
    simp only [run, mutateFound, Option.getD_some, List.take_length, dead]
    by_cases live : key.1 ∈ m.live
    · obtain ⟨db', prev, ok, log', size, waste⟩ :=
        (log.counters db.size (db.waste + 1)).append honours val.1 held key.2 val.2.2 small
      simp only [live, not_true_eq_false, if_false, ok]
      refine Or.inr ⟨_, _, rs ++ [⟨key.1, val.1, prev⟩], rfl, by simp [KvMap.Agrees], ?_,
        by simp [KvMap.logged, Rec.size]⟩
      simpa [KvMap.step, live] using rep.put_over live val.ne_nil log' size waste
    · obtain ⟨db', prev, ok, log', size, waste⟩ :=
        (log.counters (db.size + 1) db.waste).append honours val.1 held key.2 val.2.2 small
      simp only [live, not_false_eq_true, if_true, ok]
      refine Or.inr ⟨_, _, rs ++ [⟨key.1, val.1, prev⟩], rfl, by simp [KvMap.Agrees], ?_,
        by simp [KvMap.logged, Rec.size]⟩
      simpa [KvMap.step, live] using rep.put_new live val.ne_nil log' size waste

/-- The arguments `val` and `val_len` of a removal. -/
def RemoveBuf.args : Option RemoveBuf → Option Bytes × Option Nat
  | none => (none, none)
  | some out => (some out.val, some out.cap)

theorem kvdbRemove_follows (honours : fs.Honours contents) (h : db.Rep contents rs m) (key : Key)
    (out : Option RemoveBuf) (small : logSize (dummy :: rs) + m.logged (.remove key out) < 2 ^ 64) :
    Kvdb.Follows contents rs m (.remove key out)
      (kvdbRemove fs overload db key.1 (RemoveBuf.args out).1 (RemoveBuf.args out).2) := by
  have buffer : ¬ ((RemoveBuf.args out).2 = some 0 ∧ (RemoveBuf.args out).1 = none) := by
    cases out <;> simp [RemoveBuf.args]
  have fits : (RemoveBuf.args out).2.getD 0 ≤ ((RemoveBuf.args out).1.getD []).length := by
    cases out with
    | none => simp [RemoveBuf.args]
    | some out => simpa [RemoveBuf.args] using out.fits
  rw [kvdbRemove, if_neg (not_not.mpr key.2), if_neg buffer]
  rcases mutate_start overload honours h.log key.2 _ _ .remove
    (fun _ => fits) with stop | ⟨ref, index, kvraw, c, cap, val_, run, log, held, dead, _, read⟩
  · exact Or.inl stop
  · have rep := h.located kvraw index log
    rw [rep.live_iff] at dead
    simp only [run, mutateFound, dead]
    by_cases live : key.1 ∈ m.live
    · rw [KvMap.logged, if_pos live] at small
      obtain ⟨db', prev, ok, log', size, waste⟩ :=
        log.append honours [] held key.2 (by simp) (by simpa using small)
      simp only [live, not_true_eq_false, if_false, ok]
      refine Or.inr ⟨_, _, rs ++ [⟨key.1, [], prev⟩], rfl, ⟨by simp [live], ?_⟩, ?_,
        by simp [KvMap.logged, live, Rec.size]⟩
      · rintro buf rfl _
        obtain ⟨rfl, rfl, reports⟩ := read rfl buf.cap rfl
        obtain ⟨len, copied⟩ := reports.of_live (rep.latest_ne live)
        rw [rep.of_live live] at len copied
        exact ⟨rfl, by simp [RemoveBuf.args, len], copied⟩
      · simpa [KvMap.step, live] using rep.erase live
          (log'.counters (db'.size - 1) (db'.waste + 1)) (by simp [size]) (by simp [waste])
    · simp only [live, not_false_eq_true, if_true]
      refine Or.inr ⟨_, _, rs, rfl, ⟨by simp [live], fun _ _ l => absurd l live⟩, ?_,
        by simp [KvMap.logged, live]⟩
      simpa [KvMap.step, live] using rep

theorem kvdbLookup_follows (honours : fs.Honours contents) (h : db.Rep contents rs m) (key : Key)
    (out : LookupBuf) :
    Kvdb.Follows contents rs m (.lookup key out)
      (kvdbLookup fs db key.1 out.val (some out.cap)) := by
  obtain ⟨r, kvraw, ok, holds, found⟩ := kvdbLookup_spec honours h.log.holds h.log.linked
    h.log.slots key.2 out.fits (Or.inr rfl)
  have log : Kvdb.Log contents { db with kvraw := kvraw } rs := ⟨holds, h.log.slots, h.log.linked⟩
  refine Or.inr ⟨r, _, rs, ok, ?_, h.located kvraw db.index log, by simp [KvMap.logged]⟩
  have empty : headOff (classOf (indexKey key.1) (history rs)) = 0 → latest key.1 (history rs) = [] :=
    latest_of_headOff
  rw [ite_eq_right_iff.mpr fun zero => (empty zero).symm, h.value] at found
  by_cases live : key.1 ∈ m.live
  · simpa [KvMap.Agrees, live, Reply.Finds, h.nonempty _ live] using found
  · simpa [KvMap.Agrees, live, Reply.Finds] using found

/-- Every operation either runs into the `EXIT` of the index or follows the map. -/
theorem Kvdb.step_follows (overload : Nat → Nat → Bool) (honours : fs.Honours contents)
    (h : db.Rep contents rs m) (op : Op)
    (small : logSize (dummy :: rs) + m.logged op < 2 ^ 64) :
    Kvdb.Follows contents rs m op (Kvdb.step fs overload db op) := by
  cases op with
  | insert key val => exact kvdbInsert_follows honours h key val small
  | update key val => exact kvdbUpdate_follows honours h key val small
  | replace key val => exact kvdbReplace_follows honours h key val small
  | remove key out =>
    cases out with
    | none => exact kvdbRemove_follows honours h key none small
    | some out => exact kvdbRemove_follows honours h key (some out) small
  | lookup key out => exact kvdbLookup_follows honours h key out

/-- A run of operations keeps the store a representation of the map. -/
theorem Kvdb.run_follows (overload : Nat → Nat → Bool) (honours : fs.Honours contents) (ops : List Op)
    (h : db.Rep contents rs m) (small : logSize (dummy :: rs) + m.loggedAll ops < 2 ^ 64) :
    Kvdb.run fs overload db ops = .error .exitSoftware ∨
      ∃ replies db' rs', Kvdb.run fs overload db ops = .ok (replies, db') ∧
        m.AgreesAll ops replies ∧ db'.Rep contents rs' (m.run ops) ∧
        logSize rs' = logSize rs + m.loggedAll ops := by
  induction ops generalizing db rs m with
  | nil => exact Or.inr ⟨[], db, rs, rfl, trivial, h, rfl⟩
  | cons op ops ih =>
    simp only [KvMap.loggedAll] at small ⊢
    rcases Kvdb.step_follows overload honours h op (by omega) with
      stop | ⟨r, db₁, rs₁, ok, agrees, rep, grown⟩
    · exact Or.inl (by simp [Kvdb.run, stop])
    · have small₁ : logSize (dummy :: rs₁) + (m.step op).loggedAll ops < 2 ^ 64 := by
        simp only [logSize_cons] at small ⊢
        omega
      rcases ih rep small₁ with stop | ⟨replies, db', rs', run, rest, rep', grown'⟩
      · exact Or.inl (by simp [Kvdb.run, ok, stop])
      · exact Or.inr ⟨r :: replies, db', rs', by simp [Kvdb.run, ok, run], ⟨agrees, rest⟩, rep',
          by omega⟩

/-- A store from `kvdb_open` represents the empty map. -/
theorem kvdbOpen_spec (honours : fs.Honours contents) {logfs : σ} (fresh : contents logfs = []) :
    ∃ db, kvdbOpen fs logfs = .ok (some db) ∧ db.Rep contents [] KvMap.empty := by
  obtain ⟨kvraw, ok, holds⟩ := kvrawOpen_spec honours fresh
  refine ⟨⟨0, 0, kvraw, indexOpen⟩, by simp [kvdbOpen, ok], ⟨holds, ?_, ?_⟩, ?_, ?_, ?_, ?_, rfl,
    rfl⟩
  · simpa [classOf, headOff] using Index.Slots.open_
  · simp [classOf, Linked]
  · simp [KvMap.empty, latest, newest]
  · simp [KvMap.empty]
  · simp [KvMap.empty]
  · simp [KvMap.empty]

theorem Kvdb.Rep.counts (h : db.Rep contents rs m) :
    (kvdbSize db).toNat = m.live.card ∧ (kvdbWaste db).toNat = m.overwrites + m.removals := by
  have records := length_le_logSize (dummy :: rs)
  have small := h.log.holds.small
  have created := h.created
  have wasted := h.wasted
  have total := tally_total (history rs)
  rw [length_history] at total
  have width : UInt64.size = 2 ^ 64 := rfl
  simp only [List.length_cons] at records
  rw [kvdbSize, kvdbWaste, h.size, h.waste]
  exact ⟨UInt64.toNat_ofNat_of_lt' (by omega), UInt64.toNat_ofNat_of_lt' (by omega)⟩

end

/-- The store is a finite map: a run from `kvdb_open` that does not stop in the `EXIT` of the
index answers every operation as the map does and counts its live keys, its overwrites and
its removals. -/
theorem kvdb_refines_map {σ : Type} (fs : LogfsOps σ) (contents : σ → Bytes)
    (overload : Nat → Nat → Bool) (honours : fs.Honours contents) (logfs : σ)
    (fresh : contents logfs = []) (ops : List Op)
    (small : dummy.size + KvMap.empty.loggedAll ops < 2 ^ 64) :
    ∃ db, kvdbOpen fs logfs = .ok (some db) ∧
      (Kvdb.run fs overload db ops = .error .exitSoftware ∨
        ∃ replies db', Kvdb.run fs overload db ops = .ok (replies, db') ∧
          KvMap.empty.AgreesAll ops replies ∧
          (kvdbSize db').toNat = (KvMap.empty.run ops).live.card ∧
          (kvdbWaste db').toNat =
            (KvMap.empty.run ops).overwrites + (KvMap.empty.run ops).removals) := by
  obtain ⟨db, opened, rep⟩ := kvdbOpen_spec honours fresh
  refine ⟨db, opened, ?_⟩
  rcases Kvdb.run_follows overload honours ops rep (by simpa using small) with
    stop | ⟨replies, db', rs', run, agrees, rep', _⟩
  · exact Or.inl stop
  · exact Or.inr ⟨replies, db', run, agrees, rep'.counts⟩

/-- `LOAD` exceeded, in integers. -/
def loadTest (size capacity : Nat) : Bool := 7 * capacity < 10 * size

theorem kvdb_refines_map_ideal :
    let key : Key := ⟨[7], by decide⟩
    let ops : List Op := [.insert key ⟨[1, 2], by decide⟩, .insert key ⟨[3], by decide⟩,
      .update key ⟨[4, 5, 6], by decide⟩, .remove key none]
    ∃ db, kvdbOpen idealLogfs [] = .ok (some db) ∧
      (Kvdb.run idealLogfs loadTest db ops =
          .error .exitSoftware ∨
        ∃ replies db', Kvdb.run idealLogfs loadTest db ops =
            .ok (replies, db') ∧
          KvMap.empty.AgreesAll ops replies ∧
          (kvdbSize db').toNat = (KvMap.empty.run ops).live.card ∧
          (kvdbWaste db').toNat =
            (KvMap.empty.run ops).overwrites + (KvMap.empty.run ops).removals) :=
  kvdb_refines_map idealLogfs id loadTest idealLogfs_honours
    [] rfl _ (by decide)

end OsProjects.KeyValue
