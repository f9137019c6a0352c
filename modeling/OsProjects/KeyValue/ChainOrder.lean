import OsProjects.KeyValue.ChainScan
import OsProjects.KeyValue.Replay

/-!
# The order of the chains, across restores

A live store moves the slot of a hash to each record it appends, tombstones included; a
restore sets it to 0 at a tombstone. In both the slot is 0 or the offset of the newest
record of the hash, so that the previous offset a record takes from the slot leads to an
earlier record of its hash. This holds in every state that operations and restores reach,
and the walk of `chain_lookup`, which has no bound of its own, ends because of it.
-/
namespace OsProjects.KeyValue
open OsProjects.Library

/-- A call of the store, whatever the arguments. -/
inductive KvdbCall where
  | insert (key val : Bytes)
  | update (key val : Bytes)
  | replace (key val : Bytes)
  | remove (key : Bytes) (val : Option Bytes) (valLen : Option Nat)
  | lookup (key : Bytes) (val : Option Bytes) (valLen : Option Nat)

section
variable {σ : Type} (fs : LogfsOps σ) (contents : σ → Bytes) (overload : Nat → Nat → Bool)

def Kvdb.call (db : Kvdb σ) : KvdbCall → Except Fault (Reply × Kvdb σ)
  | .insert key val => kvdbInsert fs overload db key val
  | .update key val => kvdbUpdate fs overload db key val
  | .replace key val => kvdbReplace fs overload db key val
  | .remove key val valLen => kvdbRemove fs overload db key val valLen
  | .lookup key val valLen => kvdbLookup fs db key val valLen

/-- The stores of a program that opens one, calls it, and now and then closes it and opens it with
restore. The new handle has the log that was left, and the visitor yields its records. Offsets are
64 bits wide, so the log stays below `2 ^ 64`. -/
inductive Kvdb.Arises : Kvdb σ → Prop
  | opened {logfs : σ} {db : Kvdb σ} (fresh : contents logfs = [])
      (ok : kvdbOpen fs logfs = .ok (some db)) : Arises db
  | called {db db' : Kvdb σ} {c : KvdbCall} {r : Reply} (before : Arises db)
      (ok : db.call fs overload c = .ok (r, db'))
      (small : (contents db'.kvraw.logfs).length < 2 ^ 64) : Arises db'
  | restored {db db' : Kvdb σ} {kvraw : Kvraw σ} {rs : List Rec} (before : Arises db)
      (left : contents kvraw.logfs = contents db.kvraw.logfs)
      (size : kvraw.size = (contents kvraw.logfs).length)
      (fits : ∀ r ∈ rs, r.Fits) (log : contents kvraw.logfs = logBytes (dummy :: rs))
      (ok : kvdbRestore overload kvraw (visits rs) = .ok db') : Arises db'

end

/-- Every previous offset is 0 or that of a record before whose key has the same index key. -/
def HashLinked (rs : List Rec) : Prop :=
  Steps (fun before r => r.prev = 0 ∨
    ∃ r', Stored before r.prev r' ∧ indexKey r'.key = indexKey r.key) rs

/-- The last record of the index key `k` starts at `off`. -/
def NewestAt (rs : List Rec) (k off : Nat) : Prop :=
  ∃ before r after, rs = before ++ r :: after ∧ logSize before = off ∧ indexKey r.key = k ∧
    ∀ r' ∈ after, indexKey r'.key ≠ k

theorem HashLinked.chained {rs : List Rec} (h : HashLinked rs) : Chained rs :=
  h.imp fun _ _ link => link.imp_right fun ⟨r', stored, _⟩ => ⟨r', stored⟩

theorem NewestAt.last (rs : List Rec) (r : Rec) :
    NewestAt (rs ++ [r]) (indexKey r.key) (logSize rs) :=
  ⟨rs, r, [], rfl, rfl, rfl, by simp⟩

theorem NewestAt.snoc {rs : List Rec} {k off : Nat} (h : NewestAt rs k off) {r : Rec}
    (other : indexKey r.key ≠ k) : NewestAt (rs ++ [r]) k off := by
  obtain ⟨before, r₀, after, rfl, start, same, last⟩ := h
  refine ⟨before, r₀, after ++ [r], by simp, start, same, fun r' mem => ?_⟩
  rcases List.mem_append.mp mem with old | new
  · exact last r' old
  · obtain rfl := List.mem_singleton.mp new
    exact other

theorem NewestAt.stored {rs : List Rec} {k off : Nat} (h : NewestAt rs k off) :
    ∃ r, Stored rs off r ∧ indexKey r.key = k := by
  obtain ⟨before, r, after, split, start, same, _⟩ := h
  exact ⟨r, ⟨before, after, split, start⟩, same⟩

/-- The slot a hash has after a record: 0 or the offset of the record for its own hash, what it was
for the others. -/
theorem newest_update {rs : List Rec} {slot : Nat → Nat}
    (h : ∀ k, slot k = 0 ∨ NewestAt rs k (slot k)) {r : Rec} {off : Nat}
    (here : off = 0 ∨ off = logSize rs) (k : Nat) :
    Function.update slot (indexKey r.key) off k = 0 ∨
      NewestAt (rs ++ [r]) k (Function.update slot (indexKey r.key) off k) := by
  by_cases same : k = indexKey r.key
  · subst same
    rw [Function.update_self]
    obtain zero | rfl := here
    · exact Or.inl zero
    · exact Or.inr (NewestAt.last rs r)
  · rw [Function.update_of_ne same]
    exact (h k).imp_right fun newest => newest.snoc (Ne.symm same)

theorem replaySlot_newest (rs : List Rec) (k : Nat) :
    replaySlot (history rs) k = 0 ∨ NewestAt (dummy :: rs) k (replaySlot (history rs) k) := by
  induction rs using List.reverseRecOn generalizing k with
  | nil => exact Or.inl (by simp [replaySlot, hashLive, classOf])
  | append_singleton rs r ih =>
    rw [history_snoc, replaySlot_cons]
    apply newest_update ih
    grind

/-- The records of a chain have the index key of its start. -/
theorem chainFrom_indexKey {rs : List Rec} (linked : HashLinked rs) {off k : Nat}
    (start : off = 0 ∨ ∃ r, Stored rs off r ∧ indexKey r.key = k) :
    ∀ e ∈ chainFrom rs off, indexKey e.2.key = k := by
  induction rs using List.reverseRecOn generalizing off with
  | nil => simp [chainFrom, entriesFrom, chainIn]
  | append_singleton rs r ih =>
    obtain ⟨linked, prev⟩ := steps_append.mp linked
    rw [chainFrom_snoc]
    split_ifs with here
    · obtain ⟨ne, rfl⟩ := here
      have last : indexKey r.key = k := by
        obtain zero | ⟨r₀, stored, same⟩ := start
        · exact absurd zero ne
        · obtain old | ⟨_, rfl⟩ := stored_snoc.mp stored
          · have bound := old.bound
            have pos := r₀.size_pos
            omega
          · exact same
      refine List.forall_mem_cons.mpr ⟨last, ih linked ?_⟩
      rwa [last] at prev
    · apply ih linked
      obtain zero | ⟨r₀, stored, same⟩ := start
      · exact Or.inl zero
      · obtain old | ⟨rfl, _⟩ := stored_snoc.mp stored
        · exact Or.inr ⟨r₀, old, same⟩
        · grind

theorem IsChain.decreasing {rs : List Rec} {off : Nat} {es : List Entry} (h : IsChain rs off es) :
    (es.map Prod.fst).Pairwise (· > ·) := by
  rw [List.pairwise_map]
  refine h.backwards.imp fun {a b} apart => ?_
  have pos := b.2.size_pos
  omega

section
variable {σ : Type} {fs : LogfsOps σ} {contents : σ → Bytes} {overload : Nat → Nat → Bool}
  {db db' : Kvdb σ} {rs : List Rec}

/-- What operations and restores keep. -/
structure Kvdb.Ordered (contents : σ → Bytes) (db : Kvdb σ) (rs : List Rec) : Prop where
  holds : db.kvraw.Holds contents (dummy :: rs)
  slots : ∃ slot, db.index.Slots slot ∧ ∀ k, slot k = 0 ∨ NewestAt (dummy :: rs) k (slot k)
  linked : HashLinked (dummy :: rs)

/-- The walk from a slot of the store. -/
structure Kvraw.Walks (fs : LogfsOps σ) (contents : σ → Bytes) (kvraw : Kvraw σ) (rs : List Rec)
    (key : Bytes) (val : Option Bytes) (valLen off : Nat) : Prop where
  run : (valLen ≠ 0 → val ≠ none) → ∃ kvraw',
    chainLookup fs (kvraw.size + 1) kvraw key val valLen off =
      .ok (some (walk key valLen (chainFrom (dummy :: rs) off) val), kvraw') ∧
    kvraw'.Holds contents (dummy :: rs)
  bufferless : valLen ≠ 0 → val = none →
    chainLookup fs (kvraw.size + 1) kvraw key val valLen off =
      if off = 0 then .ok (some ⟨none, valLen, 0⟩, kvraw) else .error .assertion

theorem isChain_of_newest (linked : HashLinked rs) {k off : Nat}
    (slot : off = 0 ∨ NewestAt rs k off) : IsChain rs off (chainFrom rs off) :=
  chainFrom_isChain linked.chained (slot.imp_right fun newest =>
    newest.stored.imp fun _ stored => stored.1)

theorem chainLookup_walks (honours : fs.Honours contents) {kvraw : Kvraw σ}
    (holds : kvraw.Holds contents (dummy :: rs)) (linked : HashLinked (dummy :: rs)) {k off : Nat}
    (slot : off = 0 ∨ NewestAt (dummy :: rs) k off) (key : Bytes) (val : Option Bytes)
    (valLen : Nat) : Kvraw.Walks fs contents kvraw rs key val valLen off := by
  have chain := isChain_of_newest linked slot
  refine ⟨fun buffer => ?_, fun pos none_ => ?_⟩
  · have short : (chainFrom (dummy :: rs) off).length < kvraw.size + 1 := by
      have le := chain.length_le
      obtain rfl | newest := slot
      · omega
      · obtain ⟨r, stored, _⟩ := newest.stored
        have bound := stored.bound
        rw [holds.size]
        omega
    have run := chainLookup_walk honours key _ chain.stored chain.linked _ short holds val buffer
    rwa [chain.head] at run
  · subst none_
    exact chainLookup_bufferless fs kvraw.size kvraw key pos

/-- A walk that returns has a result, and the log is as before. -/
theorem Kvraw.Walks.ok {kvraw kvraw' : Kvraw σ} {key : Bytes} {val : Option Bytes}
    {valLen off : Nat} (h : Kvraw.Walks fs contents kvraw rs key val valLen off)
    (holds : kvraw.Holds contents (dummy :: rs)) {c : Option Chain}
    (ok : chainLookup fs (kvraw.size + 1) kvraw key val valLen off = .ok (c, kvraw')) :
    kvraw'.Holds contents (dummy :: rs) := by
  by_cases buffer : valLen ≠ 0 → val ≠ none
  · obtain ⟨next, run, kept⟩ := h.run buffer
    rw [run] at ok
    obtain ⟨_, rfl⟩ := Prod.mk.inj (Except.ok.inj ok)
    exact kept
  · obtain ⟨pos, none_⟩ : valLen ≠ 0 ∧ val = none := by grind
    rw [h.bufferless pos none_] at ok
    split_ifs at ok
    obtain ⟨_, rfl⟩ := Prod.mk.inj (Except.ok.inj ok)
    exact holds

theorem Kvraw.Walks.ne_hang {kvraw : Kvraw σ} {key : Bytes} {val : Option Bytes}
    {valLen off : Nat} (h : Kvraw.Walks fs contents kvraw rs key val valLen off) :
    chainLookup fs (kvraw.size + 1) kvraw key val valLen off ≠ .error .hang := by
  by_cases buffer : valLen ≠ 0 → val ≠ none
  · obtain ⟨next, run, _⟩ := h.run buffer
    simp [run]
  · obtain ⟨pos, none_⟩ : valLen ≠ 0 ∧ val = none := by grind
    rw [h.bufferless pos none_]
    split_ifs <;> simp

/-- The log after an append, whatever the handle. -/
theorem kvrawAppend_contents (honours : fs.Honours contents) {kvraw kvraw' : Kvraw σ}
    {r : Rec} {done : Option Nat}
    (ok : kvrawAppend fs kvraw r.key r.val r.prev = .ok (done, kvraw')) :
    keyLenOk r.key ∧ r.val.length ≤ 0xffffffff ∧
      contents kvraw'.logfs = contents kvraw.logfs ++ r.bytes := by
  unfold kvrawAppend at ok
  split_ifs at ok with key_bad val_bad
  have key_mod : r.key.length % 2 ^ 16 = r.key.length := Nat.mod_eq_of_lt (by omega)
  have val_mod : r.val.length % 2 ^ 32 = r.val.length := Nat.mod_eq_of_lt (by omega)
  simp only [honours.append_ok, ne_eq, not_true_eq_false, if_false, Except.ok.injEq,
    Prod.mk.injEq] at ok
  obtain ⟨_, rfl⟩ := ok
  refine ⟨⟨by omega, by omega⟩, by omega, ?_⟩
  simp only [honours.append_contents, key_mod, val_mod, List.take_length, Rec.bytes, Rec.header,
    List.append_assoc]

/-- An append through the slot of a hash links the record to the newest one of its hash, and the
slot moves to it. -/
theorem Kvdb.Ordered.append (honours : fs.Honours contents)
    (holds : db.kvraw.Holds contents (dummy :: rs)) (linked : HashLinked (dummy :: rs))
    {slot : Nat → Nat} (slots : db.index.Slots slot)
    (newest : ∀ k, slot k = 0 ∨ NewestAt (dummy :: rs) k (slot k)) {key data : Bytes} {ref : Nat}
    (held : db.index.maps ref = ⟨indexKey key, slot (indexKey key)⟩) {done : Bool}
    (ok : db.appendAt fs key data ref = .ok (done, db'))
    (small : (contents db'.kvraw.logfs).length < 2 ^ 64) : ∃ rs', db'.Ordered contents rs' := by
  unfold Kvdb.appendAt at ok
  set r : Rec := ⟨key, data, slot (indexKey key)⟩ with r_def
  rw [held] at ok
  cases append : kvrawAppend fs db.kvraw key data (slot (indexKey key)) with
  | error e => simp [append] at ok
  | ok result =>
    obtain ⟨off, kvraw⟩ := result
    obtain ⟨key_ok, val_le, log⟩ := kvrawAppend_contents (r := r) honours append
    have grown : contents db'.kvraw.logfs = contents db.kvraw.logfs ++ r.bytes := by
      cases off <;> simp only [append, Except.ok.injEq, Prod.mk.injEq] at ok <;>
        obtain ⟨_, rfl⟩ := ok <;> exact log
    have total : logSize (dummy :: rs) + r.size < 2 ^ 64 := by
      rw [grown, holds.bytes, List.length_append, length_logBytes, Rec.length_bytes] at small
      exact small
    have prev_lt : slot (indexKey key) < 2 ^ 64 := by
      obtain zero | here := newest (indexKey key)
      · omega
      · obtain ⟨r₀, stored, _⟩ := here.stored
        have bound := stored.bound
        omega
    obtain ⟨kvraw', added, holds'⟩ := kvrawAppend_spec honours holds key data _
      ⟨Nat.pos_of_ne_zero key_ok.1, key_ok.2, val_le, prev_lt⟩ total
    rw [added] at append
    obtain ⟨rfl, rfl⟩ := Prod.mk.inj (Except.ok.inj append)
    simp only [added, Except.ok.injEq, Prod.mk.injEq] at ok
    obtain ⟨_, rfl⟩ := ok
    refine ⟨rs ++ [r], holds', ⟨_, slots.store (indexKey_ne_zero key) held _, ?_⟩, ?_⟩
    · exact newest_update newest (r := r) (Or.inr rfl)
    · refine steps_append.mpr ⟨linked, ?_⟩
      exact (newest (indexKey key)).imp_right NewestAt.stored

/-- The store after an append through a slot, up to the counters. -/
def Kvdb.Grown (fs : LogfsOps σ) (db db' : Kvdb σ) (key : Bytes) (ref : Nat) : Prop :=
  ∃ (before after : Kvdb σ) (data : Bytes) (done : Bool), before.kvraw = db.kvraw ∧
    before.index = db.index ∧ before.appendAt fs key data ref = .ok (done, after) ∧
    db'.kvraw = after.kvraw ∧ db'.index = after.index

/-- What a mutation does after its walk: nothing, or an append through the slot. -/
theorem mutateFound_ok {key : Bytes} {val : Option Bytes} {valLen : Option Nat} {mode : Mode}
    {ref : Nat} {c : Chain} {r : Reply}
    (ok : mutateFound fs db key val valLen mode ref c = .ok (r, db')) :
    db'.kvraw = db.kvraw ∧ db'.index = db.index ∨ db.Grown fs db' key ref := by
  have idle : ∀ {reply : Reply}, (.ok (reply, db) : Except Fault _) = .ok (r, db') →
      db'.kvraw = db.kvraw ∧ db'.index = db.index := by
    rintro reply ⟨⟩
    exact ⟨rfl, rfl⟩
  have grown : ∀ {before after d : Kvdb σ} {data : Bytes} {done : Bool} {reply : Reply},
      before.kvraw = db.kvraw ∧ before.index = db.index →
      before.appendAt fs key data ref = .ok (done, after) →
      (.ok (reply, d) : Except Fault _) = .ok (r, db') →
      d.kvraw = after.kvraw ∧ d.index = after.index → db.Grown fs db' key ref := by
    rintro before after d data done reply ⟨kvraw, index⟩ run ⟨⟩ ⟨kvraw', index'⟩
    exact ⟨before, after, data, done, kvraw, index, run, kvraw', index'⟩
  unfold mutateFound at ok
  cases mode with
  | remove =>
    simp only at ok
    split_ifs at ok with dead
    · exact Or.inl (idle ok)
    · split at ok
      · cases ok
      · next run => exact Or.inr (grown ⟨rfl, rfl⟩ run ok ⟨rfl, rfl⟩)
      · next run => exact Or.inr (grown ⟨rfl, rfl⟩ run ok ⟨rfl, rfl⟩)
  | insert =>
    cases valLen with
    | none => cases ok
    | some len =>
      simp only at ok
      split_ifs at ok with live
      · exact Or.inl (idle ok)
      · split at ok
        · cases ok
        · next run => exact Or.inr (grown ⟨rfl, rfl⟩ run ok ⟨rfl, rfl⟩)
        · next run => exact Or.inr (grown ⟨rfl, rfl⟩ run ok ⟨rfl, rfl⟩)
  | update =>
    cases valLen with
    | none => cases ok
    | some len =>
      simp only at ok
      have counted : (if c.off = 0 ∨ c.valLen = 0 then { db with size := db.size + 1 }
          else { db with waste := db.waste + 1 }).kvraw = db.kvraw ∧
          (if c.off = 0 ∨ c.valLen = 0 then { db with size := db.size + 1 }
          else { db with waste := db.waste + 1 }).index = db.index := by
        split_ifs <;> exact ⟨rfl, rfl⟩
      split at ok
      · cases ok
      · next run => exact Or.inr (grown counted run ok ⟨rfl, rfl⟩)
      · next run => exact Or.inr (grown counted run ok ⟨rfl, rfl⟩)
  | replace =>
    cases valLen with
    | none => cases ok
    | some len =>
      simp only at ok
      split_ifs at ok with dead
      · exact Or.inl (idle ok)
      · split at ok
        · cases ok
        · next run => exact Or.inr (grown ⟨rfl, rfl⟩ run ok ⟨rfl, rfl⟩)
        · next run => exact Or.inr (grown ⟨rfl, rfl⟩ run ok ⟨rfl, rfl⟩)

theorem Kvdb.Ordered.mutate (h : db.Ordered contents rs) (honours : fs.Honours contents)
    {key : Bytes} {val : Option Bytes} {valLen : Option Nat} {mode : Mode} {r : Reply}
    (ok : mutate fs overload db key val valLen mode = .ok (r, db'))
    (small : (contents db'.kvraw.logfs).length < 2 ^ 64) : ∃ rs', db'.Ordered contents rs' := by
  obtain ⟨holds, ⟨slot, slots, newest⟩, linked⟩ := h
  have ne : key ≠ [] := by
    rintro rfl
    simp [KeyValue.mutate, indexUpdate] at ok
  unfold KeyValue.mutate at ok
  obtain stop | ⟨ref, index, found, slots', held⟩ := slots.update overload ne
  · simp [stop] at ok
  · simp only [found, held] at ok
    split at ok
    · cases ok
    · next kvraw walk =>
      obtain ⟨_, rfl⟩ := Prod.mk.inj (Except.ok.inj ok)
      have walks := chainLookup_walks honours holds linked (newest (indexKey key)) key
        (if mode == .remove && valLen.isSome then val else none)
        (if mode == .remove && valLen.isSome then valLen.getD 0 else 0)
      exact ⟨rs, walks.ok holds walk, ⟨slot, slots', newest⟩, linked⟩
    · next c kvraw walk =>
      have walks := chainLookup_walks honours holds linked (newest (indexKey key)) key
        (if mode == .remove && valLen.isSome then val else none)
        (if mode == .remove && valLen.isSome then valLen.getD 0 else 0)
      have holds' := walks.ok holds walk
      obtain ⟨kvraw_eq, index_eq⟩ | ⟨before, after, data, done, kvraw_eq, index_eq, run, left⟩ :=
        mutateFound_ok ok
      · refine ⟨rs, ?_, ⟨slot, ?_, newest⟩, linked⟩
        · rwa [kvraw_eq]
        · rwa [index_eq]
      · have holds_before : before.kvraw.Holds contents (dummy :: rs) := by rwa [kvraw_eq]
        have grown := Kvdb.Ordered.append honours holds_before linked (by rwa [index_eq]) newest
          (by rwa [index_eq]) run (by rwa [← left.1])
        obtain ⟨rs', ordered⟩ := grown
        refine ⟨rs', ?_, ?_, ordered.linked⟩
        · rw [left.1]
          exact ordered.holds
        · rw [left.2]
          exact ordered.slots

theorem Kvdb.Ordered.lookup (h : db.Ordered contents rs) (honours : fs.Honours contents)
    {key : Bytes} {val : Option Bytes} {valLen : Option Nat} {r : Reply}
    (ok : kvdbLookup fs db key val valLen = .ok (r, db')) : db'.Ordered contents rs := by
  obtain ⟨holds, ⟨slot, slots, newest⟩, linked⟩ := h
  have kept : ∀ {kvraw : Kvraw σ} {reply : Reply}, kvraw.Holds contents (dummy :: rs) →
      (.ok (reply, { db with kvraw := kvraw }) : Except Fault _) = .ok (r, db') →
      db'.Ordered contents rs := by
    rintro kvraw reply holds' ⟨⟩
    exact ⟨holds', ⟨slot, slots, newest⟩, linked⟩
  by_cases key_ok : keyLenOk key
  swap
  · rw [kvdbLookup, if_pos key_ok] at ok
    cases ok
  have ne : key ≠ [] := fun e => key_ok.1 (by simp [e])
  obtain ⟨j, found, held⟩ := slots.lookup ne
  rw [kvdbLookup, if_neg (not_not.mpr key_ok), found] at ok
  split at ok
  · cases ok
  · cases j with
    | none => exact kept holds ok
    | some ref =>
      simp only [Option.map_some, Option.getD_some] at held
      have walks := chainLookup_walks honours holds linked (newest (indexKey key)) key
        (if valLen.isSome then val else none) (valLen.getD 0)
      simp only [held] at ok
      split at ok
      · exact kept holds ok
      · split at ok
        · cases ok
        · next walk => exact kept (walks.ok holds walk) ok
        · next walk =>
          have holds' := walks.ok holds walk
          split at ok
          · exact kept holds' ok
          · split at ok
            · cases ok
            · exact kept holds' ok

theorem Kvdb.Ordered.call (h : db.Ordered contents rs) (honours : fs.Honours contents)
    {c : KvdbCall} {r : Reply} (ok : db.call fs overload c = .ok (r, db'))
    (small : (contents db'.kvraw.logfs).length < 2 ^ 64) : ∃ rs', db'.Ordered contents rs' := by
  cases c with
  | insert key val =>
    rw [Kvdb.call, kvdbInsert] at ok
    split_ifs at ok
    exact h.mutate honours ok small
  | update key val =>
    rw [Kvdb.call, kvdbUpdate] at ok
    split_ifs at ok
    exact h.mutate honours ok small
  | replace key val =>
    rw [Kvdb.call, kvdbReplace] at ok
    split_ifs at ok
    exact h.mutate honours ok small
  | remove key val valLen =>
    rw [Kvdb.call, kvdbRemove] at ok
    split_ifs at ok
    exact h.mutate honours ok small
  | lookup key val valLen => exact ⟨rs, h.lookup honours ok⟩

theorem Kvdb.Ordered.opened (honours : fs.Honours contents) {logfs : σ}
    (fresh : contents logfs = []) (ok : kvdbOpen fs logfs = .ok (some db)) :
    db.Ordered contents [] := by
  obtain ⟨kvraw, opened, holds⟩ := kvrawOpen_spec honours fresh
  obtain rfl : (⟨0, 0, kvraw, indexOpen⟩ : Kvdb σ) = db := by simpa [kvdbOpen, opened] using ok
  refine ⟨holds, ⟨_, Index.Slots.open_, fun _ => Or.inl rfl⟩, ?_⟩
  exact (@steps_append _ _ [] dummy).mpr ⟨Steps.nil, Or.inl rfl⟩

/-- A restore keeps the log and its links, and its slots are 0 or newest. -/
theorem Kvdb.Ordered.restored (h : db.Ordered contents rs) {kvraw : Kvraw σ} {rs' : List Rec}
    (left : contents kvraw.logfs = contents db.kvraw.logfs)
    (size : kvraw.size = (contents kvraw.logfs).length) (fits : ∀ r ∈ rs', r.Fits)
    (log : contents kvraw.logfs = logBytes (dummy :: rs'))
    (ok : kvdbRestore overload kvraw (visits rs') = .ok db') : db'.Ordered contents rs := by
  have dummy_fits : dummy.Fits := h.holds.fits dummy List.mem_cons_self
  have same : dummy :: rs = dummy :: rs' := logBytes_injective h.holds.fits
    (List.forall_mem_cons.mpr ⟨dummy_fits, fits⟩) (h.holds.bytes.symm.trans (left.symm.trans log))
  obtain rfl := (List.cons.inj same).2
  have restored := kvdbRestore_restored
    (fun r mem => List.length_pos_iff.mp (fits r mem).key_pos) ok
  refine ⟨?_, ⟨_, restored.slots, replaySlot_newest rs⟩, h.linked⟩
  rw [restored.kvraw_eq]
  exact ⟨log, by rw [size, log, length_logBytes], h.holds.small, h.holds.fits⟩

theorem Kvdb.Arises.ordered (honours : fs.Honours contents) (h : db.Arises fs contents overload) :
    ∃ rs, db.Ordered contents rs := by
  induction h with
  | opened fresh ok => exact ⟨[], Kvdb.Ordered.opened honours fresh ok⟩
  | called before ok small ih =>
    obtain ⟨rs, ordered⟩ := ih
    exact ordered.call honours ok small
  | restored before left size fits log ok ih =>
    obtain ⟨rs, ordered⟩ := ih
    exact ⟨rs, ordered.restored left size fits log ok⟩

/-- The log consists of records that lead back to earlier records of their hash; every slot of the
index that is not 0 holds the newest record of its hash, and the chain from it goes down through
records of that hash to the previous offset 0. -/
structure Kvdb.ChainsEnd (fs : LogfsOps σ) (contents : σ → Bytes) (db : Kvdb σ) (rs : List Rec) :
    Prop where
  holds : db.kvraw.Holds contents (dummy :: rs)
  linked : HashLinked (dummy :: rs)
  newest : ∀ j, (db.index.maps j).key ≠ 0 → (db.index.maps j).off ≠ 0 →
    NewestAt (dummy :: rs) (db.index.maps j).key (db.index.maps j).off
  chain : ∀ j, (db.index.maps j).key ≠ 0 →
    IsChain (dummy :: rs) (db.index.maps j).off (chainFrom (dummy :: rs) (db.index.maps j).off)
  decreasing : ∀ j, (db.index.maps j).key ≠ 0 →
    ((chainFrom (dummy :: rs) (db.index.maps j).off).map Prod.fst).Pairwise (· > ·)
  hash : ∀ j, (db.index.maps j).key ≠ 0 →
    ∀ e ∈ chainFrom (dummy :: rs) (db.index.maps j).off,
      indexKey e.2.key = (db.index.maps j).key
  follows : ∀ j, (db.index.maps j).key ≠ 0 → ∀ (key : Bytes) (val : Option Bytes) (valLen : Nat),
    (valLen ≠ 0 → val ≠ none) → ∃ kvraw',
      chainLookup fs (db.kvraw.size + 1) db.kvraw key val valLen (db.index.maps j).off =
        .ok (some (walk key valLen (chainFrom (dummy :: rs) (db.index.maps j).off) val), kvraw')
  ends : ∀ j, (db.index.maps j).key ≠ 0 → ∀ (key : Bytes) (val : Option Bytes) (valLen : Nat),
    chainLookup fs (db.kvraw.size + 1) db.kvraw key val valLen (db.index.maps j).off ≠ .error .hang

theorem Index.Slots.off {index : Index} {slot : Nat → Nat} (h : index.Slots slot) {j : Nat}
    (used : (index.maps j).key ≠ 0) : slot (index.maps j).key = (index.maps j).off := by
  obtain ⟨m, rep, eq⟩ := h
  rw [← eq, rep.value used rfl]
  rfl

end

/-- In every state that operations and restores reach from a fresh store, whatever keys share a
hash, the links and the slots lead to records of one hash, and the walk from a slot ends. -/
theorem kvdb_chains_end {σ : Type} (fs : LogfsOps σ) (contents : σ → Bytes)
    (overload : Nat → Nat → Bool) (honours : fs.Honours contents) (db : Kvdb σ)
    (arises : db.Arises fs contents overload) : ∃ rs, db.ChainsEnd fs contents rs := by
  obtain ⟨rs, holds, ⟨slot, slots, newest⟩, linked⟩ := arises.ordered honours
  have start : ∀ j, (db.index.maps j).key ≠ 0 → (db.index.maps j).off = 0 ∨
      NewestAt (dummy :: rs) (db.index.maps j).key (db.index.maps j).off := by
    intro j used
    rw [← slots.off used]
    exact newest _
  have walks := fun j used => chainLookup_walks honours holds linked (start j used)
  refine ⟨rs, holds, linked, fun j used ne => (start j used).resolve_left ne,
    fun j used => isChain_of_newest linked (start j used),
    fun j used => (isChain_of_newest linked (start j used)).decreasing,
    fun j used => chainFrom_indexKey linked ((start j used).imp_right NewestAt.stored),
    fun j used key val valLen buffer => ?_, fun j used key val valLen =>
      (walks j used key val valLen).ne_hang⟩
  obtain ⟨kvraw', run, _⟩ := (walks j used key val valLen).run buffer
  exact ⟨kvraw', run⟩

/-- The log and the size that an insertion into a fresh store leaves. -/
def freshInsert (key val : Bytes) : Option (Bytes × Nat) :=
  match kvdbOpen idealLogfs [] with
  | .ok (some db) =>
    match db.call idealLogfs loadTest (.insert key val) with
    | .ok (_, db') => some (db'.kvraw.logfs, db'.kvraw.size)
    | .error _ => none
  | _ => none

theorem freshInsert_arises {key val log : Bytes} {size : Nat}
    (run : freshInsert key val = some (log, size)) (small : log.length < 2 ^ 64) :
    ∃ db : Kvdb Bytes, db.Arises idealLogfs id loadTest ∧ db.kvraw = ⟨size, log⟩ := by
  unfold freshInsert at run
  split at run
  · next db opened =>
    split at run
    · next r db' ok =>
      obtain ⟨rfl, rfl⟩ := Prod.mk.inj (Option.some.inj run)
      exact ⟨db', .called (.opened rfl opened) ok small, rfl⟩
    · cases run
  · cases run

/-- A store that is closed after an insertion and opened again. -/
theorem kvdb_chains_end_reopened :
    ∃ (db : Kvdb Bytes) (rs : List Rec), db.kvraw.logfs = logBytes [dummy, ⟨[7], [1, 2], 0⟩] ∧
      db.ChainsEnd idealLogfs id rs := by
  have insert : freshInsert [7] [1, 2] = some (logBytes [dummy, ⟨[7], [1, 2], 0⟩], 37) := by
    decide +kernel
  obtain ⟨db, arises, kvraw⟩ := freshInsert_arises insert (by decide)
  have indexed : (indexAll loadTest indexOpen [[7]]).isOk = true := by decide +kernel
  obtain ⟨db', restored⟩ : ∃ db', kvdbRestore loadTest db.kvraw (visits [⟨[7], [1, 2], 0⟩]) =
      .ok db' := by
    rw [kvdbRestore_ok_iff]
    cases run : indexAll loadTest indexOpen [[7]] with
    | ok index => exact ⟨index, run⟩
    | error e =>
      rw [run] at indexed
      cases indexed
  have fits : ∀ r ∈ [(⟨[7], [1, 2], 0⟩ : Rec)], r.Fits := by
    simp only [List.forall_mem_singleton]
    exact ⟨by decide, by decide, by decide, by decide⟩
  have log : id db.kvraw.logfs = logBytes [dummy, ⟨[7], [1, 2], 0⟩] := by rw [kvraw]; rfl
  obtain ⟨rs, ends⟩ := kvdb_chains_end idealLogfs id loadTest idealLogfs_honours db'
    (.restored arises rfl (by rw [kvraw]; decide) fits log restored)
  refine ⟨db', rs, ?_, ends⟩
  have named : ∀ r ∈ [(⟨[7], [1, 2], 0⟩ : Rec)], r.key ≠ [] := by simp
  have same := (kvdbRestore_restored named restored).kvraw_eq
  rw [same]
  exact log

end OsProjects.KeyValue
