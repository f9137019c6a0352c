import OsProjects.KeyValue.Chains
import OsProjects.KeyValue.IndexMap

/-!
# One mutation of the store

`Kvdb.Log` is the invariant of a store that has not been restored: the log holds its
records, the records of every hash are linked, and the index slot of a hash is the
offset of its newest record. Each operation either runs into the `EXIT` of the index
or answers by the newest record of its key and appends the record it should.
-/
namespace OsProjects.KeyValue
open OsProjects.Library

theorem class_stored (h : Nat) (rs : List Rec) :
    ∀ e ∈ classOf h (history rs), Stored (dummy :: rs) e.1 e.2 ∧ e.1 ≠ 0 := by
  intro e he
  have mem := List.mem_of_mem_filter he
  exact ⟨history_stored mem, history_off_ne_zero mem⟩

/-- The first `min(cap, length)` bytes of the buffer are those of the value, and `*val_len` is
the full length. -/
structure Reply.Delivers (r : Reply) (cap : Nat) (value : Bytes) : Prop where
  ok : r.rv = 0
  valLen : r.valLen = some value.length
  copied : (r.val.getD []).take (min cap value.length) = value.take (min cap value.length)

/-- A lookup that finds `value`, or nothing where it is empty. -/
def Reply.Finds (r : Reply) (cap : Nat) (value : Bytes) : Prop :=
  if value = [] then r.rv = 1 else r.Delivers cap value

theorem latest_of_headOff {key : Bytes} {rs : List Rec}
    (zero : headOff (classOf (indexKey key) (history rs)) = 0) : latest key (history rs) = [] := by
  cases e : classOf (indexKey key) (history rs) with
  | nil => rw [latest, ← newest_classOf, e]; rfl
  | cons entry rest =>
    rw [e, headOff] at zero
    exact absurd zero (class_stored _ rs entry (by rw [e]; exact List.mem_cons_self)).2

section
variable {σ : Type} {fs : LogfsOps σ} {contents : σ → Bytes}

/-- The index slot of every hash is the offset `slot` gives it, 0 where it has none. -/
def Index.Slots (index : Index) (slot : Nat → Nat) : Prop :=
  ∃ m, index.Rep m ∧ ∀ h, (m h).getD 0 = slot h

structure Kvdb.Log (contents : σ → Bytes) (db : Kvdb σ) (rs : List Rec) : Prop where
  holds : db.kvraw.Holds contents (dummy :: rs)
  slots : db.index.Slots fun h => headOff (classOf h (history rs))
  linked : ∀ h, Linked (classOf h (history rs))

theorem Index.Slots.open_ : indexOpen.Slots fun _ => 0 :=
  ⟨_, Index.Rep.create 0, fun _ => rfl⟩

theorem Index.Slots.update (overload : Nat → Nat → Bool) {index : Index} {slot : Nat → Nat}
    (h : index.Slots slot) {key : Bytes} (ne : key ≠ []) :
    indexUpdate overload index key = .error .exitSoftware ∨
      ∃ ref index', indexUpdate overload index key = .ok (ref, index') ∧ index'.Slots slot ∧
        index'.maps ref = ⟨indexKey key, slot (indexKey key)⟩ := by
  obtain ⟨m, rep, eq⟩ := h
  rcases indexUpdate_spec overload rep ne with stop | ⟨⟨ref, index'⟩, ok, rep', held⟩
  · exact Or.inl stop
  · refine Or.inr ⟨ref, index', ok, ⟨_, rep', fun k => ?_⟩, by rw [held, eq]⟩
    by_cases same : k = indexKey key
    · simp [same, eq]
    · simp [Function.update_of_ne same, eq]

theorem Index.Slots.store {index : Index} {slot : Nat → Nat} (h : index.Slots slot)
    {ref k o : Nat} (ne : k ≠ 0) (held : index.maps ref = ⟨k, o⟩) (off : Nat) :
    (index.store ref off).Slots (Function.update slot k off) := by
  obtain ⟨m, rep, eq⟩ := h
  refine ⟨_, rep.store ne (congrArg Map.key held) off, fun x => ?_⟩
  by_cases same : x = k
  · simp [same]
  · simp [Function.update_of_ne same, eq]

theorem Index.Slots.lookup {index : Index} {slot : Nat → Nat} (h : index.Slots slot)
    {key : Bytes} (ne : key ≠ []) :
    ∃ r, indexLookup index key = .ok r ∧
      ((r.map fun j => (index.maps j).off).getD 0) = slot (indexKey key) := by
  obtain ⟨m, rep, eq⟩ := h
  obtain ⟨r, ok, found⟩ := indexLookup_spec rep ne
  exact ⟨r, ok, by rw [found, eq]⟩

/-- The fuel `mutate` and `kvdb_lookup` pass covers every chain of the log. -/
theorem enough_fuel {kvraw : Kvraw σ} {rs : List Rec} (holds : kvraw.Holds contents (dummy :: rs))
    (h : Nat) : (classOf h (history rs)).length < kvraw.size + 1 := by
  have filtered :=
    List.length_filter_le (fun e : Entry => decide (indexKey e.2.key = h)) (history rs)
  have total := length_le_logSize (dummy :: rs)
  rw [length_history] at filtered
  rw [holds.size]
  simp only [List.length_cons] at total
  exact Nat.lt_succ_of_le (filtered.trans (by omega))

theorem walk_spec (honours : fs.Honours contents) {kvraw : Kvraw σ} {rs : List Rec}
    (holds : kvraw.Holds contents (dummy :: rs)) (linked : ∀ h, Linked (classOf h (history rs)))
    (key : Bytes) {val : Option Bytes} {cap : Nat} (fits : cap ≤ (val.getD []).length) :
    ∃ c kvraw', chainLookup fs (kvraw.size + 1) kvraw key val cap
        (headOff (classOf (indexKey key) (history rs))) = .ok (some c, kvraw') ∧
      kvraw'.Holds contents (dummy :: rs) ∧ c.Reports val cap (newest key (history rs)) := by
  have found := chainLookup_spec honours key _ (class_stored (indexKey key) rs)
    (linked (indexKey key)) _ (enough_fuel holds (indexKey key)) holds val fits
  rwa [newest_classOf] at found

/-- The liveness test of `mutate` and `kvdb_lookup` on what the walk reports. -/
theorem Chain.Reports.dead_iff {c : Chain} {val : Option Bytes} {cap : Nat} {key : Bytes}
    {rs : List Rec} (h : c.Reports val cap (newest key (history rs))) :
    (c.off = 0 ∨ c.valLen = 0) ↔ latest key (history rs) = [] := by
  rw [h.off, h.valLen]
  cases e : newest key (history rs) with
  | none => simp [latest, e, headOff]
  | some entry =>
    have ne := history_off_ne_zero (newest_mem e).1
    simp [latest, e, headOff, ne]

theorem Chain.Reports.of_live {c : Chain} {val : Option Bytes} {cap : Nat} {key : Bytes}
    {rs : List Rec} (h : c.Reports val cap (newest key (history rs)))
    (live : latest key (history rs) ≠ []) :
    c.valLen = (latest key (history rs)).length ∧
      (c.val.getD []).take (min cap (latest key (history rs)).length) =
        (latest key (history rs)).take (min cap (latest key (history rs)).length) := by
  cases e : newest key (history rs) with
  | none => simp [latest, e] at live
  | some entry =>
    rw [h.valLen]
    simpa [latest, e] using h.copied entry e

/-- Appending through the slot of a key's hash links the new record into its chain. -/
theorem Kvdb.Log.append (honours : fs.Honours contents) {db : Kvdb σ} {rs : List Rec}
    (log : db.Log contents rs) {key : Bytes} (data : Bytes) {ref : Nat}
    (held : db.index.maps ref =
      ⟨indexKey key, headOff (classOf (indexKey key) (history rs))⟩)
    (key_ok : keyLenOk key) (data_le : data.length ≤ 0xffffffff)
    (small : logSize (dummy :: rs) + (metaLen + key.length + data.length) < 2 ^ 64) :
    ∃ db' prev, db.appendAt fs key data ref = .ok (true, db') ∧
      db'.Log contents (rs ++ [⟨key, data, prev⟩]) ∧ db'.size = db.size ∧ db'.waste = db.waste := by
  set prev := headOff (classOf (indexKey key) (history rs)) with prev_def
  have prev_lt : prev < 2 ^ 64 := by
    cases e : classOf (indexKey key) (history rs) with
    | nil => simp [prev_def, e, headOff]
    | cons entry rest =>
      have stored := (class_stored (indexKey key) rs entry (by rw [e]; exact List.mem_cons_self)).1
      have := stored.bound
      simp only [prev_def, e, headOff]
      omega
  obtain ⟨kvraw', ok, holds⟩ := kvrawAppend_spec honours log.holds key data prev
    ⟨Nat.pos_of_ne_zero key_ok.1, key_ok.2, data_le, prev_lt⟩ small
  refine ⟨{ db with kvraw := kvraw', index := db.index.store ref (logSize (dummy :: rs)) },
    prev, ?_, ⟨by simpa using holds, ?_, ?_⟩, rfl, rfl⟩
  · simp only [Kvdb.appendAt, held, ok]
  · have slots := log.slots.store (indexKey_ne_zero key) held (logSize (dummy :: rs))
    convert slots using 1
    funext h
    rw [history_snoc, classOf_cons]
    by_cases same : indexKey key = h
    · subst same
      simp [headOff]
    · simp [same, Function.update_of_ne (Ne.symm same)]
  · intro h
    rw [history_snoc, classOf_cons]
    split_ifs with same
    · exact ⟨by simp only at same; rw [← same], log.linked h⟩
    · exact log.linked h

theorem latest_snoc (key : Bytes) (rs : List Rec) (r : Rec) :
    latest key (history (rs ++ [r])) = if r.key = key then r.val else latest key (history rs) := by
  rw [history_snoc, latest_cons]

/-- The lookups at the start of `mutate`, and what remains to be run after them. -/
theorem mutate_start (overload : Nat → Nat → Bool) (honours : fs.Honours contents) {db : Kvdb σ}
    {rs : List Rec} (log : db.Log contents rs) {key : Bytes} (key_ok : keyLenOk key)
    (val : Option Bytes) (valLen : Option Nat) (mode : Mode)
    (fits : mode = .remove → valLen.getD 0 ≤ (val.getD []).length) :
    mutate fs overload db key val valLen mode = .error .exitSoftware ∨
      ∃ ref index kvraw c cap val_,
        mutate fs overload db key val valLen mode =
          mutateFound fs { db with kvraw := kvraw, index := index } key val_ valLen mode ref c ∧
        Kvdb.Log contents { db with kvraw := kvraw, index := index } rs ∧
        index.maps ref = ⟨indexKey key, headOff (classOf (indexKey key) (history rs))⟩ ∧
        ((c.off = 0 ∨ c.valLen = 0) ↔ latest key (history rs) = []) ∧
        (mode ≠ .remove → val_ = val) ∧
        (mode = .remove → ∀ n, valLen = some n → cap = n ∧ val_ = c.val ∧
          c.Reports val cap (newest key (history rs))) := by
  have ne : key ≠ [] := fun e => key_ok.1 (by simp [e])
  rcases log.slots.update overload ne with stop | ⟨ref, index, ok, slots, held⟩
  · exact Or.inl (by simp only [mutate, stop])
  · set reads : Bool := mode == .remove && valLen.isSome with reads_def
    have fits' : (if reads then valLen.getD 0 else 0) ≤
        ((if reads then val else none).getD []).length := by
      cases r : reads with
      | false => simp
      | true =>
        rw [reads_def, Bool.and_eq_true, beq_iff_eq] at r
        simpa using fits r.1
    obtain ⟨c, kvraw, run, holds, reports⟩ := walk_spec honours log.holds log.linked key fits'
    refine Or.inr ⟨ref, index, kvraw, c, if reads then valLen.getD 0 else 0,
      if reads then c.val else val, ?_, ⟨holds, slots, log.linked⟩, held, reports.dead_iff, ?_, ?_⟩
    · simp only [mutate, ok, held]
      simp only [reads_def] at run ⊢
      rw [run]
    · intro other
      have : reads = false := by simp [reads_def, other]
      simp [this]
    · rintro rfl n rfl
      have : reads = true := by simp [reads_def]
      rw [this] at reports
      simpa [this] using reports

/-- A lookup through a slot that holds the start of the chain or 0. -/
theorem kvdbLookup_spec (honours : fs.Honours contents) {db : Kvdb σ} {rs : List Rec}
    (holds : db.kvraw.Holds contents (dummy :: rs)) (linked : ∀ h, Linked (classOf h (history rs)))
    {slot : Nat → Nat} (slots : db.index.Slots slot) {key : Bytes} (key_ok : keyLenOk key)
    {val : Option Bytes} {cap : Nat} (fits : cap ≤ (val.getD []).length)
    (start : slot (indexKey key) = 0 ∨
      slot (indexKey key) = headOff (classOf (indexKey key) (history rs))) :
    ∃ r kvraw, kvdbLookup fs db key val (some cap) = .ok (r, { db with kvraw := kvraw }) ∧
      kvraw.Holds contents (dummy :: rs) ∧
      r.Finds cap (if slot (indexKey key) = 0 then [] else latest key (history rs)) := by
  have buffer : ¬ ((some cap).getD 0 ≠ 0 ∧ val = none) := by
    rintro ⟨pos, rfl⟩
    exact pos (Nat.le_zero.mp fits)
  have ne : key ≠ [] := fun e => key_ok.1 (by simp [e])
  obtain ⟨j, found, held⟩ := slots.lookup ne
  rw [kvdbLookup, if_neg (not_not.mpr key_ok), if_neg buffer, found]
  cases j with
  | none =>
    have zero : slot (indexKey key) = 0 := held.symm
    exact ⟨_, db.kvraw, rfl, holds, by simp [Reply.Finds, zero]⟩
  | some ref =>
    simp only [Option.map_some, Option.getD_some] at held
    simp only [Option.isSome_some, if_true, Option.getD_some, held]
    by_cases zero : slot (indexKey key) = 0
    · exact ⟨⟨1, val, some cap⟩, db.kvraw, by rw [if_pos zero], holds, by simp [Reply.Finds, zero]⟩
    · obtain ⟨c, kvraw, walk, holds', reports⟩ := walk_spec honours holds linked key fits
      rw [if_neg zero, if_neg zero, start.resolve_left zero, walk]
      simp only [reports.dead_iff]
      by_cases dead : latest key (history rs) = []
      · exact ⟨_, kvraw, if_pos dead, holds', by simp [Reply.Finds, dead]⟩
      · obtain ⟨len, copied⟩ := reports.of_live dead
        refine ⟨_, kvraw, if_neg dead, holds', ?_⟩
        rw [Reply.Finds, if_neg dead]
        exact ⟨rfl, by simp [len], copied⟩

end

end OsProjects.KeyValue
