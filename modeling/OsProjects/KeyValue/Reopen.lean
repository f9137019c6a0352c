import OsProjects.KeyValue.RestoreTail
import OsProjects.KeyValue.VolumeStore

/-!
# A restore that leaves a handle in use

With blocks of 4096 bytes and records no longer than a block, a restore keeps up with
the log: behind every record the tail offset is the last block boundary and the queue is
the log from there on. So a store that was closed with its log on the device can be
opened again with a handle that serves kvraw.
-/
namespace OsProjects.KeyValue
open OsProjects.Library

/-- A visitor behind `log`: the queue and the tail offset are those of the log. -/
structure Visitor.Reads (device : Device) (v : Visitor) (lfs : Logfs) (log : Bytes) : Prop where
  visiting : Visiting device v lfs (log.drop (log.length / 4096 * 4096))
  tail : lfs.tailOffset = log.length / 4096 * 4096
  place : v.nextOffset = log.length

section
variable (rand : Nat → Nat → Nat) {device : Device} {v : Visitor} {lfs : Logfs} {log : Bytes}
  {kvraw : Kvraw Logfs} {r : Rec} {rs : List Rec}

theorem Visitor.Reads.restoring (h : v.Reads device lfs log) :
    Restoring device lfs (log.drop (log.length / 4096 * 4096), log.length / 4096 * 4096) := by
  have restoring := h.visiting.restoring
  rwa [h.tail] at restoring

/-- A record no longer than a block moves the tail offset to the last block boundary. -/
theorem absorb_block (log bytes : Bytes) (piece : bytes.length ≤ 4096)
    (small : log.length + bytes.length < 2 ^ 64) :
    absorb 4096 (log.drop (log.length / 4096 * 4096), log.length / 4096 * 4096) bytes =
      ((log ++ bytes).drop ((log ++ bytes).length / 4096 * 4096),
        (log ++ bytes).length / 4096 * 4096) := by
  have lt := Nat.mod_lt log.length (by decide : 0 < 4096)
  have le := Nat.div_mul_le_self log.length 4096
  have keeps : Keeps 4096 (log.length - log.length / 4096 * 4096) bytes.length :=
    ⟨by simp only [wcacheBlocks]; omega, fun _ => Or.inl rfl⟩
  rw [absorb_kept (Nat.le_refl 4096) le keeps small, List.length_append]
  split_ifs with full
  · have next : (log.length + bytes.length) / 4096 * 4096 = log.length / 4096 * 4096 + 4096 := by
      omega
    rw [next]
  · have next : (log.length + bytes.length) / 4096 * 4096 = log.length / 4096 * 4096 := by omega
    rw [next]

/-- Restores of the same device in the same state queue the same bytes. -/
theorem Visitor.Reads.of_restoring {queue : Bytes} (visiting : Visiting device v lfs queue)
    (restoring : Restoring device lfs (log.drop (log.length / 4096 * 4096), log.length / 4096 * 4096))
    (place : v.nextOffset = log.length) : v.Reads device lfs log := by
  obtain rfl := visiting.restoring.queue.unique restoring.queue
  exact ⟨visiting, restoring.tail, place⟩

/-- What the visitor comes to is the next record of the log. -/
theorem Visitor.Reads.follows (h : v.Reads device lfs log) (block : device.block = 4096)
    (next : device.HasLog v.nextOffset [r]) (piece : r.size ≤ 4096) : v.Follows lfs := by
  have split := Nat.div_add_mod' log.length 4096
  have lt := Nat.mod_lt log.length (by decide : 0 < 4096)
  have restoring := h.restoring
  have queue : logfsWbAvail lfs = log.length - log.length / 4096 * 4096 := by
    rw [logfsWbAvail_eq restoring.queue, List.length_drop]
  intro marked
  rw [restoring.bytes] at marked
  obtain ⟨_, inside, _⟩ := next.head
  have size : lfs.device.recAt v.nextOffset = device.recAt v.nextOffset := by
    simp only [Device.recAt, restoring.bytes]
  have header : (device.recAt v.nextOffset).header = r.header := by
    rw [Device.recAt_header marked, next.header, next.head.2.2.decode]
  have keyLen : (device.recAt v.nextOffset).key.length = r.key.length := congrArg Meta.keyLen header
  have valLen : (device.recAt v.nextOffset).val.length = r.val.length := congrArg Meta.valLen header
  have same : (device.recAt v.nextOffset).size = r.size := by rw [Rec.size, Rec.size, keyLen, valLen]
  have place := h.place
  rw [size, same, queue, restoring.geometry.size, restoring.ringSize, h.tail, block]
  refine ⟨by omega, inside, ?_⟩
  simp only [wcacheBlocks]
  omega

theorem Visitor.Reads.record (h : v.Reads device kvraw.logfs log) (sane : device.Sane)
    (block : device.block = 4096) (next : device.HasLog v.nextOffset (r :: rs))
    (size : kvraw.size = v.nextOffset) (piece : r.size ≤ 4096) :
    ∃ l, visitorNext rand kvraw v = .ok
        (⟨v.nextOffset, v.nextOffset + r.size, r.key, r.key.length, r.val.length, v.valid⟩,
          ⟨v.nextOffset + r.size, l⟩) ∧
      Visitor.Reads device
        ⟨v.nextOffset, v.nextOffset + r.size, r.key, r.key.length, r.val.length, v.valid⟩ l
        (log ++ r.bytes) := by
  obtain ⟨_, inside, _⟩ := next.head
  have size_lt := device.size_lt
  have place := h.place
  obtain ⟨l, ok, restoring⟩ := visitorNext_record rand h.restoring sane next size
  have sum : v.nextOffset + metaLen + (r.key.length + r.val.length) % 2 ^ 32 =
      v.nextOffset + r.size := by
    simp only [Rec.size] at piece ⊢
    rw [Nat.mod_eq_of_lt (by omega)]
    omega
  rw [sum] at ok
  rw [block, absorb_block log r.bytes (by rwa [r.length_bytes]) (by rw [r.length_bytes]; omega)] at restoring
  obtain ⟨queue, visiting⟩ := h.visiting.step sane (h.follows block next.first piece)
    (visitorNext_advances ok)
  refine ⟨l, ok, .of_restoring visiting restoring ?_⟩
  simp only [List.length_append, r.length_bytes, place]

theorem Visitor.Reads.end_ (h : v.Reads device kvraw.logfs log) (sane : device.Sane)
    (ends : device.EndsAt v.nextOffset) (size : kvraw.size = v.nextOffset) :
    ∃ l, visitorNext rand kvraw v = .ok ({ v with valid := false }, ⟨v.nextOffset, l⟩) ∧
      Visitor.Reads device { v with valid := false } l log := by
  obtain ⟨l, ok, restoring⟩ := visitorNext_end rand h.restoring sane ends size
  have follows : v.Follows kvraw.logfs := fun marked =>
    absurd (by rwa [h.restoring.bytes] at marked) ends.2
  obtain ⟨queue, visiting⟩ := h.visiting.step sane follows (visitorNext_advances ok)
  exact ⟨l, ok, .of_restoring visiting restoring h.place⟩

/-- The loop yields the records in front of the visitor and leaves the handle behind them. -/
theorem Visitor.Reads.loop (h : v.Reads device kvraw.logfs log) (sane : device.Sane)
    (block : device.block = 4096) (next : device.HasLog v.nextOffset rs)
    (size : kvraw.size = v.nextOffset) (valid : v.valid = true) (pieces : ∀ r ∈ rs, r.size ≤ 4096)
    (ends : device.EndsAt (v.nextOffset + logSize rs)) {fuel : Nat} (enough : rs.length + 2 ≤ fuel) :
    ∃ l v', visitorLoop rand fuel kvraw v = .ok
        (⟨v.offset, v.key, v.valLen⟩ :: visitsFrom v.nextOffset rs,
          ⟨v.nextOffset + logSize rs, l⟩) ∧
      Visitor.Reads device v' l (log ++ logBytes rs) := by
  induction rs generalizing kvraw v log fuel with
  | nil =>
    obtain ⟨fuel, rfl⟩ := Nat.exists_eq_add_of_le' enough
    obtain ⟨l, ok, reads⟩ := h.end_ rand sane ends size
    refine ⟨l, _, ?_, by simpa [logBytes] using reads⟩
    simp only [List.length_nil, visitorLoop, valid, if_true, ok]
    rfl
  | cons r rs ih =>
    obtain ⟨fuel, rfl⟩ := Nat.exists_eq_add_of_le' (by omega : 1 ≤ fuel)
    obtain ⟨piece, pieces⟩ := List.forall_mem_cons.mp pieces
    obtain ⟨l₁, ok, reads⟩ := h.record rand sane block next size piece
    have bytes : log ++ logBytes (r :: rs) = log ++ r.bytes ++ logBytes rs := by
      simp [logBytes]
    rw [logSize_cons, ← Nat.add_assoc] at ends ⊢
    rw [bytes]
    have start : Visitor.Reads device _ (⟨v.nextOffset + r.size, l₁⟩ : Kvraw Logfs).logfs _ := reads
    obtain ⟨l₂, v', rest, reads'⟩ := ih start next.tail rfl valid pieces ends
      (by simp only [List.length_cons] at enough; omega : rs.length + 2 ≤ fuel)
    refine ⟨l₂, v', ?_, reads'⟩
    simp only [visitorLoop, valid, if_true, ok] at rest ⊢
    rw [rest]
    rfl

/-- `kvraw_visitor_init` up to its call of `kvraw_visitor_next` leaves the visitor behind the dummy
record. -/
theorem Visitor.Reads.first (sane : device.Sane) (block : device.block = 4096)
    (log : device.HasLog 0 (dummy :: rs)) :
    ∃ l, visitorFirst rand ⟨0, logfsOpen device⟩ = .ok (.first, ⟨dummy.size, l⟩) ∧
      Visitor.first.Reads device l dummy.bytes := by
  obtain ⟨bytes, inside, _⟩ := log.head
  obtain ⟨l₁, read, h₁⟩ := readMeta2_record rand (Restoring.open_ sane) sane log
  have sized : Restoring device (⟨dummy.size, l₁⟩ : Kvraw Logfs).logfs ([], 0) := h₁
  obtain ⟨l₂, buffered, restoring, _⟩ := visitorBuffer_spec rand sized sane bytes inside
  have grown : (0 + metaLen) % 2 ^ 64 = 0 + metaLen := rfl
  have sum : (0 + metaLen + (dummy.header.keyLen + dummy.header.valLen) % 2 ^ 32) % 2 ^ 64 =
      dummy.size := rfl
  have ok : visitorFirst rand ⟨0, logfsOpen device⟩ = .ok (.first, ⟨dummy.size, l₂⟩) := by
    simp only [visitorFirst, grown, read, sum, buffered]
    rfl
  have start : Visitor.Reads device ⟨0, 0, [], 0, 0, false⟩ (logfsOpen device) [] :=
    ⟨⟨Restoring.open_ sane, (by decide : 0 < 4096), Nat.le_refl 0, fun _ => rfl, fun _ => rfl⟩, rfl,
      rfl⟩
  obtain ⟨queue, visiting⟩ := start.visiting.step sane (start.follows block log.first (by decide))
    (visitorFirst_advances ok)
  refine ⟨l₂, ok, .of_restoring visiting ?_ rfl⟩
  have absorbed := absorb_block [] dummy.bytes (by decide) (by decide)
  rw [block] at restoring
  exact absorbed ▸ restoring

/-- A restore is the loop of the visitor behind the dummy record, which it does not yield. -/
theorem visitorLoop_first (first : visitorFirst rand ⟨0, logfsOpen device⟩ = .ok (.first, kvraw)) :
    visitorLoop rand (device.size + 3) kvraw .first =
      match visitorRun rand device with
      | .error e => .error e
      | .ok (visits, kvraw) => .ok (⟨0, [], 0⟩ :: visits, kvraw) := by
  have init : visitorInit rand ⟨0, logfsOpen device⟩ = visitorNext rand kvraw .first := by
    rw [visitorInit_eq, first]
    rfl
  simp only [visitorRun, init, visitorLoop, Visitor.first, if_true]
  cases visitorNext rand kvraw ⟨0, dummy.size, [], 0, 0, true⟩ <;> rfl

/-- A restore of a log of records no longer than a block yields the records and leaves the handle
behind them. -/
theorem visitorRun_reads (sane : device.Sane) (block : device.block = 4096)
    (log : device.HasLog 0 (dummy :: rs)) (pieces : ∀ r ∈ rs, r.size ≤ 4096)
    (ends : device.EndsAt (logSize (dummy :: rs))) :
    ∃ l v, visitorRun rand device = .ok (visits rs, ⟨logSize (dummy :: rs), l⟩) ∧
      Visitor.Reads device v l (logBytes (dummy :: rs)) := by
  obtain ⟨l, first, reads⟩ := Visitor.Reads.first rand sane block log
  have enough : rs.length + 2 ≤ device.size + 3 := by
    have records := length_le_logSize rs
    have inside := log.inside
    simp only [logSize_cons] at inside
    omega
  have start : Visitor.first.Reads device (⟨dummy.size, l⟩ : Kvraw Logfs).logfs dummy.bytes := reads
  obtain ⟨l', v, loop, reads'⟩ := start.loop rand sane block log.tail_dummy rfl rfl pieces
    ends enough
  refine ⟨l', v, ?_, by simpa [logBytes] using reads'⟩
  rw [visitorLoop_first rand first] at loop
  cases yields : visitorRun rand device with
  | error e => simp [yields] at loop
  | ok result =>
    simp only [yields, Except.ok.injEq, Prod.mk.injEq, List.cons.injEq] at loop
    rw [← Prod.eta result, loop.1.2, loop.2]
    rfl

/-- Behind a log that the device holds the handle is in use. -/
theorem Visitor.Reads.level (h : v.Reads device lfs log) (sane : device.Sane)
    (block : device.block = 4096) (carries : device.Carries log) : lfs.Level log := by
  have restoring := h.restoring
  have geometry := restoring.geometry
  have opened := logfsOpen_rep sane.power sane.block_lt sane.works
  have lt := Nat.mod_lt log.length (by decide : 0 < 4096)
  have le := Nat.div_mul_le_self log.length 4096
  have queued := h.visiting.le
  have tail := h.tail
  have ringSize := restoring.ringSize
  rw [List.length_drop] at queued
  have flushed : lfs.tailOffset + lfs.writeBuffer.lastAvail ≤ log.length := by omega
  have stores : lfs.Stores log := {
    works := fun n => geometry.works ▸ sane.works n
    unlocked := restoring.unlocked
    block_lt := geometry.block ▸ sane.block_lt
    elemSize := restoring.elemSize.trans geometry.block.symm
    ringSize := by rw [ringSize, geometry.block]
    divides := by
      rw [ringSize]
      exact opened.divides
    aligned := by
      rw [geometry.block, block, tail]
      exact Nat.dvd_mul_left _ _
    flushed := flushed
    queue := tail ▸ restoring.queue
    stored := by
      rw [restoring.bytes, ← Mem.take_read device.bytes flushed, carries.held]
    fits := geometry.size ▸ carries.inside }
  refine ⟨⟨stores, ?_⟩, sane.sameGeometry geometry, ?_, ?_⟩
  · rw [ringSize, geometry.block, block, tail]
    simp only [wcacheBlocks]
    omega
  · rw [Logfs.Coherent, restoring.bytes]
    exact restoring.coherent
  · rw [geometry.block, block, tail]
    omega

end

/-- The store with another handle. -/
def Kvdb.onto {σ τ : Type} (db : Kvdb σ) (kvraw : Kvraw τ) : Kvdb τ :=
  ⟨db.size, db.waste, kvraw, db.index⟩

section
variable {σ τ : Type} (overload : Nat → Nat → Bool)

theorem restoreStep_onto (db : Kvdb σ) (kvraw : Kvraw τ) (visit : Visit) :
    restoreStep overload (db.onto kvraw) visit =
      (restoreStep overload db visit).map fun d => d.onto kvraw := by
  have index : (db.onto kvraw).index = db.index := rfl
  unfold restoreStep
  rw [index]
  cases indexUpdate overload db.index visit.key with
  | error e => rfl
  | ok located =>
    simp only
    split_ifs <;> rfl

/-- The restore loop does not look at the handle. -/
theorem restoreLoop_onto (db : Kvdb σ) (kvraw : Kvraw τ) (visits : List Visit) :
    restoreLoop overload (db.onto kvraw) visits =
      (restoreLoop overload db visits).map fun d => d.onto kvraw := by
  induction visits generalizing db with
  | nil => rfl
  | cons visit visits ih =>
    simp only [restoreLoop, restoreStep_onto]
    cases restoreStep overload db visit with
    | error e => rfl
    | ok next => exact ih next

/-- A restore loop over names ends in the `EXIT` of the index at worst. -/
theorem restoreLoop_exits (db : Kvdb σ) {slot : Nat → Nat} (slots : db.index.Slots slot)
    {visits : List Visit} (named : ∀ visit ∈ visits, visit.key ≠ []) :
    restoreLoop overload db visits = .error .exitSoftware ∨
      ∃ db', restoreLoop overload db visits = .ok db' := by
  induction visits generalizing db slot with
  | nil => exact Or.inr ⟨db, rfl⟩
  | cons visit visits ih =>
    obtain ⟨name, named⟩ := List.forall_mem_cons.mp named
    obtain stop | ⟨ref, index, located, kept, held⟩ := slots.update overload name
    · exact Or.inl (by simp only [restoreLoop, restoreStep, stop])
    · have stored := fun off => kept.store (indexKey_ne_zero visit.key) held off
      simp only [restoreLoop, restoreStep, located]
      split_ifs
      · exact ih _ (stored 0) named
      · exact ih _ (stored visit.offset) named
      · exact ih _ (stored visit.offset) named

/-- The loop of `kvdb_open_internal` over a visitor that comes back is the restore loop over what it
yields. -/
theorem restoreVisits_eq {rand : Nat → Nat → Nat} {fuel : Nat} (db : Kvdb Logfs) {v : Visitor}
    {visits : List Visit} {end_ : Kvraw Logfs}
    (loop : visitorLoop rand fuel db.kvraw v = .ok (visits, end_)) :
    restoreVisits rand overload fuel db v =
      (restoreLoop overload db visits).map fun d => d.onto end_ := by
  induction fuel generalizing db v visits with
  | zero => cases loop
  | succ fuel ih =>
    simp only [visitorLoop, restoreVisits] at loop ⊢
    by_cases valid : v.valid = true
    · rw [if_pos valid] at loop ⊢
      cases next : visitorNext rand db.kvraw v with
      | error e => simp [next] at loop
      | ok result =>
        obtain ⟨v', kvraw⟩ := result
        cases more : visitorLoop rand fuel kvraw v' with
        | error e => simp [next, more] at loop
        | ok result =>
          obtain ⟨rest, last⟩ := result
          simp only [next, more, Except.ok.injEq, Prod.mk.injEq] at loop
          obtain ⟨rfl, rfl⟩ := loop
          simp only [restoreLoop]
          cases step : restoreStep overload db ⟨v.offset, v.key, v.valLen⟩ with
          | error e => rfl
          | ok db₁ =>
            have handle : db₁.onto kvraw = { db₁ with kvraw := kvraw } := rfl
            have rest_eq := ih { db₁ with kvraw := kvraw } more
            rw [← handle, restoreLoop_onto] at rest_eq
            simp only [restoreStep_kvraw step, next, ← handle, rest_eq]
            cases restoreLoop overload db₁ rest <;> rfl
    · rw [if_neg valid] at loop ⊢
      cases loop
      rfl

end

section
variable (rand : Nat → Nat → Nat) (overload : Nat → Nat → Bool) {device : Device} {rs : List Rec}
  {m : KvMap}

/-- A store that `kvdb_open_with_restore` returned, for use. -/
def Kvdb.onVolume (db : Kvdb Logfs) : Kvdb (Except Fault Volume) :=
  db.onto ⟨db.kvraw.size, .ok ⟨db.kvraw.logfs, 0⟩⟩

theorem Device.Carries.hasLog (h : device.Carries (logBytes rs)) (fits : ∀ r ∈ rs, r.Fits) :
    device.HasLog 0 rs := by
  have inside := h.inside
  have held := h.held
  rw [length_logBytes] at inside held
  exact ⟨held, by rwa [Nat.zero_add], fits⟩

theorem Device.Blank.endsAt {log : Bytes} (h : device.Blank log)
    (room : log.length + metaLen ≤ device.size) : device.EndsAt log.length := by
  refine ⟨room, fun marked => ?_⟩
  rw [h _ (Nat.le_refl _)] at marked
  exact absurd marked.1 (by decide)

/-- A store whose log the device carries is restored with a handle in use, unless the index runs into
its `EXIT`. -/
theorem kvdbOpenWithRestore_shows (zeroed : Prop) (sane : device.Sane) (block : device.block = 4096)
    (carries : device.Carries (logBytes (dummy :: rs))) (blank : device.Blank (logBytes (dummy :: rs)))
    (room : logSize (dummy :: rs) + metaLen ≤ device.size) (fits : ∀ r ∈ rs, r.Fits)
    (pieces : ∀ r ∈ rs, r.size ≤ 4096) (threaded : Threaded rs)
    (apart : ∀ e ∈ history rs, ∀ e' ∈ history rs, indexKey e.2.key = indexKey e'.2.key →
      e.2.key = e'.2.key)
    (tells : m.Tells rs) :
    kvdbOpenWithRestore rand overload (device.size + 2) device = .error .exitSoftware ∨
      ∃ db ideal, kvdbOpenWithRestore rand overload (device.size + 2) device = .ok db ∧
        db.onVolume.Over (Volume.Holds device zeroed) ideal ∧ ideal.Shows rs m := by
  have dummy_fits : dummy.Fits := ⟨by decide, by decide, by decide, by decide⟩
  have all_fit : ∀ r ∈ dummy :: rs, r.Fits := List.forall_mem_cons.mpr ⟨dummy_fits, fits⟩
  have length : (logBytes (dummy :: rs)).length = logSize (dummy :: rs) := length_logBytes _
  have ends := blank.endsAt (by rwa [length])
  rw [length] at ends
  obtain ⟨l, v, run, reads⟩ := visitorRun_reads rand sane block (carries.hasLog all_fit)
    pieces ends
  have level := reads.level sane block carries
  have named : ∀ visit ∈ visits rs, visit.key ≠ [] := by
    intro visit mem
    have key : visit.key ∈ rs.map Rec.key := map_key_visits rs ▸ List.mem_map_of_mem mem
    obtain ⟨r, among, same⟩ := List.mem_map.mp key
    rw [← same]
    exact List.length_pos_iff.mp (fits r among).key_pos
  unfold visitorRun at run
  cases init : visitorInit rand ⟨0, logfsOpen device⟩ with
  | error e => simp [init] at run
  | ok start =>
    obtain ⟨v₀, kvraw⟩ := start
    simp only [init] at run
    have opened : kvdbOpenWithRestore rand overload (device.size + 2) device =
        (kvdbRestore overload kvraw (visits rs)).map fun d =>
          d.onto ⟨logSize (dummy :: rs), l⟩ := by
      rw [kvdbOpenWithRestore, init]
      exact restoreVisits_eq overload _ run
    rw [opened]
    obtain stop | ⟨db, restored⟩ := restoreLoop_exits overload
      (⟨0, 0, kvraw, indexOpen⟩ : Kvdb Logfs) Index.Slots.open_ named
    · exact Or.inl (by rw [kvdbRestore, stop]; rfl)
    · -- the same loop over the ideal log
      have holds : Kvraw.Holds (id : Bytes → Bytes) ⟨logSize (dummy :: rs), logBytes (dummy :: rs)⟩
          (dummy :: rs) :=
        ⟨rfl, rfl, Nat.lt_of_le_of_lt (Nat.le_of_add_right_le room) device.size_lt, all_fit⟩
      have ideal := restoreLoop_onto overload (⟨0, 0, kvraw, indexOpen⟩ : Kvdb Logfs)
        (⟨logSize (dummy :: rs), logBytes (dummy :: rs)⟩ : Kvraw Bytes) (visits rs)
      rw [restored] at ideal
      refine Or.inr ⟨db.onto ⟨logSize (dummy :: rs), l⟩,
        db.onto ⟨logSize (dummy :: rs), logBytes (dummy :: rs)⟩,
        by rw [kvdbRestore, restored]; rfl, ⟨rfl, rfl, rfl, rfl, ?_⟩,
        Kvdb.Shows.restored holds threaded apart tells ideal⟩
      refine ⟨_, rfl, level, reads.restoring.geometry, fun _ => ?_⟩
      intro x behind
      rw [Kvdb.onto, reads.restoring.bytes]
      exact blank x behind

end

end OsProjects.KeyValue
