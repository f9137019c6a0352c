import OsProjects.KeyValue.PeekMark
import OsProjects.KeyValue.RestoreReturns
import OsProjects.Library.Runs

/-!
# The mark over restores and runs

The restore visitor adds the length of each record to the mark, whether or not the ring
took the record, and a drain takes the mark back. So the mark is right as long as each
record goes into the ring and lies on the device right behind the queued bytes: then the
device holds the whole queue. From there on the calls keep it right.
-/
namespace OsProjects.KeyValue
open OsProjects.Library

/-- `kvraw_visitor_init` up to its call of `kvraw_visitor_next`. -/
def visitorFirst (rand : Nat → Nat → Nat) (kvraw : Kvraw Logfs) :
    Except Fault (Visitor × Kvraw Logfs) :=
  let v : Visitor := ⟨0, 0, [], 0, 0, false⟩
  let kvraw := { kvraw with size := (kvraw.size + metaLen) % 2 ^ 64 }
  match readMeta2 rand kvraw v.offset with
  | .error e => .error e
  | .ok (.corrupt, _) => .error .exit
  | .ok (.ended, _) => .error .exit
  | .ok (.found m, kvraw) =>
    let kvraw := { kvraw with size := (kvraw.size + (m.keyLen + m.valLen) % 2 ^ 32) % 2 ^ 64 }
    match visitorBuffer rand kvraw v.offset m with
    | .error e => .error e
    | .ok (_, kvraw) =>
      .ok ({ v with nextOffset := metaLen + m.keyLen + m.valLen, valid := true }, kvraw)

section
variable (rand : Nat → Nat → Nat) (device : Device)

/-- The restores of a device, record by record, whose records meet a condition. -/
inductive Visits (records : Visitor → Logfs → Prop) : Visitor → Kvraw Logfs → Prop
  | first {v : Visitor} {kvraw : Kvraw Logfs}
    (regular : records ⟨0, 0, [], 0, 0, false⟩ (logfsOpen device))
    (ok : visitorFirst rand ⟨0, logfsOpen device⟩ = .ok (v, kvraw)) : Visits records v kvraw
  | next {v v' : Visitor} {kvraw kvraw' : Kvraw Logfs} (h : Visits records v kvraw)
    (regular : records v kvraw.logfs) (ok : visitorNext rand kvraw v = .ok (v', kvraw')) :
    Visits records v' kvraw'

/-- The states of a handle on a device: it was opened, or restored up to some record, and then
used. The records, what a restore leaves, and the calls each meet a condition. -/
inductive Logfs.InUse (records : Visitor → Logfs → Prop) (restores : Logfs → Prop)
    (calls : Logfs → LogOp → Prop) : Logfs → Prop
  | opened : InUse records restores calls (logfsOpen device)
  | restored {v : Visitor} {kvraw : Kvraw Logfs} (h : Visits rand device records v kvraw)
    (regular : restores kvraw.logfs) : InUse records restores calls kvraw.logfs
  | call {lfs lfs' : Logfs} (h : InUse records restores calls lfs) (c : LogOp)
    (regular : calls lfs c) (ok : c.step lfs = .ok lfs') : InUse records restores calls lfs'

end

/-- The record that the visitor comes to, if there is one, begins on the device where the queue
ends, lies on the device, and leaves a free byte in the ring. -/
def Visitor.Follows (v : Visitor) (lfs : Logfs) : Prop :=
  lfs.device.bytes v.nextOffset = markK ∧ lfs.device.bytes (v.nextOffset + 1) = markV →
    v.nextOffset = lfs.tailOffset + logfsWbAvail lfs ∧
      v.nextOffset + (lfs.device.recAt v.nextOffset).size ≤ lfs.device.size ∧
      logfsWbAvail lfs + (lfs.device.recAt v.nextOffset).size < lfs.writeBuffer.size

instance Visitor.decidableFollows (v : Visitor) (lfs : Logfs) : Decidable (v.Follows lfs) :=
  inferInstanceAs (Decidable (_ ∧ _ → _ ∧ _ ∧ _))

/-- What a visitor does at its next offset: it ends there, or puts the record that it reads into the
write buffer. -/
def Advances (rand : Nat → Nat → Nat) (v : Visitor) (lfs : Logfs) (v' : Visitor) (lfs' : Logfs) :
    Prop :=
  ∃ size result kvraw, readMeta2 rand ⟨size, lfs⟩ v.nextOffset = .ok (result, kvraw) ∧
    match result with
    | .corrupt => False
    | .ended => v'.nextOffset = v.nextOffset ∧ lfs' = kvraw.logfs
    | .found m =>
      (v.nextOffset + metaLen + m.keyLen + m.valLen < 2 ^ 64 →
        v'.nextOffset = v.nextOffset + metaLen + m.keyLen + m.valLen) ∧
      ∃ size key kvraw', visitorBuffer rand ⟨size, kvraw.logfs⟩ v.nextOffset m =
        .ok (key, kvraw') ∧ lfs' = kvraw'.logfs

/-- The state of a restore: the queue, and the mark of its records that went in since the last
drain. When the next record lies behind the queue the device has all of it. -/
structure Visiting (device : Device) (v : Visitor) (lfs : Logfs) (queue : Bytes) : Prop where
  restoring : Restoring device lfs (queue, lfs.tailOffset)
  small : lfs.writeBuffer.lastAvail < 4096
  le : lfs.writeBuffer.lastAvail ≤ queue.length
  level : v.nextOffset = lfs.tailOffset + queue.length →
    device.bytes.read lfs.tailOffset queue.length = queue
  apart : v.nextOffset ≠ lfs.tailOffset + queue.length → lfs.writeBuffer.lastAvail = 0

section
variable {rand : Nat → Nat → Nat} {device : Device} {v v' : Visitor} {lfs lfs' : Logfs}
  {kvraw kvraw' : Kvraw Logfs} {queue : Bytes}

/-- `kvraw_visitor_init` is its first record and a `kvraw_visitor_next`. -/
theorem visitorInit_eq (rand : Nat → Nat → Nat) (kvraw : Kvraw Logfs) :
    visitorInit rand kvraw =
      (visitorFirst rand kvraw).bind fun s => visitorNext rand s.2 s.1 := by
  simp only [visitorInit, visitorFirst]
  cases readMeta2 rand ⟨(kvraw.size + metaLen) % 2 ^ 64, kvraw.logfs⟩ 0 with
  | error e => rfl
  | ok result =>
    obtain ⟨_ | _ | m, kvraw'⟩ := result
    · rfl
    · rfl
    · simp only
      cases visitorBuffer rand ⟨(kvraw'.size + (m.keyLen + m.valLen) % 2 ^ 32) % 2 ^ 64,
        kvraw'.logfs⟩ 0 m <;> rfl

theorem readMeta2_writeBuffer {off : Nat} {result : MetaResult}
    (ok : readMeta2 rand kvraw off = .ok (result, kvraw')) :
    kvraw'.logfs.writeBuffer = kvraw.logfs.writeBuffer := by
  unfold readMeta2 at ok
  split at ok
  · cases ok
    rfl
  · split at ok
    · cases ok
    · next read =>
      cases ok
      exact logfsReadWithFlush_writeBuffer read
    · next read =>
      simp only at ok
      split at ok <;> cases ok <;> exact logfsReadWithFlush_writeBuffer read

/-- What a header that was read says about the device. -/
theorem readMeta2_ok {state : Bytes × Nat} (h : Restoring device kvraw.logfs state)
    (sane : device.Sane) {off : Nat} {result : MetaResult}
    (ok : readMeta2 rand kvraw off = .ok (result, kvraw')) (alive : result ≠ .corrupt) :
    Restoring device kvraw'.logfs state ∧
      (result = .ended ∨ result = .found (Meta.decode (device.bytes.read off metaLen)) ∧
        device.bytes off = markK ∧ device.bytes (off + 1) = markV) := by
  have size_lt := device.size_lt
  have inside : off + metaLen ≤ device.size := by
    by_contra past
    exact alive (readMeta2_past rand h (Nat.lt_of_not_le past) result kvraw' ok)
  have size : off + metaLen ≤ kvraw.size := by
    by_contra short
    rw [readMeta2_short rand (by omega) (Nat.lt_of_not_le short)] at ok
    exact alive (Prod.mk.inj (Except.ok.inj ok)).1.symm
  obtain ⟨l, read, h'⟩ := readMeta2_spec rand h sane inside size
  obtain ⟨rfl, rfl⟩ := Prod.mk.inj (Except.ok.inj (read.symm.trans ok))
  refine ⟨h', ?_⟩
  split_ifs with marked
  · exact Or.inr ⟨rfl, marked⟩
  · exact Or.inl rfl

/-- A record behind the queue that leaves the ring room goes in with its mark, and a drain that
leaves the next record behind the queue takes out 4096 bytes. -/
theorem Visiting.record (h : Visiting device v lfs queue) (sane : device.Sane)
    (marked : device.bytes v.nextOffset = markK ∧ device.bytes (v.nextOffset + 1) = markV)
    (place : v.nextOffset = lfs.tailOffset + queue.length)
    (inside : v.nextOffset + (device.recAt v.nextOffset).size ≤ device.size)
    (room : queue.length + (device.recAt v.nextOffset).size < wcacheBlocks * device.block)
    {size : Nat} {key : Bytes}
    (ok : visitorBuffer rand ⟨size, lfs⟩ v.nextOffset
      (Meta.decode (device.bytes.read v.nextOffset metaLen)) = .ok (key, kvraw'))
    (next : v'.nextOffset = v.nextOffset + (device.recAt v.nextOffset).size) :
    ∃ queue', Visiting device v' kvraw'.logfs queue' := by
  set r := device.recAt v.nextOffset with r_def
  have size_lt := device.size_lt
  have small := h.small
  have le := h.le
  have bytes : device.bytes.read v.nextOffset r.size = r.bytes := Device.recAt_bytes marked
  have length : (queue ++ r.bytes).length = queue.length + r.size := by simp
  have start : Restoring device (⟨size, lfs⟩ : Kvraw Logfs).logfs (queue, lfs.tailOffset) :=
    h.restoring
  obtain ⟨l, buffered, restoring, mark⟩ := visitorBuffer_spec rand start sane bytes inside
  rw [r_def, Device.recAt_header marked, ok] at buffered
  obtain ⟨-, rfl⟩ := Prod.mk.inj (Except.ok.inj buffered)
  have whole : device.bytes.read lfs.tailOffset (queue.length + r.size) = queue ++ r.bytes := by
    rw [Mem.read_add, h.level place, ← place, bytes]
  have queued : enqueue (wcacheBlocks * device.block) queue r.bytes = queue ++ r.bytes :=
    if_pos (by rwa [Rec.length_bytes])
  simp only [absorb, queued, takeOut, length] at restoring mark
  change ∃ queue', Visiting device v' l queue'
  by_cases full : 4096 ≤ queue.length + r.size
  · simp only [if_pos full] at restoring mark
    rw [Nat.mod_eq_of_lt (by omega)] at restoring
    have tail : l.tailOffset = lfs.tailOffset + 4096 := restoring.tail
    refine ⟨(queue ++ r.bytes).drop device.block, by rwa [tail], by omega, by omega, fun there => ?_,
      fun _ => mark⟩
    simp only [List.length_drop, length] at there ⊢
    rw [tail, ← whole, Mem.drop_read]
    -- the tail offset moves over the bytes that go
    rcases Nat.lt_or_ge (queue.length + r.size) device.block with short | long
    · rw [Nat.sub_eq_zero_of_le (Nat.le_of_lt short)]
      rfl
    · have block : device.block = 4096 := by omega
      rw [block]
  · simp only [if_neg full] at restoring mark
    rw [Nat.mod_eq_of_lt (by omega)] at mark
    have tail : l.tailOffset = lfs.tailOffset := restoring.tail
    refine ⟨queue ++ r.bytes, by rwa [tail], by omega, by omega, fun _ => ?_, fun away => ?_⟩
    · rw [tail, length, whole]
    · omega

theorem visitorNext_advances (ok : visitorNext rand kvraw v = .ok (v', kvraw')) :
    Advances rand v kvraw.logfs v' kvraw'.logfs := by
  simp only [visitorNext] at ok
  split at ok
  · cases ok
  · cases ok
  · next read =>
    cases ok
    exact ⟨_, _, _, read, rfl, rfl⟩
  · next read =>
    split at ok
    · cases ok
    · next buffered =>
      cases ok
      exact ⟨_, _, _, read, fun small => Nat.mod_eq_of_lt small, _, _, _, buffered, rfl⟩

theorem visitorFirst_advances (ok : visitorFirst rand kvraw = .ok (v', kvraw')) :
    Advances rand ⟨0, 0, [], 0, 0, false⟩ kvraw.logfs v' kvraw'.logfs := by
  simp only [visitorFirst] at ok
  split at ok
  · cases ok
  · cases ok
  · cases ok
  · next read =>
    split at ok
    · cases ok
    · next buffered =>
      cases ok
      exact ⟨_, _, _, read, fun _ => by simp only [Nat.zero_add], _, _, _, buffered, rfl⟩

/-- What any record that follows the queue keeps. -/
theorem Visiting.step (h : Visiting device v lfs queue) (sane : device.Sane)
    (follows : v.Follows lfs) (advances : Advances rand v lfs v' lfs') :
    ∃ queue', Visiting device v' lfs' queue' := by
  obtain ⟨size, result, kvraw, read, rest⟩ := advances
  have size_lt := device.size_lt
  have alive : result ≠ .corrupt := by
    rintro rfl
    exact rest
  have start : Restoring device (⟨size, lfs⟩ : Kvraw Logfs).logfs (queue, lfs.tailOffset) :=
    h.restoring
  obtain ⟨restoring, what⟩ := readMeta2_ok start sane read alive
  have same : kvraw.logfs.writeBuffer = lfs.writeBuffer := readMeta2_writeBuffer read
  have tail : kvraw.logfs.tailOffset = lfs.tailOffset := restoring.tail
  -- reading the header moves nothing
  have now : Visiting device v kvraw.logfs queue := by
    refine ⟨by rwa [tail], ?_, ?_, ?_, ?_⟩
    · rw [same]
      exact h.small
    · rw [same]
      exact h.le
    · rw [tail]
      exact h.level
    · rw [tail, same]
      exact h.apart
  obtain rfl | ⟨rfl, marked⟩ := what
  · obtain ⟨next, rfl⟩ := rest
    refine ⟨queue, now.restoring, now.small, now.le, ?_, ?_⟩
    · rw [next]
      exact now.level
    · rw [next]
      exact now.apart
  · obtain ⟨next, size', key, kvraw₂, buffered, rfl⟩ := rest
    have same_rec : lfs.device.recAt v.nextOffset = device.recAt v.nextOffset := by
      simp only [Device.recAt, h.restoring.bytes]
    simp only [Visitor.Follows, same_rec, h.restoring.bytes, h.restoring.geometry.size,
      h.restoring.ringSize, logfsWbAvail_eq h.restoring.queue] at follows
    obtain ⟨place, inside, room⟩ := follows marked
    have parts : (device.recAt v.nextOffset).size = metaLen +
        (Meta.decode (device.bytes.read v.nextOffset metaLen)).keyLen +
        (Meta.decode (device.bytes.read v.nextOffset metaLen)).valLen := by
      simp only [Rec.size, Device.recAt, Mem.length_read]
    apply now.record sane marked (tail ▸ place) inside room buffered
    rw [next (by omega)]
    omega

theorem Visits.visiting (sane : device.Sane) (h : Visits rand device Visitor.Follows v kvraw) :
    ∃ queue, Visiting device v kvraw.logfs queue := by
  induction h with
  | first follows ok =>
    have opened := Restoring.open_ sane
    have start : Visiting device ⟨0, 0, [], 0, 0, false⟩ (logfsOpen device) [] :=
      ⟨opened, (by decide : 0 < 4096), Nat.le_refl 0, fun _ => rfl, fun _ => rfl⟩
    exact start.step sane follows (visitorFirst_advances ok)
  | next _ follows ok ih =>
    obtain ⟨queue, visiting⟩ := ih
    exact visiting.step sane follows (visitorNext_advances ok)

/-- A restore leaves the invariant of the states in use. -/
theorem Visiting.kept (h : Visiting device v lfs queue) (sane : device.Sane) : lfs.Kept := by
  have geometry := h.restoring.geometry
  have holds := h.restoring.queue
  have tail_lt := holds.tail_lt
  have short := holds.short
  have block_pos := device.block_pos
  have block_lt := sane.block_lt
  have small := h.small
  have shaped : lfs.Shaped := by
    refine ⟨?_, ?_, ?_, tail_lt⟩
    · rw [h.restoring.elemSize, geometry.block]
    · rw [h.restoring.ringSize, geometry.block]
    · rw [holds.head]
      exact slot_lt tail_lt short
  have queued : lfs.queued = queue := shaped.queued_eq holds
  refine ⟨⟨?_, ?_⟩, shaped, sane.sameGeometry geometry, ?_⟩
  · rw [logfsWbAvail_eq holds]
    exact h.le
  · rw [queued, h.restoring.bytes]
    by_cases level : v.nextOffset = lfs.tailOffset + queue.length
    · rw [← Mem.take_read device.bytes h.le, h.level level]
    · rw [h.apart level]
      rfl
  · rw [geometry.block]
    rcases Nat.le_total lfs.writeBuffer.lastAvail device.block with one | more
    · exact (roundUp_le block_pos (Nat.dvd_refl _) one).trans_lt block_lt
    · have tight := (roundUp_spec (n := lfs.writeBuffer.lastAvail) block_pos).2.2
      omega

/-- The states in use keep the mark, and the zeros behind it if every restore left them. -/
theorem Logfs.InUse.kept {restores : Logfs → Prop} (sane : device.Sane)
    (h : lfs.InUse rand device Visitor.Follows restores LogOp.Regular) :
    lfs.Kept ∧ ((∀ l, restores l → l.Padded) → lfs.Padded) := by
  induction h with
  | opened =>
    obtain ⟨kept, padded⟩ := (Logfs.Reachable.opened device).shaped.kept sane rfl
    exact ⟨kept, fun _ => padded⟩
  | restored visits restored =>
    obtain ⟨queue, visiting⟩ := visits.visiting sane
    exact ⟨visiting.kept sane, fun padded => padded _ restored⟩
  | call _ c regular ok ih =>
    obtain ⟨kept, padded⟩ := ih
    have leads := kept.step regular ok
    exact ⟨leads.kept, fun restored => leads.padded (padded restored)⟩

/-- `kvraw_visitor_init` is the first two steps of a restore. -/
theorem Visits.init {records : Visitor → Logfs → Prop}
    (first : records ⟨0, 0, [], 0, 0, false⟩ (logfsOpen device))
    (second : ∀ s, visitorFirst rand ⟨0, logfsOpen device⟩ = .ok s → records s.1 s.2.logfs)
    (ok : visitorInit rand ⟨0, logfsOpen device⟩ = .ok (v, kvraw)) :
    Visits rand device records v kvraw := by
  rw [visitorInit_eq] at ok
  cases start : visitorFirst rand ⟨0, logfsOpen device⟩ with
  | error e =>
    rw [start] at ok
    cases ok
  | ok s =>
    rw [start] at ok
    exact (Visits.first first start).next (second s start) ok

/-- A run of regular calls stays in use. -/
theorem Logfs.InUse.run {records : Visitor → Logfs → Prop} {restores : Logfs → Prop}
    {calls : Logfs → LogOp → Prop} (h : lfs.InUse rand device records restores calls)
    (cs : List LogOp) (regular : Meets LogOp.step calls lfs cs)
    (run : cs.foldlM LogOp.step lfs = .ok lfs') : lfs'.InUse rand device records restores calls :=
  foldlM_keeps (fun _ c _ used regular ok => used.call c regular ok) cs h regular run

end

/-- In every state of a handle that was opened or restored, by records that follow the queue, and
then used by regular calls, the device holds the marked bytes, and a peek that is skipped leaves
the same device as one that is not; but for the padding behind the queue, if a restore found
other bytes than zeros there. -/
theorem peek_mark_kept (device : Device) (sane : device.Sane) (rand : Nat → Nat → Nat) :
    (∀ lfs : Logfs, lfs.InUse rand device Visitor.Follows (fun _ => True) LogOp.Regular →
      lfs.Marked ∧ lfs.SkipsAlike) ∧
    ∀ lfs : Logfs, lfs.InUse rand device Visitor.Follows Logfs.Padded LogOp.Regular →
      lfs.SkipsExactly := by
  constructor
  · intro lfs used
    have kept := (used.kept sane).1
    exact ⟨kept.toMarked, kept.skipsAlike⟩
  · intro lfs used
    obtain ⟨kept, padded⟩ := used.kept sane
    exact kept.skipsExactly (padded fun _ zeros => zeros)

/-- A peek that finds the restored block marked, an append that drains it, and two peeks of the
rest. -/
def markCalls : List LogOp := [.flush true, .append [5, 6], .flush true, .flush true]

theorem peek_mark_kept_restored :
    ∃ lfs : Logfs, lfs.InUse (fun _ _ => 0) twoRecDevice Visitor.Follows Logfs.Padded
        LogOp.Regular ∧
      lfs.writeBuffer.lastAvail = 2 ∧ lfs.Marked ∧ lfs.SkipsAlike ∧ lfs.SkipsExactly := by
  obtain ⟨s, init, rounded, regular, lfs, run, marks⟩ :
      Returns (visitorInit (fun _ _ => 0) ⟨0, logfsOpen twoRecDevice⟩) fun s =>
        roundUp s.2.logfs.writeBuffer.lastAvail s.2.logfs.device.block =
            s.2.logfs.writeBuffer.lastAvail ∧
          Meets LogOp.step LogOp.Regular s.2.logfs markCalls ∧
          Returns (markCalls.foldlM LogOp.step s.2.logfs) fun lfs =>
            lfs.writeBuffer.lastAvail = 2 := by
    decide +kernel
  obtain ⟨s₁, first, follows₁⟩ :
      Returns (visitorFirst (fun _ _ => 0) ⟨0, logfsOpen twoRecDevice⟩) fun s =>
        s.1.Follows s.2.logfs := by
    decide +kernel
  have follows : (⟨0, 0, [], 0, 0, false⟩ : Visitor).Follows (logfsOpen twoRecDevice) := by
    decide +kernel
  have visits : Visits (fun _ _ => 0) twoRecDevice Visitor.Follows s.1 s.2 := by
    refine Visits.init follows (fun s' found => ?_) init
    obtain rfl := Except.ok.inj (first.symm.trans found)
    exact follows₁
  have padded : s.2.logfs.Padded := by
    intro x ge lt
    rw [rounded] at lt
    omega
  have used : ∀ restores, restores s.2.logfs → lfs.InUse (fun _ _ => 0) twoRecDevice
      Visitor.Follows restores LogOp.Regular :=
    fun restores restored => (Logfs.InUse.restored visits restored).run markCalls regular run
  obtain ⟨holds, exactly⟩ := peek_mark_kept twoRecDevice twoRecDevice_sane fun _ _ => 0
  obtain ⟨marked, alike⟩ := holds lfs (used _ trivial)
  exact ⟨lfs, used _ padded, marks, marked, alike, exactly lfs (used _ padded)⟩

/-- A device of 64 blocks of 4 bytes with a record that is longer than the ring. -/
def largeRecDevice : Device :=
  { blankDevice with bytes := fun x => (logBytes [dummy, ⟨[1], List.replicate 120 7, 0⟩]).getD x 0 }

/-- Two bytes are peeked, and an append fills the ring of 128 bytes: the byte that is appended next
is not written by a peek. And the mark counts a record that the ring did not take. -/
theorem peek_mark_stale :
    blankDevice.Sane ∧ largeRecDevice.Sane ∧
    (∃ lfs : Logfs, lfs.InUse (fun _ _ => 0) blankDevice (fun _ _ => True) (fun _ => True)
        (fun _ _ => True) ∧ ¬ lfs.Marked ∧ ¬ lfs.SkipsAlike) ∧
    ∃ lfs : Logfs, lfs.InUse (fun _ _ => 0) largeRecDevice (fun _ _ => True) (fun _ => True)
        (fun _ _ => True) ∧ ¬ lfs.Marked := by
  refine ⟨⟨⟨2, rfl⟩, by decide, fun _ => rfl⟩, ⟨⟨2, rfl⟩, by decide, fun _ => rfl⟩, ?_, ?_⟩
  · obtain ⟨lfs, run, mark, avail, tail, skips, skipped, peek, forced, force, differ⟩ :
        Returns ([.append [1, 2], .flush true, .append (List.replicate 126 3), .append [9]].foldlM
          LogOp.step (logfsOpen blankDevice)) fun lfs =>
            lfs.writeBuffer.lastAvail = 2 ∧ logfsWbAvail lfs = 1 ∧ lfs.tailOffset = 0 ∧
              lfs.writeBuffer.ahead lfs.writeBuffer.head ≤ lfs.writeBuffer.lastAvail ∧
              Returns lfs.peek fun skipped => Returns lfs.unmark.peek fun forced =>
                forced.device.bytes 0 ≠ skipped.device.bytes 0 := by
      decide +kernel
    refine ⟨lfs, Logfs.InUse.opened.run _ (Meets.of_forall (fun _ _ => trivial) _ _) run,
      fun marked => ?_, fun alike => ?_⟩
    · have le := marked.le
      omega
    · obtain same | ⟨behind, _⟩ := alike skips skipped forced peek force 0
      · exact differ same
      · omega
  · obtain ⟨s, init, mark⟩ :
        Returns (visitorInit (fun _ _ => 0) ⟨0, logfsOpen largeRecDevice⟩) fun s =>
          logfsWbAvail s.2.logfs < s.2.logfs.writeBuffer.lastAvail := by
      decide +kernel
    refine ⟨s.2.logfs, .restored (Visits.init trivial (fun _ _ => trivial) init) trivial,
      fun marked => ?_⟩
    have le := marked.le
    omega

end OsProjects.KeyValue
