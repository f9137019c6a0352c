import OsProjects.KeyValue.CacheFlush

/-!
# Flush passes whose write fails

A pass takes its bytes out of the write buffer before it writes them. When the write of a
drain fails these bytes are in neither place, and the tail offset no longer belongs to the
bytes that are left. When the write of a peek fails the bytes stay queued, but the mark of
the last peek tells the next one that there is nothing new to write.
-/
namespace OsProjects.KeyValue
open OsProjects.Library

/-- A pass whose `device_write` returns -1. Its buffer was allocated: the size is an `int`. -/
structure Logfs.Fails (lfs : Logfs) (buf : Bytes) (lfs' : Logfs) : Prop where
  dequeue : ∃ wb, writeBufferDequeue lfs.writeBuffer lfs.device.block lfs.dontDequeueWb =
    .ok (some buf, wb)
  some_ : buf ≠ []
  allocated : buf.length < 2 ^ 31
  write : ∃ device, deviceWrite lfs.device buf lfs.tailOffset = .ok (false, device)
  pass : flusherPass lfs = .ok lfs'

/-- The state that a later pass finds, after `more` was appended. -/
def Logfs.resume (lfs : Logfs) (more : Bytes) (dontDequeueWb : Bool) : Logfs :=
  { lfs with
    writeBuffer := (writeBufferAdd lfs.writeBuffer more).2
    dontDequeueWb := dontDequeueWb }

/-- The queue with `more` behind it stays short of the ring and fits the device, and the kernel
completes the write of the later pass. -/
structure Logfs.CanResume (lfs : Logfs) (more : Bytes) : Prop where
  room : logfsWbAvail lfs + more.length + 1 < lfs.writeBuffer.size
  fits : lfs.tailOffset + (logfsWbAvail lfs + more.length) ≤ lfs.device.size
  transfer : roundUp (logfsWbAvail lfs + more.length) lfs.device.block ≤ 0x7ffff000
  works : lfs.device.works (lfs.device.transfers + 1) = true

/-- Nothing is lost by a failed pass: the queue and its offset are as before, and the later pass
puts the bytes that it takes, all or the oldest block, at their offset and keeps the others. -/
structure Logfs.Recovers (lfs lfs' : Logfs) (more : Bytes) (dontDequeueWb : Bool) : Prop where
  queued : lfs'.queued = lfs.queued
  tailOffset : lfs'.tailOffset = lfs.tailOffset
  later : ∃ buf lfs₂, (lfs'.resume more dontDequeueWb).Writes buf lfs₂ ∧
    (dontDequeueWb = true →
      lfs₂.device.bytes.read lfs.tailOffset (logfsWbAvail lfs) = lfs.queued) ∧
    (dontDequeueWb = false →
      lfs₂.device.bytes.read lfs.tailOffset (min lfs.device.block (logfsWbAvail lfs)) =
          lfs.queued.take lfs.device.block ∧
        lfs₂.tailOffset = lfs.tailOffset + lfs.device.block ∧
        lfs₂.queued = (lfs.queued ++ more).drop lfs.device.block)

section
variable {lfs lfs' : Logfs} {buf : Bytes}

theorem deviceWrite_failed {device next : Device} {off : Nat}
    (h : deviceWrite device buf off = .ok (false, next)) :
    device.block ∣ off ∧ device.block ∣ buf.length ∧
      next = { device with transfers := device.transfers + 1 } := by
  unfold deviceWrite at h
  split at h
  · cases h
  · next guard =>
    simp only [not_or, not_not] at guard
    simp only at h
    split at h
    · cases h
    · cases h
      exact ⟨Nat.dvd_of_mod_eq_zero guard.1, Nat.dvd_of_mod_eq_zero guard.2.1, rfl⟩

/-- What a failed pass changes. -/
theorem Logfs.Fails.result (fails : lfs.Fails buf lfs') :
    lfs.device.block ∣ lfs.tailOffset ∧ lfs.device.block < 2 ^ 31 ∧
      ∃ wb, writeBufferDequeue lfs.writeBuffer lfs.device.block lfs.dontDequeueWb =
          .ok (some buf, wb) ∧
        lfs' = { lfs with
          writeBuffer := wb
          device := { lfs.device with transfers := lfs.device.transfers + 1 } } := by
  obtain ⟨wb, dequeue⟩ := fails.dequeue
  obtain ⟨device, write⟩ := fails.write
  obtain ⟨aligned, whole, rfl⟩ := deviceWrite_failed write
  have pos : 0 < buf.length := List.length_pos_of_ne_nil fails.some_
  have le := Nat.le_of_dvd pos whole
  have allocated := fails.allocated
  refine ⟨aligned, by omega, wb, dequeue, ?_⟩
  have pass := fails.pass
  simp only [flusherPass, dequeue, if_neg fails.some_, write] at pass
  exact (Except.ok.inj pass).symm

/-- What a ring holds is determined. -/
theorem Logfs.Shaped.queued_eq {bs : Bytes} (shaped : lfs.Shaped) (h : lfs.writeBuffer.Holds bs) :
    lfs.queued = bs := by
  have length : lfs.queued.length = bs.length := by
    rw [Logfs.length_queued, logfsWbAvail_eq h]
  apply List.ext_getElem length
  intro i left right
  have here := h.ring i bs[i] (List.getElem?_eq_getElem right)
  have there := shaped.holds.ring i lfs.queued[i] (List.getElem?_eq_getElem left)
  exact there.symm.trans here

theorem Logfs.Shaped.divides (h : lfs.Shaped) (power : ∃ k, lfs.device.block = 2 ^ k) :
    Divides64 lfs.writeBuffer.size := by
  obtain ⟨k, power⟩ := power
  have block_lt := lfs.device.block_lt
  have small : k < 32 := by
    rw [power] at block_lt
    exact (Nat.pow_lt_pow_iff_right (by decide)).mp block_lt
  have size : lfs.writeBuffer.size = 2 ^ (5 + k) := by
    rw [h.ringSize, power, wcacheBlocks, Nat.pow_add]
  rw [size]
  exact ⟨Nat.pow_lt_pow_right (by decide) (by omega), Nat.pow_dvd_pow 2 (by omega)⟩

/-- A failed drain has lost the oldest block. -/
theorem Logfs.Fails.drained (h : lfs.Shaped) (divides : Divides64 lfs.writeBuffer.size)
    (fails : lfs.Fails buf lfs') (mode : lfs.dontDequeueWb = false) :
    lfs'.queued = lfs.queued.drop lfs.device.block ∧ lfs.queued ≠ [] := by
  have block_pos := lfs.device.block_pos
  have ringSize := h.ringSize
  simp only [wcacheBlocks] at ringSize
  obtain ⟨_, block_lt, wb, dequeue, rfl⟩ := fails.result
  rw [mode] at dequeue
  have some_ : lfs.queued ≠ [] := by
    intro empty
    have none_ := writeBufferDequeue_empty (empty ▸ h.holds) divides.lt (by omega) lfs.device.block
      false
    rw [none_] at dequeue
    cases dequeue
  obtain ⟨wb', drain, holds, size, _⟩ := writeBufferDequeue_drain h.holds divides some_ block_pos
    block_lt (by omega)
  rw [drain] at dequeue
  obtain ⟨_, rfl⟩ := Prod.mk.inj (Except.ok.inj dequeue)
  refine ⟨?_, some_⟩
  have shaped : Logfs.Shaped { lfs with
      writeBuffer := wb'
      device := { lfs.device with transfers := lfs.device.transfers + 1 } } := h.pass fails.pass
  exact shaped.queued_eq holds

/-- A failed peek leaves the queue, and the mark of all its bytes. -/
theorem Logfs.Fails.peeked (h : lfs.Shaped) (fails : lfs.Fails buf lfs')
    (mode : lfs.dontDequeueWb = true) :
    0 < logfsWbAvail lfs ∧ lfs' = { lfs with
      writeBuffer := { lfs.writeBuffer with lastAvail := logfsWbAvail lfs }
      device := { lfs.device with transfers := lfs.device.transfers + 1 } } := by
  obtain ⟨_, block_lt, wb, dequeue, same⟩ := fails.result
  rw [mode] at dequeue
  obtain ⟨_, new, _, rfl⟩ := h.peeked block_lt dequeue fails.allocated
  exact ⟨by omega, same⟩

theorem Logfs.Shaped.resume (h : lfs.Shaped) (more : Bytes) (dontDequeueWb : Bool) :
    (lfs.resume more dontDequeueWb).Shaped := by
  obtain ⟨size, tail, head⟩ := writeBufferAdd_keeps more h.head_lt
  refine ⟨h.elemSize, size.trans h.ringSize, ?_, ?_⟩
  · simp only [Logfs.resume]
    rwa [size]
  · simp only [Logfs.resume]
    rw [size, tail]
    exact h.tail_lt

/-- A pass over a queue that starts at a block offset, when its one write succeeds. -/
theorem Logfs.writes_of_dequeue (lfs : Logfs) {wb : WriteBuffer}
    (elemSize : lfs.readCache.elemSize = lfs.device.block)
    (aligned : lfs.device.block ∣ lfs.tailOffset)
    (works : lfs.device.works lfs.device.transfers = true)
    (dequeue : writeBufferDequeue lfs.writeBuffer lfs.device.block lfs.dontDequeueWb =
      .ok (some buf, wb))
    (some_ : buf ≠ []) (whole : lfs.device.block ∣ buf.length)
    (within : lfs.tailOffset + buf.length ≤ lfs.device.size) (transfer : buf.length ≤ 0x7ffff000) :
    ∃ lfs₂, lfs.Writes buf lfs₂ ∧ lfs₂.writeBuffer = wb ∧
      lfs₂.device.bytes = lfs.device.bytes.write lfs.tailOffset buf ∧
      lfs₂.tailOffset = if lfs.dontDequeueWb then lfs.tailOffset
        else (lfs.tailOffset + buf.length) % 2 ^ 64 := by
  obtain ⟨device, write, bytes, _⟩ := deviceWrite_works works aligned whole within
  have cache_aligned : lfs.readCache.elemSize ∣ lfs.tailOffset := elemSize ▸ aligned
  obtain ⟨rc, invalidate, _, _⟩ :=
    @readCacheInvalidate_spec _ lfs.device.bytes _ cache_aligned buf.length
  exact ⟨_, ⟨⟨wb, dequeue⟩, some_, ⟨device, write⟩, transfer,
    by simp only [flusherPass, dequeue, if_neg some_, write, invalidate]; rfl⟩, rfl, bytes, rfl⟩

/-- The written bytes, read back from their offset. -/
theorem read_padTo_written {m : Mem} {a n k : Nat} {bs : Bytes} (le : k ≤ bs.length) :
    (m.write a (padTo n bs)).read a k = bs.take k := by
  have inside : 0 + k ≤ (padTo n bs).length := by
    rw [length_padTo_max]
    omega
  have written := m.read_write_inside (a := a) inside
  rw [Nat.add_zero, List.drop_zero] at written
  rw [written, padTo, List.take_append_of_le_length le]

/-- A drain writes the oldest block at the tail offset and moves behind it. -/
theorem Logfs.Shaped.drain_writes (h : lfs.Shaped) (divides : Divides64 lfs.writeBuffer.size)
    (mode : lfs.dontDequeueWb = false) (some_ : lfs.queued ≠ [])
    (aligned : lfs.device.block ∣ lfs.tailOffset)
    (works : lfs.device.works lfs.device.transfers = true)
    (fits : lfs.tailOffset + logfsWbAvail lfs ≤ lfs.device.size)
    (transfer : lfs.device.block ≤ 0x7ffff000) :
    ∃ buf lfs₂, lfs.Writes buf lfs₂ ∧
      lfs₂.device.bytes = lfs.device.bytes.write lfs.tailOffset
        (padTo lfs.device.block (lfs.queued.take lfs.device.block)) ∧
      lfs₂.tailOffset = lfs.tailOffset + lfs.device.block ∧
      lfs₂.queued = lfs.queued.drop lfs.device.block := by
  have block_pos := lfs.device.block_pos
  have ringSize := h.ringSize
  simp only [wcacheBlocks] at ringSize
  obtain ⟨wb, drain, holds, _, _⟩ := writeBufferDequeue_drain h.holds divides some_ block_pos
    (by omega) (by omega)
  rw [← mode] at drain
  have length_buf : (padTo lfs.device.block (lfs.queued.take lfs.device.block)).length =
      lfs.device.block := length_padTo (by simp)
  have pos : 0 < logfsWbAvail lfs := Logfs.length_queued ▸ List.length_pos_of_ne_nil some_
  have within := next_block_le aligned lfs.device.whole (by omega)
  have size_lt := lfs.device.size_lt
  obtain ⟨lfs₂, writes, wb_eq, bytes, tail⟩ := lfs.writes_of_dequeue h.elemSize aligned works drain
    (List.ne_nil_of_length_pos (by omega)) (by rw [length_buf]) (by rw [length_buf]; exact within)
    (by rw [length_buf]; exact transfer)
  refine ⟨_, lfs₂, writes, bytes, ?_, (h.pass writes.pass).queued_eq (wb_eq ▸ holds)⟩
  rw [tail, mode, length_buf, if_neg (by simp)]
  exact Nat.mod_eq_of_lt (by omega)

/-- A peek of something new writes the whole queue at the tail offset. -/
theorem Logfs.Shaped.peek_writes (h : lfs.Shaped) (divides : Divides64 lfs.writeBuffer.size)
    (mode : lfs.dontDequeueWb = true) (new : lfs.writeBuffer.lastAvail < logfsWbAvail lfs)
    (room : logfsWbAvail lfs + 1 < lfs.writeBuffer.size)
    (aligned : lfs.device.block ∣ lfs.tailOffset)
    (works : lfs.device.works lfs.device.transfers = true)
    (fits : lfs.tailOffset + logfsWbAvail lfs ≤ lfs.device.size)
    (transfer : roundUp (logfsWbAvail lfs) lfs.device.block ≤ 0x7ffff000) :
    ∃ buf lfs₂, lfs.Writes buf lfs₂ ∧
      lfs₂.device.bytes = lfs.device.bytes.write lfs.tailOffset
        (padTo (roundUp (logfsWbAvail lfs) lfs.device.block) lfs.queued) := by
  have block_pos := lfs.device.block_pos
  have length := @Logfs.length_queued lfs
  have rounds := @roundUp_spec (logfsWbAvail lfs) lfs.device.block block_pos
  have block_le := Nat.le_of_dvd (by omega) rounds.1
  have peek := writeBufferDequeue_peek h.holds divides.lt (by rw [length]; exact room) block_pos
    (by omega) fun _ => by rw [length]; omega
  rw [if_neg (by omega), ← mode, length] at peek
  have length_buf : (padTo (roundUp (logfsWbAvail lfs) lfs.device.block) lfs.queued).length =
      roundUp (logfsWbAvail lfs) lfs.device.block := length_padTo (by rw [length]; exact rounds.2.1)
  have within := roundUp_le block_pos (Nat.dvd_sub lfs.device.whole aligned)
    (by omega : logfsWbAvail lfs ≤ lfs.device.size - lfs.tailOffset)
  obtain ⟨lfs₂, writes, _, bytes, _⟩ := lfs.writes_of_dequeue h.elemSize aligned works peek
    (List.ne_nil_of_length_pos (by omega)) (by rw [length_buf]; exact rounds.1)
    (by rw [length_buf]; omega) (by rw [length_buf]; exact transfer)
  exact ⟨_, lfs₂, writes, bytes⟩

/-- What a later pass finds after a failed peek. -/
theorem Logfs.Fails.resumed {more : Bytes} (h : lfs.Shaped) (fails : lfs.Fails buf lfs')
    (mode : lfs.dontDequeueWb = true) (room : logfsWbAvail lfs + more.length + 1 <
      lfs.writeBuffer.size) (dontDequeueWb : Bool) :
    (lfs'.resume more dontDequeueWb).queued = lfs.queued ++ more ∧
      (lfs'.resume more dontDequeueWb).writeBuffer.size = lfs.writeBuffer.size ∧
      (lfs'.resume more dontDequeueWb).writeBuffer.lastAvail = logfsWbAvail lfs ∧
      (lfs'.resume more dontDequeueWb).device =
        { lfs.device with transfers := lfs.device.transfers + 1 } ∧
      (lfs'.resume more dontDequeueWb).tailOffset = lfs.tailOffset := by
  have shaped : lfs'.Shaped := h.pass fails.pass
  obtain ⟨_, rfl⟩ := fails.peeked h mode
  have length := @Logfs.length_queued lfs
  obtain ⟨wb, add, size, last, both, _⟩ := @writeBufferAdd_fits _ _ shaped.holds more
    (by change lfs.queued.length + _ ≤ lfs.writeBuffer.size; omega)
  have holds := both (by change lfs.queued.length + _ < lfs.writeBuffer.size; omega)
  have resumed := shaped.resume more dontDequeueWb
  have wb_eq : wb = (writeBufferAdd { lfs.writeBuffer with lastAvail := logfsWbAvail lfs } more).2 :=
    (congrArg Prod.snd add).symm
  subst wb_eq
  exact ⟨resumed.queued_eq holds, size, last, rfl, rfl⟩

/-- After a failed peek a later pass that takes something writes it where it belongs. -/
theorem Logfs.Fails.recovers {more : Bytes} {dontDequeueWb : Bool} (h : lfs.Shaped)
    (divides : Divides64 lfs.writeBuffer.size) (fails : lfs.Fails buf lfs')
    (mode : lfs.dontDequeueWb = true) (can : lfs.CanResume more)
    (takes : dontDequeueWb = false ∨ more ≠ []) : lfs.Recovers lfs' more dontDequeueWb := by
  obtain ⟨aligned, _⟩ := fails.result
  obtain ⟨pos, same⟩ := fails.peeked h mode
  obtain ⟨room, fits, transfer, works⟩ := can
  obtain ⟨queued, size, last, device, tail⟩ := fails.resumed h mode room dontDequeueWb
  have resumed : (lfs'.resume more dontDequeueWb).Shaped :=
    Logfs.Shaped.resume (h.pass fails.pass) more dontDequeueWb
  have length := @Logfs.length_queued lfs
  have avail : logfsWbAvail (lfs'.resume more dontDequeueWb) =
      logfsWbAvail lfs + more.length := by
    rw [← Logfs.length_queued, queued, List.length_append, length]
  refine ⟨by rw [same]; rfl, by rw [same], ?_⟩
  cases dontDequeueWb with
  | false =>
    have some_ : (lfs'.resume more false).queued ≠ [] := by
      rw [queued]
      exact List.ne_nil_of_length_pos (by rw [List.length_append]; omega)
    have rounds := @roundUp_spec (logfsWbAvail lfs + more.length) lfs.device.block
      lfs.device.block_pos
    have block_le := Nat.le_of_dvd (by omega) rounds.1
    obtain ⟨buf, lfs₂, writes, bytes, offset, rest⟩ := resumed.drain_writes
      (by rw [size]; exact divides) rfl some_ (by rw [device, tail]; exact aligned)
      (by rw [device]; exact works) (by rw [device, tail, avail]; exact fits)
      (by rw [device]; exact block_le.trans transfer)
    rw [device, tail, queued] at bytes
    rw [device, tail] at offset
    rw [device, queued] at rest
    dsimp only at bytes offset rest
    refine ⟨buf, lfs₂, writes, by simp, fun _ => ⟨?_, offset, rest⟩⟩
    rw [bytes, read_padTo_written (by rw [List.length_take, List.length_append]; omega),
      List.take_take, ← length, List.take_append_of_le_length (by omega),
      show min (min lfs.device.block lfs.queued.length) lfs.device.block =
        min lfs.device.block lfs.queued.length by omega]
    exact List.take_eq_take_min.symm
  | true =>
    have more_pos : 0 < more.length := List.length_pos_of_ne_nil (takes.resolve_left (by simp))
    obtain ⟨buf, lfs₂, writes, bytes⟩ := resumed.peek_writes (by rw [size]; exact divides) rfl
      (by rw [last, avail]; omega) (by rw [size, avail]; exact room)
      (by rw [device, tail]; exact aligned) (by rw [device]; exact works)
      (by rw [device, tail, avail]; exact fits) (by rw [device, avail]; exact transfer)
    rw [device, tail, queued] at bytes
    refine ⟨buf, lfs₂, writes, fun _ => ?_, by simp⟩
    rw [bytes, read_padTo_written (by rw [List.length_append]; omega), ← length, List.take_left]

/-- A peek of the bytes that the failed peek took is skipped. -/
theorem Logfs.Fails.skipped (h : lfs.Shaped) (fails : lfs.Fails buf lfs')
    (mode : lfs.dontDequeueWb = true) {buf₂ : Bytes} {lfs₂ : Logfs}
    (room : logfsWbAvail lfs + 1 < lfs.writeBuffer.size)
    (size_lt : lfs.writeBuffer.size < 2 ^ 64) : ¬ (lfs'.resume [] true).Writes buf₂ lfs₂ := by
  intro writes
  have block_pos := lfs.device.block_pos
  obtain ⟨_, block_lt, _⟩ := fails.result
  obtain ⟨_, same⟩ := fails.peeked h mode
  have shaped : lfs'.Shaped := h.pass fails.pass
  have queued : lfs'.queued = lfs.queued := by rw [same]; rfl
  have size' : lfs'.writeBuffer.size = lfs.writeBuffer.size := by rw [same]
  have length := @Logfs.length_queued lfs
  have holds : lfs'.writeBuffer.Holds lfs.queued := queued ▸ shaped.holds
  obtain ⟨wb, add, size, last, both, _⟩ := @writeBufferAdd_fits _ _ holds []
    (by rw [length, size', List.length_nil]; omega)
  have holds₁ : wb.Holds lfs.queued := by
    simpa using both (by rw [length, size', List.length_nil]; omega)
  have old : lfs.queued.length ≤ wb.lastAvail := by
    rw [last, same, length]
  have peek := writeBufferDequeue_peek holds₁ (by rw [size, size']; exact size_lt)
    (by rw [length, size, size']; exact room) block_pos block_lt (fun new => by omega)
  rw [if_pos old] at peek
  obtain ⟨wb₂, dequeue⟩ := writes.dequeue
  have block' : lfs'.device.block = lfs.device.block := by rw [same]
  simp only [Logfs.resume, add, block'] at dequeue
  rw [peek] at dequeue
  cases dequeue

end

/-- In every reachable state and for every later pass: a pass whose write fails loses nothing
exactly when it peeks and the later pass drains or finds new bytes. -/
theorem failed_pass_recovers_iff (lfs lfs' : Logfs) (buf more : Bytes) (dontDequeueWb : Bool)
    (reachable : lfs.Reachable) (power : ∃ k, lfs.device.block = 2 ^ k)
    (fails : lfs.Fails buf lfs') (can : lfs.CanResume more) :
    lfs.Recovers lfs' more dontDequeueWb ↔
      lfs.dontDequeueWb = true ∧ (dontDequeueWb = false ∨ more ≠ []) := by
  have shaped := reachable.shaped
  have divides := shaped.divides power
  constructor
  · intro recovers
    cases mode : lfs.dontDequeueWb with
    | false =>
      obtain ⟨drained, some_⟩ := fails.drained shaped divides mode
      have block_pos := lfs.device.block_pos
      have lengths := congrArg List.length (drained.symm.trans recovers.queued)
      have pos := List.length_pos_of_ne_nil some_
      rw [List.length_drop] at lengths
      omega
    | true =>
      refine ⟨rfl, ?_⟩
      by_contra neither
      obtain ⟨peeks, same⟩ := not_or.mp neither
      obtain rfl : more = [] := not_not.mp same
      obtain rfl : dontDequeueWb = true := by simpa using peeks
      obtain ⟨buf₂, lfs₂, writes, _⟩ := recovers.later
      have room := can.room
      exact fails.skipped shaped mode (by simpa using room) divides.lt writes
  · rintro ⟨mode, takes⟩
    exact fails.recovers shaped divides mode can takes

/-- The buffer and the next state of a pass whose write fails. -/
def Logfs.failing (lfs : Logfs) : Option (Bytes × Logfs) :=
  match writeBufferDequeue lfs.writeBuffer lfs.device.block lfs.dontDequeueWb with
  | .ok (some buf, _) =>
    match deviceWrite lfs.device buf lfs.tailOffset, flusherPass lfs with
    | .ok (false, _), .ok lfs' =>
      if buf ≠ [] ∧ buf.length < 2 ^ 31 then some (buf, lfs') else none
    | _, _ => none
  | _ => none

theorem Logfs.failing_eq {lfs lfs' : Logfs} {buf : Bytes} (h : lfs.failing = some (buf, lfs')) :
    lfs.Fails buf lfs' := by
  unfold Logfs.failing at h
  split at h
  · next wb dequeue =>
    split at h
    · next device next_ write pass =>
      split at h
      · next bounds =>
        obtain ⟨rfl, rfl⟩ := Prod.mk.inj (Option.some.inj h)
        exact ⟨⟨wb, dequeue⟩, bounds.1, bounds.2, ⟨device, write⟩, pass⟩
      · cases h
    · cases h
  · cases h

/-- Six bytes are queued for a device of blocks of 4 bytes whose first transfer fails. -/
def flakyQueue (dontDequeueWb : Bool) : Logfs :=
  (logfsOpen { blankDevice with works := fun n => n != 0 }).resume [1, 2, 3, 4, 5, 6] dontDequeueWb

theorem flakyQueue_reachable (dontDequeueWb : Bool) : (flakyQueue dontDequeueWb).Reachable :=
  .request dontDequeueWb (.add [1, 2, 3, 4, 5, 6] (.opened _))

theorem flakyQueue_canResume (dontDequeueWb : Bool) (more : Bytes) (short : more.length ≤ 10) :
    (flakyQueue dontDequeueWb).CanResume more := by
  have avail : logfsWbAvail (flakyQueue dontDequeueWb) = 6 := by
    cases dontDequeueWb <;> decide +kernel
  have size : (flakyQueue dontDequeueWb).writeBuffer.size = 128 := rfl
  have rounds := @roundUp_spec (6 + more.length) 4 (by decide)
  refine ⟨by rw [avail, size]; omega, ?_, ?_, rfl⟩
  · rw [avail]
    change 0 + (6 + more.length) ≤ 256
    omega
  · rw [avail]
    change roundUp (6 + more.length) 4 ≤ _
    omega

/-- The failed drain has lost four bytes and would write the fifth at offset 0; the failed peek is
not repeated. -/
theorem failed_pass_loses :
    (∃ (lfs : Logfs) (buf : Bytes) (lfs' : Logfs), lfs.Reachable ∧ lfs.Fails buf lfs' ∧ lfs.queued = [1, 2, 3, 4, 5, 6] ∧
      lfs'.queued = [5, 6] ∧ lfs'.tailOffset = 0 ∧
      ∀ more dontDequeueWb, ¬ lfs.Recovers lfs' more dontDequeueWb) ∧
    ∃ (lfs : Logfs) (buf : Bytes) (lfs' : Logfs), lfs.Reachable ∧ lfs.Fails buf lfs' ∧ lfs.dontDequeueWb = true ∧
      ((lfs'.resume [] true).writeBuffer.lastAvail = 6 ∧
        ∀ buf₂ lfs₂, ¬ (lfs'.resume [] true).Writes buf₂ lfs₂) := by
  constructor
  · have drain : (flakyQueue false).failing.map (fun r => (r.2.queued, r.2.tailOffset)) =
        some ([5, 6], 0) := by decide +kernel
    obtain ⟨⟨buf, lfs'⟩, failing, result⟩ := Option.map_eq_some_iff.mp drain
    obtain ⟨queued, tailOffset⟩ := Prod.mk.inj result
    have all : (flakyQueue false).queued = [1, 2, 3, 4, 5, 6] := by decide +kernel
    refine ⟨_, buf, lfs', flakyQueue_reachable false, Logfs.failing_eq failing, all, queued,
      tailOffset, fun more dontDequeueWb recovers => ?_⟩
    have same := queued.symm.trans (recovers.queued.trans all)
    cases same
  · have peek : (flakyQueue true).failing.map (fun r => (r.2.resume [] true).writeBuffer.lastAvail) =
        some 6 := by decide +kernel
    obtain ⟨⟨buf, lfs'⟩, failing, result⟩ := Option.map_eq_some_iff.mp peek
    have fails := Logfs.failing_eq failing
    have shaped := (flakyQueue_reachable true).shaped
    refine ⟨_, buf, lfs', flakyQueue_reachable true, fails, rfl, result, fun buf₂ lfs₂ => ?_⟩
    exact fails.skipped shaped rfl (by decide) (shaped.divides ⟨2, rfl⟩).lt

/-- A failed peek of six bytes, then a peek with a seventh. -/
theorem failed_pass_recovers_iff_more :
    ∃ buf lfs', (flakyQueue true).Fails buf lfs' ∧
      ((flakyQueue true).Recovers lfs' [7] true ↔
        (flakyQueue true).dontDequeueWb = true ∧ (true = false ∨ [7] ≠ ([] : Bytes))) := by
  have peek : (flakyQueue true).failing.isSome = true := by decide +kernel
  obtain ⟨⟨buf, lfs'⟩, failing⟩ := Option.isSome_iff_exists.mp peek
  have fails := Logfs.failing_eq failing
  exact ⟨buf, lfs', fails, failed_pass_recovers_iff (flakyQueue true) lfs' buf [7] true
    (flakyQueue_reachable true) ⟨2, rfl⟩ fails (flakyQueue_canResume true [7] (by decide))⟩

end OsProjects.KeyValue
