import OsProjects.KeyValue.FailedFlush

/-!
# The retry loop of `logfs_append`

Each pass of the loop takes the oldest block out of the write buffer. With an empty write
buffer nothing changes any more, so that bytes which do not even fit an empty ring are
tried for ever. The other way not to get them in is a tail offset that is not a block
offset: the first drain ends the process.
-/
namespace OsProjects.KeyValue
open OsProjects.Library

/-- After some flush passes `write_buffer_add` accepts the bytes. -/
def Logfs.Accepts (lfs : Logfs) (buf : Bytes) : Prop :=
  ∃ fuel lfs', addWhenRoom buf fuel lfs = .ok lfs'

/-- The blocks of the queue lie on the device. -/
def Logfs.QueueFits (lfs : Logfs) : Prop :=
  lfs.tailOffset + roundUp (logfsWbAvail lfs) lfs.device.block ≤ lfs.device.size

section
variable {lfs lfs' : Logfs} {buf : Bytes} {fuel : Nat}

/-- A write of whole blocks on the device does not end the process. -/
theorem deviceWrite_within {device : Device} {off : Nat} (aligned : device.block ∣ off)
    (whole : device.block ∣ buf.length) (within : off + buf.length ≤ device.size) :
    ∃ done next, deviceWrite device buf off = .ok (done, next) ∧ next.SameGeometry device := by
  have guard : ¬ (off % device.block ≠ 0 ∨ buf.length % device.block ≠ 0 ∨
      device.size < (off + buf.length) % 2 ^ 64) := by
    rw [Nat.mod_eq_zero_of_dvd aligned, Nat.mod_eq_zero_of_dvd whole]
    have := Nat.mod_le (off + buf.length) (2 ^ 64)
    omega
  unfold deviceWrite
  rw [if_neg guard]
  simp only
  split_ifs
  · exact ⟨true, _, rfl, rfl, rfl, rfl⟩
  · exact ⟨false, _, rfl, rfl, rfl, rfl⟩

theorem Logfs.Shaped.room (h : lfs.Shaped) : lfs.device.block + 1 < lfs.writeBuffer.size := by
  have block_pos := lfs.device.block_pos
  rw [h.ringSize, wcacheBlocks]
  omega

theorem Logfs.Shaped.queued_lt (h : lfs.Shaped) : logfsWbAvail lfs < lfs.writeBuffer.size := by
  have short := h.holds.short
  rwa [Logfs.length_queued] at short

/-- Without room for the bytes the loop makes a pass. -/
theorem Logfs.Shaped.retries (h : lfs.Shaped)
    (full : lfs.writeBuffer.size < logfsWbAvail lfs + buf.length) :
    addWhenRoom buf (fuel + 1) lfs =
      (flusherPass { lfs with dontDequeueWb := false }).bind (addWhenRoom buf fuel) := by
  have rejected : writeBufferAdd lfs.writeBuffer buf = (1, lfs.writeBuffer) :=
    writeBufferAdd_full h.holds (by rwa [Logfs.length_queued])
  simp only [addWhenRoom, rejected]
  cases flusherPass { lfs with dontDequeueWb := false } <;> rfl

theorem Logfs.Shaped.add_fits (h : lfs.Shaped)
    (fits : logfsWbAvail lfs + buf.length ≤ lfs.writeBuffer.size) :
    ∃ lfs', addWhenRoom buf (fuel + 1) lfs = .ok lfs' := by
  obtain ⟨wb, add, _⟩ := writeBufferAdd_fits h.holds
    (by rwa [Logfs.length_queued] : lfs.queued.length + buf.length ≤ lfs.writeBuffer.size)
  exact ⟨{ lfs with writeBuffer := wb }, by simp only [addWhenRoom, add]⟩

/-- What the drain of a queue gives to `device_write`, and what stays queued. -/
theorem Logfs.Shaped.dequeues (h : lfs.Shaped) (divides : Divides64 lfs.writeBuffer.size)
    (block_lt : lfs.device.block < 2 ^ 31) (some_ : 0 < logfsWbAvail lfs) :
    ∃ bytes wb, writeBufferDequeue lfs.writeBuffer lfs.device.block false =
        .ok (some bytes, wb) ∧ bytes.length = lfs.device.block ∧
      ∀ lfs₁ : Logfs, lfs₁.writeBuffer = wb →
        logfsWbAvail lfs₁ = logfsWbAvail lfs - lfs.device.block := by
  have queue : lfs.queued ≠ [] := List.ne_nil_of_length_pos (by rwa [Logfs.length_queued])
  obtain ⟨wb, dequeue, holds, _⟩ := writeBufferDequeue_drain h.holds divides queue
    lfs.device.block_pos block_lt h.room
  refine ⟨_, wb, dequeue, length_padTo (List.length_take_le _ _), fun lfs₁ same => ?_⟩
  rw [← same] at holds
  rw [logfsWbAvail_eq holds, List.length_drop, Logfs.length_queued]

/-- A pass of the loop over a queue that fits the device. -/
theorem Logfs.Shaped.drains (h : lfs.Shaped) (divides : Divides64 lfs.writeBuffer.size)
    (block_lt : lfs.device.block < 2 ^ 31) (some_ : 0 < logfsWbAvail lfs)
    (aligned : lfs.device.block ∣ lfs.tailOffset) (fits : lfs.QueueFits) :
    ∃ lfs', flusherPass { lfs with dontDequeueWb := false } = .ok lfs' ∧
      lfs'.device.SameGeometry lfs.device ∧ lfs'.device.block ∣ lfs'.tailOffset ∧
      logfsWbAvail lfs' = logfsWbAvail lfs - lfs.device.block ∧
      (0 < logfsWbAvail lfs' → lfs'.QueueFits) := by
  have block_pos := lfs.device.block_pos
  have size_lt := lfs.device.size_lt
  obtain ⟨bytes, wb, dequeue, length, left⟩ := h.dequeues divides block_lt some_
  obtain ⟨rounded, le, _⟩ := roundUp_spec (n := logfsWbAvail lfs) block_pos
  have block_le : lfs.device.block ≤ roundUp (logfsWbAvail lfs) lfs.device.block :=
    Nat.le_of_dvd (by omega) rounded
  have nonempty : bytes ≠ [] := List.ne_nil_of_length_pos (by omega)
  have cache_aligned : lfs.readCache.elemSize ∣ lfs.tailOffset := h.elemSize ▸ aligned
  obtain ⟨rc, invalidate, _⟩ :=
    @readCacheInvalidate_spec _ lfs.device.bytes _ cache_aligned bytes.length
  unfold Logfs.QueueFits at fits ⊢
  -- whether or not the kernel completes the write, the block is out of the queue
  have later : lfs.device.block < logfsWbAvail lfs →
      roundUp (logfsWbAvail lfs - lfs.device.block) lfs.device.block + lfs.device.block ≤
        roundUp (logfsWbAvail lfs) lfs.device.block := by
    intro more
    have := roundUp_le block_pos (Nat.dvd_sub rounded (Nat.dvd_refl lfs.device.block))
      (Nat.sub_le_sub_right le lfs.device.block)
    omega
  obtain ⟨done, device, write, geometry⟩ := deviceWrite_within aligned
    (length ▸ Nat.dvd_refl _ : lfs.device.block ∣ bytes.length) (by rw [length]; omega)
  cases done with
  | false =>
    have pass : flusherPass { lfs with dontDequeueWb := false } =
        .ok { lfs with dontDequeueWb := false, writeBuffer := wb, device := device } := by
      simp only [flusherPass, dequeue, if_neg nonempty, write]
    refine ⟨_, pass, geometry, geometry.block ▸ aligned, left _ rfl, fun more => ?_⟩
    rw [left _ rfl] at more ⊢
    have := later (by omega)
    simp only [geometry.block, geometry.size]
    omega
  | true =>
    have moved : (lfs.tailOffset + bytes.length) % 2 ^ 64 = lfs.tailOffset + lfs.device.block := by
      rw [length, Nat.mod_eq_of_lt (by omega)]
    have pass : flusherPass { lfs with dontDequeueWb := false } = .ok { lfs with
        dontDequeueWb := false
        writeBuffer := wb
        device := device
        readCache := rc
        tailOffset := lfs.tailOffset + lfs.device.block } := by
      simp only [flusherPass, dequeue, if_neg nonempty, write, invalidate, ← moved]
      rfl
    refine ⟨_, pass, geometry, ?_, left _ rfl, fun more => ?_⟩
    · simp only [geometry.block]
      exact Nat.dvd_add aligned (Nat.dvd_refl _)
    · rw [left _ rfl] at more ⊢
      have := later (by omega)
      simp only [geometry.block, geometry.size]
      omega

/-- A drain to a tail offset inside a block ends the process. -/
theorem Logfs.Shaped.drain_exits (h : lfs.Shaped) (divides : Divides64 lfs.writeBuffer.size)
    (block_lt : lfs.device.block < 2 ^ 31) (some_ : 0 < logfsWbAvail lfs)
    (inside : ¬ lfs.device.block ∣ lfs.tailOffset) :
    flusherPass { lfs with dontDequeueWb := false } = .error .exit := by
  have block_pos := lfs.device.block_pos
  obtain ⟨bytes, wb, dequeue, length, -⟩ := h.dequeues divides block_lt some_
  have nonempty : bytes ≠ [] := List.ne_nil_of_length_pos (by omega)
  have write : deviceWrite lfs.device bytes lfs.tailOffset = .error .exit :=
    if_pos (Or.inl fun zero => inside (Nat.dvd_of_mod_eq_zero zero))
  simp only [flusherPass, dequeue, if_neg nonempty, write]

/-- With nothing queued a pass of the loop does nothing. -/
theorem Logfs.Shaped.pass_empty (h : lfs.Shaped) (divides : Divides64 lfs.writeBuffer.size)
    (block_lt : lfs.device.block < 2 ^ 31) (empty : logfsWbAvail lfs = 0) :
    flusherPass { lfs with dontDequeueWb := false } =
      .ok { lfs with dontDequeueWb := false } := by
  have room := h.room
  have block_pos := lfs.device.block_pos
  have queue : lfs.queued = [] := List.eq_nil_of_length_eq_zero (by rw [Logfs.length_queued, empty])
  have holds := h.holds
  rw [queue] at holds
  have dequeue := writeBufferDequeue_empty holds divides.lt (by omega) lfs.device.block false
  simp only [flusherPass, dequeue]

theorem Logfs.Shaped.mode (h : lfs.Shaped) (dontDequeueWb : Bool) :
    { lfs with dontDequeueWb := dontDequeueWb }.Shaped :=
  ⟨h.elemSize, h.ringSize, h.head_lt, h.tail_lt⟩

theorem flusherPass_ringSize {lfs' : Logfs} (h : lfs.Shaped) {dontDequeueWb : Bool}
    (pass : flusherPass { lfs with dontDequeueWb := dontDequeueWb } = .ok lfs') :
    lfs'.writeBuffer.size = lfs.writeBuffer.size := by
  obtain ⟨buf, wb, dequeue, result⟩ := flusherPass_ok pass
  obtain ⟨size, -⟩ := dequeueFrom_keeps h.tail_lt dequeue
  obtain rfl | ⟨device, -, rfl | ⟨len, rc, -, rfl⟩⟩ := result <;> exact size

/-- Bytes that do not fit an empty ring are never accepted. -/
theorem Logfs.Shaped.rejects (h : lfs.Shaped) (long : lfs.writeBuffer.size < buf.length) :
    addWhenRoom buf fuel lfs ≠ .ok lfs' := by
  induction fuel generalizing lfs with
  | zero => exact nofun
  | succ fuel ih =>
    have full : lfs.writeBuffer.size < logfsWbAvail lfs + buf.length := by omega
    rw [h.retries full]
    cases pass : flusherPass { lfs with dontDequeueWb := false } with
    | error e => exact nofun
    | ok lfs₁ =>
      exact ih ((h.mode false).pass pass) (by rwa [flusherPass_ringSize h pass])

/-- While they are tried the loop does not end either. -/
theorem Logfs.Shaped.loops (h : lfs.Shaped) (divides : Divides64 lfs.writeBuffer.size)
    (block_lt : lfs.device.block < 2 ^ 31) (aligned : lfs.device.block ∣ lfs.tailOffset)
    (fits : 0 < logfsWbAvail lfs → lfs.QueueFits) (long : lfs.writeBuffer.size < buf.length) :
    addWhenRoom buf fuel lfs = .error .hang := by
  induction fuel generalizing lfs with
  | zero => rfl
  | succ fuel ih =>
    have full : lfs.writeBuffer.size < logfsWbAvail lfs + buf.length := by omega
    rw [h.retries full]
    obtain empty | some_ := Nat.eq_zero_or_pos (logfsWbAvail lfs)
    · rw [h.pass_empty divides block_lt empty]
      exact ih (h.mode false) divides block_lt aligned fits long
    · obtain ⟨lfs₁, pass, geometry, aligned₁, -, fits₁⟩ :=
        h.drains divides block_lt some_ aligned (fits some_)
      have size := flusherPass_ringSize h pass
      rw [pass]
      exact ih ((h.mode false).pass pass) (by rwa [size]) (by rwa [geometry.block]) aligned₁ fits₁
        (by rwa [size])

/-- Bytes that fit an empty ring are accepted when enough blocks are out of it. -/
theorem Logfs.Shaped.accepts (h : lfs.Shaped) (divides : Divides64 lfs.writeBuffer.size)
    (block_lt : lfs.device.block < 2 ^ 31) (aligned : lfs.device.block ∣ lfs.tailOffset)
    (fits : 0 < logfsWbAvail lfs → lfs.QueueFits) (short : buf.length ≤ lfs.writeBuffer.size)
    (enough : logfsWbAvail lfs ≤ lfs.device.block * fuel) :
    ∃ lfs', addWhenRoom buf (fuel + 1) lfs = .ok lfs' := by
  induction fuel generalizing lfs with
  | zero => exact h.add_fits (by omega)
  | succ fuel ih =>
    by_cases room : logfsWbAvail lfs + buf.length ≤ lfs.writeBuffer.size
    · exact h.add_fits room
    · obtain ⟨lfs₁, pass, geometry, aligned₁, left, fits₁⟩ :=
        h.drains divides block_lt (by omega) aligned (fits (by omega))
      have size := flusherPass_ringSize h pass
      rw [h.retries (Nat.lt_of_not_le room), pass]
      apply ih ((h.mode false).pass pass) (by rwa [size]) (by rwa [geometry.block]) aligned₁ fits₁
        (by rwa [size])
      rw [left, geometry.block]
      rw [Nat.mul_succ] at enough
      omega

/-- The passes that `logfs_append` is given here are as many as it needs. -/
theorem Logfs.Shaped.accepts_soon (h : lfs.Shaped) (divides : Divides64 lfs.writeBuffer.size)
    (block_lt : lfs.device.block < 2 ^ 31) (aligned : lfs.device.block ∣ lfs.tailOffset)
    (fits : lfs.QueueFits) (short : buf.length ≤ lfs.writeBuffer.size) :
    ∃ lfs', addWhenRoom buf (wcacheBlocks + 2) lfs = .ok lfs' := by
  apply h.accepts divides block_lt aligned (fun _ => fits) short
  have ringSize := h.ringSize
  have queued_lt := h.queued_lt
  rw [Nat.mul_comm lfs.device.block, Nat.add_mul]
  omega

end

/-- In every reachable state whose queue fits the device, the retry loop gets the bytes in just
when they fit an empty ring and, unless they fit at once, the tail offset is a block offset. -/
theorem append_accepts_iff (lfs : Logfs) (buf : Bytes) (reachable : lfs.Reachable)
    (power : ∃ k, lfs.device.block = 2 ^ k) (block_lt : lfs.device.block < 2 ^ 31)
    (fits : lfs.QueueFits) :
    lfs.Accepts buf ↔ buf.length ≤ lfs.writeBuffer.size ∧
      (logfsWbAvail lfs + buf.length ≤ lfs.writeBuffer.size ∨
        lfs.device.block ∣ lfs.tailOffset) := by
  have h := reachable.shaped
  have divides := h.divides power
  constructor
  · rintro ⟨fuel, lfs', accepted⟩
    have short : buf.length ≤ lfs.writeBuffer.size := by
      by_contra long
      exact h.rejects (by omega) accepted
    refine ⟨short, ?_⟩
    by_contra stuck
    rw [not_or, Nat.not_le] at stuck
    cases fuel with
    | zero => cases accepted
    | succ fuel =>
      rw [h.retries stuck.1, h.drain_exits divides block_lt (by omega) stuck.2] at accepted
      cases accepted
  · rintro ⟨short, room | aligned⟩
    · exact ⟨1, h.add_fits room⟩
    · exact ⟨_, h.accepts_soon divides block_lt aligned fits short⟩

/-- Two bytes are queued, and the ring of 128 has no room for 127 more. -/
theorem append_accepts_drained :
    ({ logfsOpen blankDevice with
      writeBuffer := (writeBufferAdd (logfsOpen blankDevice).writeBuffer [1, 2]).2 } :
        Logfs).Accepts (List.replicate 127 3) :=
  (append_accepts_iff _ _ ((Logfs.Reachable.opened blankDevice).add [1, 2]) ⟨2, rfl⟩ (by decide)
    (by unfold Logfs.QueueFits; decide)).mpr
    ⟨by rw [List.length_replicate]; decide, Or.inr (Nat.dvd_zero _)⟩

/-- A device of 1 MiB with blocks of 512 bytes. -/
def diskDevice : Device where
  bytes := fun _ => 0
  size := 2 ^ 20
  block := 512
  works := fun _ => true
  transfers := 0
  block_pos := by decide
  block_lt := by decide
  size_lt := by decide
  whole := by decide

/-- One byte more than the ring has, appended to an empty log. -/
theorem append_loops_forever : ∃ (lfs : Logfs) (buf : Bytes), lfs.Reachable ∧
    lfs.device.block = 2 ^ 9 ∧ (∀ n, lfs.device.works n = true) ∧ lfs.QueueFits ∧
    lfs.tailOffset + buf.length ≤ lfs.device.size ∧ buf.length ≤ 0xffffffff ∧
    ¬ lfs.Accepts buf ∧ ∀ fuel, addWhenRoom buf fuel lfs = .error .hang := by
  have reachable := Logfs.Reachable.opened diskDevice
  have shaped := reachable.shaped
  have length : (List.replicate 16385 (0 : UInt8)).length = 16385 := List.length_replicate
  have long : (logfsOpen diskDevice).writeBuffer.size <
      (List.replicate 16385 (0 : UInt8)).length := by
    rw [length]
    decide
  have fits : (logfsOpen diskDevice).QueueFits := by
    unfold Logfs.QueueFits
    decide
  refine ⟨logfsOpen diskDevice, List.replicate 16385 0, reachable, rfl, fun _ => rfl, fits, ?_, ?_,
    ?_, fun fuel => ?_⟩
  · rw [length]
    decide
  · rw [length]
    decide
  · rintro ⟨fuel, lfs', accepted⟩
    exact shaped.rejects long accepted
  · exact shaped.loops (shaped.divides ⟨9, rfl⟩) (by decide) (by decide) (fun _ => fits) long

end OsProjects.KeyValue
