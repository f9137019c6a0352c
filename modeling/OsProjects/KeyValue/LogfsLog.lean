import OsProjects.KeyValue.Logfs
import OsProjects.KeyValue.WriteBufferRing

/-!
# What a logfs stores

`Logfs.Stores lfs log` ties a handle to the bytes appended so far: the device holds
the drained prefix and whatever a peek has copied behind it, the write buffer queues
the rest. Between calls `Logfs.Rep` also knows a free block in the write buffer. The
read cache is treated beside it, because a peek may leave it incoherent.
-/
namespace OsProjects.KeyValue
open OsProjects.Library

theorem next_block_le {block a b : Nat} (ha : block ∣ a) (hb : block ∣ b) (lt : a < b) :
    a + block ≤ b := by
  have gap : block ∣ b - a := Nat.dvd_sub hb ha
  have := Nat.le_of_dvd (by omega) gap
  omega

/-- A whole block of the zero-padded queue. -/
theorem take_drop_padTo {n k block : Nat} {bs : Bytes} (le : k + block ≤ n) :
    ((padTo n bs).drop k).take block = padTo block ((bs.drop k).take block) := by
  apply List.ext_getElem?
  intro i
  rcases Nat.lt_or_ge i block with lt | ge
  · rw [List.getElem?_take_of_lt lt, List.getElem?_drop]
    simp only [padTo, List.getElem?_append, List.getElem?_replicate, List.length_take,
      List.length_drop, List.getElem?_take_of_lt lt, List.getElem?_drop]
    split_ifs <;> first | rfl | omega
  · have left : (((padTo n bs).drop k).take block).length ≤ i := by
      simp only [List.length_take]
      omega
    have right : (padTo block ((bs.drop k).take block)).length ≤ i := by
      rw [length_padTo (by simp)]
      exact ge
    rw [List.getElem?_eq_none left, List.getElem?_eq_none right]

structure Logfs.Stores (lfs : Logfs) (log : Bytes) : Prop where
  works : ∀ n, lfs.device.works n = true
  unlocked : lfs.locked = false
  block_lt : lfs.device.block < 2 ^ 31
  elemSize : lfs.readCache.elemSize = lfs.device.block
  ringSize : lfs.writeBuffer.size = wcacheBlocks * lfs.device.block
  divides : Divides64 lfs.writeBuffer.size
  aligned : lfs.device.block ∣ lfs.tailOffset
  flushed : lfs.tailOffset + lfs.writeBuffer.lastAvail ≤ log.length
  queue : lfs.writeBuffer.Holds (log.drop lfs.tailOffset)
  stored : lfs.device.bytes.read 0 (lfs.tailOffset + lfs.writeBuffer.lastAvail) =
    log.take (lfs.tailOffset + lfs.writeBuffer.lastAvail)
  fits : log.length ≤ lfs.device.size

/-- The state between two calls. -/
structure Logfs.Rep (lfs : Logfs) (log : Bytes) : Prop extends lfs.Stores log where
  room : log.length - lfs.tailOffset + lfs.device.block < lfs.writeBuffer.size

abbrev Logfs.Coherent (lfs : Logfs) : Prop := lfs.readCache.Coherent lfs.device.bytes

/-- A peek that writes can pass its size as an `int`. -/
def Logfs.Rounds (lfs : Logfs) : Prop :=
  lfs.writeBuffer.lastAvail < logfsWbAvail lfs →
    roundUp (logfsWbAvail lfs) lfs.device.block < 2 ^ 31

/-- A peek that writes changes no cached block of the queue behind the first. -/
def Logfs.Spares (lfs : Logfs) (log : Bytes) : Prop :=
  lfs.writeBuffer.lastAvail < logfsWbAvail lfs →
    ∀ elem ∈ lfs.readCache.cache, elem.valid → lfs.tailOffset < elem.beginOffset →
      elem.beginOffset < log.length →
      elem.data = padTo lfs.device.block ((log.drop elem.beginOffset).take lfs.device.block)

/-- The last pass of a close peeks, or drains the last block of the queue, or the device already
holds what the drain leaves in the queue. -/
def Logfs.Flushes (lfs : Logfs) (log : Bytes) : Prop :=
  lfs.dontDequeueWb = true ∨ logfsWbAvail lfs ≤ lfs.device.block ∨
    lfs.device.bytes.read (lfs.tailOffset + lfs.device.block)
        (logfsWbAvail lfs - lfs.device.block) =
      log.drop (lfs.tailOffset + lfs.device.block)

section
variable {lfs : Logfs} {log : Bytes}

theorem logfsWbAvail_eq {bs : Bytes} (h : lfs.writeBuffer.Holds bs) :
    logfsWbAvail lfs = bs.length := by
  have tail_lt := h.tail_lt
  have short := h.short
  have head_at := slot_cases lfs.writeBuffer.size lfs.writeBuffer.tail (bs.length + 1)
  rw [← h.head] at head_at
  simp only [logfsWbAvail]
  split_ifs <;> omega

theorem Logfs.Stores.avail (h : lfs.Stores log) :
    logfsWbAvail lfs = log.length - lfs.tailOffset := by
  rw [logfsWbAvail_eq h.queue, List.length_drop]

theorem Logfs.Stores.take_tail (h : lfs.Stores log) :
    lfs.device.bytes.read 0 lfs.tailOffset = log.take lfs.tailOffset := by
  have flushed := h.flushed
  have prefix_ := congrArg (List.take lfs.tailOffset) h.stored
  rw [Mem.read_add, List.take_left' (Mem.length_read _ _ _), List.take_take] at prefix_
  rw [prefix_]
  congr 1
  omega

theorem Logfs.Stores.mode (h : lfs.Stores log) (dontDequeueWb : Bool) :
    { lfs with dontDequeueWb := dontDequeueWb }.Stores log :=
  ⟨h.works, h.unlocked, h.block_lt, h.elemSize, h.ringSize, h.divides, h.aligned, h.flushed,
    h.queue, h.stored, h.fits⟩

/-- What a pass that returns has done. -/
theorem flusherPass_ok {lfs' : Logfs} (ok : flusherPass lfs = .ok lfs') :
    ∃ buf wb, writeBufferDequeue lfs.writeBuffer lfs.device.block lfs.dontDequeueWb =
        .ok (buf, wb) ∧
      (lfs' = { lfs with writeBuffer := wb } ∨
        ∃ device : Device, device.SameGeometry lfs.device ∧
          (lfs' = { lfs with writeBuffer := wb, device := device } ∨
            ∃ (len : Nat) (rc : ReadCache),
              readCacheInvalidate lfs.readCache lfs.tailOffset len = .ok rc ∧
              lfs' = { lfs with
                writeBuffer := wb
                device := device
                readCache := rc
                tailOffset := if lfs.dontDequeueWb then lfs.tailOffset
                  else (lfs.tailOffset + len) % 2 ^ 64
                dontDequeueWb := false })) := by
  unfold flusherPass at ok
  split at ok
  · cases ok
  · next dequeue => exact ⟨_, _, dequeue, Or.inl (Except.ok.inj ok).symm⟩
  · next dequeue =>
    refine ⟨_, _, dequeue, ?_⟩
    split at ok
    · exact Or.inl (Except.ok.inj ok).symm
    · split at ok
      · cases ok
      · next write =>
        have geometry := (deviceWrite_ok write).1
        exact Or.inr ⟨_, geometry, Or.inl (Except.ok.inj ok).symm⟩
      · next write =>
        have geometry := (deviceWrite_ok write).1
        split at ok
        · cases ok
        · next invalidate =>
          exact Or.inr ⟨_, geometry, Or.inr ⟨_, _, invalidate, (Except.ok.inj ok).symm⟩⟩

/-- One drain writes the oldest block, padded with zeros, at the tail offset. -/
theorem flusherPass_drain (h : lfs.Stores log) (some_ : lfs.tailOffset < log.length) :
    ∃ lfs', flusherPass { lfs with dontDequeueWb := false } = .ok lfs' ∧
      lfs'.device.bytes = lfs.device.bytes.write lfs.tailOffset
        (padTo lfs.device.block ((log.drop lfs.tailOffset).take lfs.device.block)) ∧
      lfs'.device.SameGeometry lfs.device ∧ (lfs.Coherent → lfs'.Coherent) ∧
      (lfs.tailOffset + lfs.device.block ≤ log.length →
        lfs'.Stores log ∧ lfs'.tailOffset = lfs.tailOffset + lfs.device.block) := by
  have block_pos := lfs.device.block_pos
  have ringSize := h.ringSize
  have size_lt := lfs.device.size_lt
  have flushed := h.flushed
  simp only [wcacheBlocks] at ringSize
  have within := next_block_le h.aligned lfs.device.whole (Nat.lt_of_lt_of_le some_ h.fits)
  have not_nil : log.drop lfs.tailOffset ≠ [] := by
    simpa using some_
  obtain ⟨wb, dequeue, holds, size, lastAvail⟩ := writeBufferDequeue_drain h.queue h.divides not_nil
    block_pos h.block_lt (by omega)
  set buf := padTo lfs.device.block ((log.drop lfs.tailOffset).take lfs.device.block) with buf_def
  have buf_length : buf.length = lfs.device.block := length_padTo (by simp)
  have buf_some : buf ≠ [] := List.ne_nil_of_length_pos (by omega)
  have whole : lfs.device.block ∣ buf.length := by rw [buf_length]
  have buf_within : lfs.tailOffset + buf.length ≤ lfs.device.size := by omega
  obtain ⟨device, write, bytes, geometry⟩ := deviceWrite_spec h.works h.aligned whole buf_within
  have cache_aligned : lfs.readCache.elemSize ∣ lfs.tailOffset := h.elemSize ▸ h.aligned
  obtain ⟨rc, invalidate, elemSize, coherent⟩ := readCacheInvalidate_spec cache_aligned buf.length
  refine ⟨_, by simp only [flusherPass, dequeue, if_neg buf_some, write, invalidate]; rfl,
    bytes, geometry, ?_, ?_⟩
  · intro old
    refine (coherent _ old).mpr fun elem mem valid other => ?_
    have begin_aligned := h.elemSize ▸ old.aligned elem mem valid
    simp only [old.data elem mem valid, bytes, h.elemSize]
    apply Eq.symm
    apply Mem.read_write_of_apart
    rcases Nat.lt_or_gt_of_ne other with before | behind
    · exact Or.inl (next_block_le begin_aligned h.aligned before)
    · have := next_block_le h.aligned begin_aligned behind
      omega
  · intro full
    have tail' : (lfs.tailOffset + buf.length) % 2 ^ 64 = lfs.tailOffset + lfs.device.block := by
      rw [buf_length]
      exact Nat.mod_eq_of_lt (by omega)
    have exact_ : buf = (log.drop lfs.tailOffset).take lfs.device.block := by
      simp only [buf_def, padTo, List.length_take, List.length_drop]
      rw [Nat.min_eq_left (by omega), Nat.sub_self, List.replicate_zero, List.append_nil]
    refine ⟨?_, tail'⟩
    constructor <;> simp only [Bool.false_eq_true, if_false, tail', lastAvail, size, elemSize,
      geometry.block, geometry.works, geometry.size, bytes]
    · exact h.works
    · exact h.unlocked
    · exact h.block_lt
    · exact h.elemSize
    · exact h.ringSize
    · exact h.divides
    · exact Nat.dvd_add h.aligned (Nat.dvd_refl _)
    · exact full
    · rwa [List.drop_drop] at holds
    · have kept : (lfs.device.bytes.write lfs.tailOffset buf).read 0 lfs.tailOffset =
          log.take lfs.tailOffset := by
        rw [Mem.read_write_of_apart _ (by omega), h.take_tail]
      have written := lfs.device.bytes.read_write_self lfs.tailOffset buf
      rw [buf_length] at written
      rw [Nat.add_zero, Mem.read_add, Nat.zero_add, kept, written, exact_, List.take_add]
    · exact h.fits

/-- A peek leaves the whole log on the device. -/
theorem flusherPass_peek (h : lfs.Rep log) (rounds : lfs.Rounds) :
    ∃ lfs', flusherPass { lfs with dontDequeueWb := true } = .ok lfs' ∧ lfs'.Rep log ∧
      lfs'.device.bytes.read 0 log.length = log ∧ lfs'.device.SameGeometry lfs.device ∧
      (lfs.Coherent → lfs.Spares log → lfs'.Coherent) := by
  have block_pos := lfs.device.block_pos
  have room := h.room
  have flushed := h.flushed
  have fits := h.fits
  have queue_length : (log.drop lfs.tailOffset).length = log.length - lfs.tailOffset :=
    List.length_drop
  simp only [Logfs.Rounds, h.avail] at rounds
  have dequeue := writeBufferDequeue_peek h.queue h.divides.lt (by omega) block_pos h.block_lt
    (by rwa [queue_length])
  rw [queue_length] at dequeue
  by_cases old : log.length - lfs.tailOffset ≤ lfs.writeBuffer.lastAvail
  · rw [if_pos old] at dequeue
    have all : lfs.tailOffset + lfs.writeBuffer.lastAvail = log.length := by omega
    have stored := h.stored
    rw [all, List.take_length] at stored
    exact ⟨_, by simp only [flusherPass, dequeue], ⟨h.mode true, h.room⟩, stored, .refl _,
      fun coherent _ => coherent⟩
  · rw [if_neg old] at dequeue
    obtain ⟨dvd, le, tight⟩ := @roundUp_spec (log.length - lfs.tailOffset) lfs.device.block block_pos
    have end_ := roundUp_le block_pos (Nat.dvd_sub lfs.device.whole h.aligned)
      (by omega : log.length - lfs.tailOffset ≤ lfs.device.size - lfs.tailOffset)
    set rounded_ := roundUp (log.length - lfs.tailOffset) lfs.device.block with rounded_def
    set buf := padTo rounded_ (log.drop lfs.tailOffset) with buf_def
    have buf_length : buf.length = rounded_ := length_padTo (by omega)
    have buf_some : buf ≠ [] := List.ne_nil_of_length_pos (by omega)
    have whole : lfs.device.block ∣ buf.length := by rwa [buf_length]
    have buf_within : lfs.tailOffset + buf.length ≤ lfs.device.size := by omega
    obtain ⟨device, write, bytes, geometry⟩ := deviceWrite_spec h.works h.aligned whole buf_within
    have cache_aligned : lfs.readCache.elemSize ∣ lfs.tailOffset := h.elemSize ▸ h.aligned
    obtain ⟨rc, invalidate, elemSize, coherent⟩ := readCacheInvalidate_spec cache_aligned buf.length
    have all : (lfs.device.bytes.write lfs.tailOffset buf).read 0 log.length = log := by
      have split : log.length = lfs.tailOffset + (log.length - lfs.tailOffset) := by omega
      have inside : 0 + (log.length - lfs.tailOffset) ≤ buf.length := by omega
      have written := lfs.device.bytes.read_write_inside (a := lfs.tailOffset) inside
      have queued : buf.take (log.length - lfs.tailOffset) = log.drop lfs.tailOffset := by
        rw [← queue_length, buf_def, take_padTo]
      rw [List.drop_zero, Nat.add_zero, queued] at written
      rw [split, Mem.read_add, Nat.zero_add, written, Mem.read_write_of_apart _ (by omega),
        h.take_tail, List.take_append_drop]
    refine ⟨_, by simp only [flusherPass, dequeue, if_neg buf_some, write, invalidate]; rfl,
      ?_, by rw [bytes, all], geometry, ?_⟩
    · refine ⟨?_, by simpa [geometry.block] using room⟩
      constructor <;> simp only [if_true, elemSize, geometry.block, geometry.works,
        geometry.size, bytes]
      · exact h.works
      · exact h.unlocked
      · exact h.block_lt
      · exact h.elemSize
      · exact h.ringSize
      · exact h.divides
      · exact h.aligned
      · omega
      · exact ⟨h.queue.tail_lt, h.queue.short, h.queue.head, h.queue.ring⟩
      · rw [Nat.add_sub_cancel' (by omega), all, List.take_length]
      · exact h.fits
    · intro old spares
      refine (coherent _ old).mpr fun elem mem valid other => ?_
      have begin_aligned := h.elemSize ▸ old.aligned elem mem valid
      have stop_aligned := Nat.dvd_add h.aligned dvd
      simp only [bytes, h.elemSize]
      by_cases inside : lfs.tailOffset < elem.beginOffset ∧ elem.beginOffset < log.length
      · have place : elem.beginOffset = lfs.tailOffset + (elem.beginOffset - lfs.tailOffset) := by
          omega
        have le' := next_block_le begin_aligned stop_aligned (by omega)
        rw [spares (by rw [h.avail]; omega) elem mem valid inside.1 inside.2]
        conv_rhs => rw [place]
        rw [Mem.read_write_inside _ (by omega), buf_def, take_drop_padTo (by omega),
          List.drop_drop, ← place]
      · rw [old.data elem mem valid, h.elemSize]
        apply Eq.symm
        apply Mem.read_write_of_apart
        rcases Nat.lt_or_gt_of_ne other with before | behind
        · exact Or.inl (next_block_le begin_aligned h.aligned before)
        · refine Or.inr ?_
          by_contra within
          have := next_block_le begin_aligned stop_aligned (by omega)
          omega

/-- Whether the bytes can be added after drains of whole blocks, without filling the ring. -/
def Logfs.Takes (lfs : Logfs) (len : Nat) : Prop :=
  let queued := logfsWbAvail lfs
  queued + len < lfs.writeBuffer.size ∨
    ¬ lfs.device.block ∣ queued + len ∧
      queued % lfs.device.block + len < lfs.writeBuffer.size

/-- Without room for the bytes a retry drains a whole block, and the condition stays. -/
theorem Logfs.Takes.drain {len : Nat} (takes : lfs.Takes len) (h : lfs.Stores log)
    (no_room : ¬ log.length - lfs.tailOffset + len < lfs.writeBuffer.size) :
    lfs.writeBuffer.size < log.length - lfs.tailOffset + len ∧
      lfs.device.block ≤ log.length - lfs.tailOffset ∧
      ∃ lfs₁, flusherPass { lfs with dontDequeueWb := false } = .ok lfs₁ ∧ lfs₁.Stores log ∧
        lfs₁.tailOffset = lfs.tailOffset + lfs.device.block ∧ lfs₁.Takes len ∧
        lfs₁.device.SameGeometry lfs.device ∧ (lfs.Coherent → lfs₁.Coherent) := by
  have block_pos := lfs.device.block_pos
  have flushed := h.flushed
  simp only [Logfs.Takes, h.avail] at takes
  obtain ⟨not_dvd, small⟩ := takes.resolve_left no_room
  have ring_dvd : lfs.device.block ∣ lfs.writeBuffer.size := h.ringSize ▸ Nat.dvd_mul_left _ _
  have too_long : lfs.writeBuffer.size < log.length - lfs.tailOffset + len := by
    rcases Nat.lt_or_eq_of_le (Nat.le_of_not_lt no_room) with lt | eq
    · exact lt
    · exact absurd (eq ▸ ring_dvd) not_dvd
  have block_le : lfs.device.block ≤ log.length - lfs.tailOffset := by
    by_contra lt
    rw [Nat.mod_eq_of_lt (by omega)] at small
    omega
  obtain ⟨lfs₁, pass, _, geometry, coherent, drained⟩ := flusherPass_drain h (by omega)
  obtain ⟨h₁, tail₁⟩ := drained (by omega)
  have rest : log.length - lfs₁.tailOffset = log.length - lfs.tailOffset - lfs.device.block := by
    omega
  have size₁ : lfs₁.writeBuffer.size = lfs.writeBuffer.size := by
    rw [h₁.ringSize, h.ringSize, geometry.block]
  refine ⟨too_long, block_le, lfs₁, pass, h₁, tail₁, ?_, geometry, coherent⟩
  simp only [Logfs.Takes, h₁.avail, rest, size₁, geometry.block]
  refine Or.inr ⟨fun dvd => not_dvd ?_, by rwa [← Nat.mod_eq_sub_mod block_le]⟩
  have := Nat.dvd_add dvd (Nat.dvd_refl lfs.device.block)
  rwa [Nat.add_right_comm, Nat.sub_add_cancel block_le] at this

/-- The retry loop drains whole blocks until the bytes fit. -/
theorem addWhenRoom_spec (h : lfs.Stores log) {buf : Bytes} (takes : lfs.Takes buf.length)
    (fits : log.length + buf.length ≤ lfs.device.size) {fuel : Nat}
    (enough : (log.length - lfs.tailOffset) / lfs.device.block < fuel) :
    ∃ lfs', addWhenRoom buf fuel lfs = .ok lfs' ∧ lfs'.Stores (log ++ buf) ∧
      lfs'.device.SameGeometry lfs.device ∧ (lfs.Coherent → lfs'.Coherent) := by
  have block_pos := lfs.device.block_pos
  have flushed := h.flushed
  have queue_length : (log.drop lfs.tailOffset).length = log.length - lfs.tailOffset :=
    List.length_drop
  induction fuel generalizing lfs with
  | zero => exact absurd enough (Nat.not_lt_zero _)
  | succ fuel ih =>
    by_cases room : log.length - lfs.tailOffset + buf.length < lfs.writeBuffer.size
    · obtain ⟨wb, add, size, lastAvail, holds, _⟩ := writeBufferAdd_fits h.queue
        (by omega : (log.drop lfs.tailOffset).length + buf.length ≤ lfs.writeBuffer.size)
      refine ⟨{ lfs with writeBuffer := wb }, by simp only [addWhenRoom, add], ?_, .refl _, id⟩
      constructor <;> simp only [size, lastAvail]
      · exact h.works
      · exact h.unlocked
      · exact h.block_lt
      · exact h.elemSize
      · exact h.ringSize
      · exact h.divides
      · exact h.aligned
      · rw [List.length_append]
        omega
      · rw [List.drop_append_of_le_length (by omega)]
        exact holds (by omega)
      · rw [List.take_append_of_le_length (by omega)]
        exact h.stored
      · rw [List.length_append]
        exact fits
    · obtain ⟨too_long, block_le, lfs₁, pass, h₁, tail₁, takes₁, geometry, coherent⟩ :=
        takes.drain h room
      have full : writeBufferAdd lfs.writeBuffer buf = (1, lfs.writeBuffer) :=
        writeBufferAdd_full h.queue (by rwa [queue_length])
      have enough₁ : (log.length - lfs₁.tailOffset) / lfs₁.device.block < fuel := by
        rw [Nat.div_eq_sub_div block_pos block_le] at enough
        rw [tail₁, ← Nat.sub_sub, geometry.block]
        omega
      obtain ⟨lfs₂, added, h₂, geometry₂, coherent₂⟩ := ih h₁ takes₁ (by rwa [geometry.size])
        enough₁ lfs₁.device.block_pos h₁.flushed List.length_drop
      exact ⟨lfs₂, by simp only [addWhenRoom, full, pass, added], h₂, geometry₂.trans geometry,
        fun c => coherent₂ (coherent c)⟩

theorem logfsAppend_spec (h : lfs.Rep log) {buf : Bytes} (takes : lfs.Takes buf.length)
    (fits : log.length + buf.length ≤ lfs.device.size) :
    ∃ lfs', logfsAppend lfs buf = .ok lfs' ∧ lfs'.Rep (log ++ buf) ∧
      lfs'.device.SameGeometry lfs.device ∧ (lfs.Coherent → lfs'.Coherent) := by
  have block_pos := lfs.device.block_pos
  have room := h.room
  have enough : (log.length - lfs.tailOffset) / lfs.device.block < wcacheBlocks + 2 := by
    have ringSize := h.ringSize
    rw [Nat.div_lt_iff_lt_mul block_pos, Nat.add_mul]
    omega
  obtain ⟨lfs₁, added, h₁, geometry₁, coherent₁⟩ := addWhenRoom_spec h.toStores takes fits enough
  have short₁ := h₁.queue.short
  have ringSize₁ := h₁.ringSize
  have flushed₁ := h₁.flushed
  have block_pos₁ := lfs₁.device.block_pos
  simp only [wcacheBlocks, List.length_drop] at ringSize₁ short₁
  by_cases drains : lfs₁.device.block ≤ (log ++ buf).length - lfs₁.tailOffset
  · obtain ⟨lfs₂, pass, _, geometry₂, coherent₂, drained⟩ := flusherPass_drain h₁ (by omega)
    obtain ⟨h₂, tail₂⟩ := drained (by omega)
    have block₂ := geometry₂.block
    have ringSize₂ := h₂.ringSize
    simp only [wcacheBlocks] at ringSize₂
    refine ⟨lfs₂, ?_, ⟨h₂, by omega⟩, geometry₂.trans geometry₁, fun c => coherent₂ (coherent₁ c)⟩
    simp only [logfsAppend, h.unlocked, added, h₁.avail, if_pos drains, pass]
    rfl
  · refine ⟨lfs₁, ?_, ⟨h₁, by omega⟩, geometry₁, coherent₁⟩
    simp only [logfsAppend, h.unlocked, added, h₁.avail, if_neg drains]
    rfl

/-- An index into a block is the offset in it, unless an `int` makes it negative. -/
theorem toInt_index {off block : Nat} (index_lt : off % block < 2 ^ 31) :
    toInt (off - off / block * block) = ((off - off / block * block : Nat) : Int) := by
  have index : off - off / block * block = off % block := (Nat.mod_eq_sub_div_mul).symm
  rw [index, toInt, Nat.mod_eq_of_lt (by omega), if_pos index_lt]

/-- The read loop changes the cache and the transfer count only, and with a coherent cache it
copies what the device holds. -/
theorem readBlocks_spec (rand : Nat → Nat) {fuel off len : Nat}
    (works : ∀ n, lfs.device.transfers ≤ n → lfs.device.works n = true)
    (elemSize : lfs.readCache.elemSize = lfs.device.block)
    (within : off + len ≤ lfs.device.size) (enough : len < fuel)
    (index_lt : len = 0 ∨ off % lfs.device.block < 2 ^ 31) :
    ∃ data device rc, readBlocks rand fuel lfs off len =
        .ok (some data, { lfs with device := device, readCache := rc }) ∧
      device.bytes = lfs.device.bytes ∧ device.SameGeometry lfs.device ∧
      rc.elemSize = lfs.readCache.elemSize ∧
      (lfs.Coherent → data = lfs.device.bytes.read off len ∧ rc.Coherent lfs.device.bytes) ∧
      (lfs.readCache.Within lfs.device.size → rc.Within lfs.device.size) ∧
      (lfs.readCache.Single → rc.Single) := by
  have block_pos := lfs.device.block_pos
  have size_lt := lfs.device.size_lt
  induction fuel generalizing lfs off len with
  | zero => omega
  | succ fuel ih =>
    by_cases done : len = 0
    · subst done
      exact ⟨[], lfs.device, lfs.readCache, by simp [readBlocks], rfl, .refl _, rfl,
        fun c => ⟨rfl, c⟩, id, id⟩
    · set rounded := off / lfs.readCache.elemSize * lfs.readCache.elemSize with rounded_def
      set toCpy := min len (lfs.readCache.elemSize - (off - rounded)) with toCpy_def
      have rounded_le : rounded ≤ off := Nat.div_mul_le_self _ _
      have off_lt : off < rounded + lfs.device.block := by
        rw [rounded_def, elemSize]
        exact Nat.lt_div_mul_add block_pos
      have aligned : lfs.device.block ∣ rounded := elemSize ▸ Nat.dvd_mul_left _ _
      have next : (off + toCpy) % 2 ^ 64 = off + toCpy := Nat.mod_eq_of_lt (by omega)
      have index : toInt (off - rounded) = ((off - rounded : Nat) : Int) := by
        rw [rounded_def, elemSize]
        exact toInt_index (index_lt.resolve_left done)
      have sign : ¬ ((off - rounded : Nat) : Int) < 0 := Int.not_lt.mpr (Int.natCast_nonneg _)
      -- the next pass is the last one or starts at a block
      have index_lt' : len - toCpy = 0 ∨ (off + toCpy) % lfs.device.block < 2 ^ 31 := by
        by_cases last : len - toCpy = 0
        · exact Or.inl last
        · have to_block : off + toCpy = rounded + lfs.device.block := by omega
          rw [to_block, Nat.mod_eq_zero_of_dvd (Nat.dvd_add aligned (Nat.dvd_refl _))]
          exact Or.inr (Nat.two_pow_pos 31)
      -- the bytes of one block, followed by those of the other passes
      have glue : lfs.device.bytes.read off len =
          ((lfs.device.bytes.read rounded lfs.device.block).drop (off - rounded)).take toCpy ++
            lfs.device.bytes.read (off + toCpy) (len - toCpy) := by
        rw [Mem.take_drop_read _ (by omega), Nat.add_sub_cancel' rounded_le, ← Mem.read_add,
          Nat.add_sub_cancel' (by omega)]
      cases found : readCacheLookup lfs.readCache off with
      | some elem =>
        obtain ⟨rest, device, rc, more, bytes, geometry, size, right, inside, single⟩ := ih works
          elemSize (by omega : off + toCpy + (len - toCpy) ≤ lfs.device.size) (by omega) index_lt'
          block_pos size_lt
        obtain ⟨_, _, begin_⟩ := readCacheLookup_begin found
        refine ⟨(elem.data.drop (off - rounded)).take toCpy ++ rest, device, rc, ?_, bytes, geometry,
          size, fun coherent => ?_, inside, single⟩
        · simp only [readBlocks, if_neg done, found, begin_, ← rounded_def, index, if_neg sign,
            Int.toNat_natCast, ← toCpy_def, next, more]
          rfl
        · obtain ⟨data, coherent'⟩ := right coherent
          have cached := readCacheLookup_coherent coherent found
          rw [glue, data, cached, ← rounded_def, elemSize]
          exact ⟨rfl, coherent'⟩
      | none =>
        have block_within := next_block_le aligned lfs.device.whole (by omega)
        obtain ⟨device, read, bytes, geometry, transfers⟩ := deviceRead_spec
          (works _ (Nat.le_refl _)) aligned (Nat.dvd_refl _) block_within
        have works' : ∀ n, device.transfers ≤ n → device.works n = true := by
          intro n later
          rw [geometry.works]
          apply works
          omega
        rw [← elemSize] at read
        set rc := readCacheAdd lfs.readCache
          (lfs.device.bytes.read rounded lfs.readCache.elemSize) rounded (rand fuel) with rc_def
        obtain ⟨rest, device₂, rc₂, more, bytes₂, geometry₂, size₂, right, inside, single⟩ :=
          @ih { lfs with device := device, readCache := rc } (off + toCpy) (len - toCpy)
            works' (geometry.block ▸ elemSize) (by rw [geometry.size]; omega)
            (by omega) (by rwa [geometry.block]) device.block_pos device.size_lt
        refine ⟨((lfs.device.bytes.read rounded lfs.readCache.elemSize).drop (off - rounded)).take
          toCpy ++ rest, device₂, rc₂, ?_, bytes₂.trans bytes, geometry₂.trans geometry, size₂,
          fun coherent => ?_, fun old => ?_, fun old => ?_⟩
        · simp only [readBlocks, if_neg done, found, ← rounded_def, read, index, if_neg sign,
            Int.toNat_natCast, ← toCpy_def, next, ← rc_def, more]
          rfl
        · have added : rc.Coherent lfs.device.bytes :=
            readCacheAdd_coherent coherent (elemSize ▸ aligned) _
          simp only [Logfs.Coherent, bytes] at right
          obtain ⟨data, coherent'⟩ := right added
          rw [glue, data, elemSize]
          exact ⟨rfl, coherent'⟩
        · simp only [geometry.size] at inside
          exact inside (readCacheAdd_within old (by rwa [elemSize]) _ _)
        · exact single (readCacheAdd_single old (readCacheLookup_none found) _ _)

/-- What every device read and every change of the cache keeps, the read loop keeps. -/
theorem readBlocks_keeps {P : Logfs → Prop} {rand : Nat → Nat} {fuel off len : Nat}
    {reply : Option Bytes} {lfs lfs' : Logfs}
    (failed : ∀ (lfs : Logfs) (device : Device), P lfs → device.SameGeometry lfs.device →
      device.bytes = lfs.device.bytes → P { lfs with device := device, locked := true })
    (added : ∀ (lfs : Logfs) (device : Device) (buff : Bytes) (off r : Nat), P lfs →
      device.SameGeometry lfs.device → device.bytes = lfs.device.bytes →
      readCacheLookup lfs.readCache off = none →
      P { lfs with
        device := device
        readCache := readCacheAdd lfs.readCache buff
          (off / lfs.readCache.elemSize * lfs.readCache.elemSize) r })
    (h : P lfs) (ok : readBlocks rand fuel lfs off len = .ok (reply, lfs')) : P lfs' := by
  induction fuel generalizing lfs off len reply with
  | zero => cases ok
  | succ fuel ih =>
    simp only [readBlocks] at ok
    split at ok
    · obtain ⟨_, rfl⟩ := Prod.mk.inj (Except.ok.inj ok)
      exact h
    · split at ok
      · split at ok
        · cases ok
        · split at ok
          · cases ok
          · next more =>
            obtain ⟨_, rfl⟩ := Prod.mk.inj (Except.ok.inj ok)
            exact ih h more
      · next missing =>
        split at ok
        · cases ok
        · next read =>
          obtain ⟨_, rfl⟩ := Prod.mk.inj (Except.ok.inj ok)
          obtain ⟨geometry, bytes⟩ := deviceRead_ok read
          exact failed lfs _ h geometry bytes
        · next read =>
          split at ok
          · cases ok
          · split at ok
            · cases ok
            · next more =>
              obtain ⟨_, rfl⟩ := Prod.mk.inj (Except.ok.inj ok)
              apply ih _ more
              obtain ⟨geometry, bytes⟩ := deviceRead_ok read
              exact added lfs _ _ off _ h geometry bytes missing

/-- Reading leaves the write buffer, the tail offset and the bytes of the device. -/
theorem readBlocks_frame {rand : Nat → Nat} {fuel off len : Nat} {reply : Option Bytes}
    {lfs' : Logfs} (ok : readBlocks rand fuel lfs off len = .ok (reply, lfs')) :
    lfs'.writeBuffer = lfs.writeBuffer ∧ lfs'.tailOffset = lfs.tailOffset ∧
      lfs'.device.bytes = lfs.device.bytes ∧ lfs'.device.SameGeometry lfs.device := by
  apply readBlocks_keeps (P := fun l => l.writeBuffer = lfs.writeBuffer ∧
    l.tailOffset = lfs.tailOffset ∧ l.device.bytes = lfs.device.bytes ∧
      l.device.SameGeometry lfs.device) _ _ ⟨rfl, rfl, rfl, .refl _⟩ ok
  · rintro l device ⟨queue, tail, bytes, old⟩ geometry same
    exact ⟨queue, tail, same.trans bytes, geometry.trans old⟩
  · rintro l device buff off r ⟨queue, tail, bytes, old⟩ geometry same _
    exact ⟨queue, tail, same.trans bytes, geometry.trans old⟩

/-- An index that does not turn negative is the offset in the block. -/
theorem toNat_toInt {n : Nat} (lt : n < 2 ^ 32) (sign : ¬ toInt n < 0) : (toInt n).toNat = n := by
  simp only [toInt] at sign ⊢
  split_ifs at sign ⊢ <;> omega

/-- A read that leaves the device fails. -/
theorem readBlocks_past (rand : Nat → Nat) {fuel off len : Nat}
    (elemSize : lfs.readCache.elemSize = lfs.device.block)
    (inside : lfs.readCache.Within lfs.device.size) (some_ : len ≠ 0)
    (past : lfs.device.size < off + len) (data : Bytes) (lfs' : Logfs) :
    readBlocks rand fuel lfs off len ≠ .ok (some data, lfs') := by
  have block_pos := lfs.device.block_pos
  have size_lt := lfs.device.size_lt
  induction fuel generalizing lfs off len data lfs' with
  | zero => simp [readBlocks]
  | succ fuel ih =>
    set rounded := off / lfs.readCache.elemSize * lfs.readCache.elemSize with rounded_def
    set toCpy := min len (lfs.readCache.elemSize - (off - rounded)) with toCpy_def
    have rounded_le : rounded ≤ off := Nat.div_mul_le_self _ _
    have index_lt : off < rounded + lfs.device.block := by
      rw [rounded_def, elemSize]
      exact Nat.lt_div_mul_add block_pos
    have index : ¬ toInt (off - rounded) < 0 → (toInt (off - rounded)).toNat = off - rounded :=
      toNat_toInt (by have := lfs.device.block_lt; omega)
    -- after a block on the device the rest still leaves it
    have later : ∀ (lfs₁ : Logfs), lfs₁.readCache.elemSize = lfs₁.device.block →
        lfs₁.device.size = lfs.device.size → lfs₁.readCache.Within lfs.device.size →
        rounded + lfs.readCache.elemSize ≤ lfs.device.size → ∀ rest lfs₂,
        readBlocks rand fuel lfs₁ ((off + toCpy) % 2 ^ 64) (len - toCpy) ≠
          .ok (some rest, lfs₂) := by
      intro lfs₁ elemSize₁ size₁ inside₁ on_device rest lfs₂
      have next : (off + toCpy) % 2 ^ 64 = off + toCpy := Nat.mod_eq_of_lt (by omega)
      rw [next]
      exact @ih lfs₁ (off + toCpy) (len - toCpy) elemSize₁ (size₁ ▸ inside₁) (by omega) (by omega)
        rest lfs₂ lfs₁.device.block_pos lfs₁.device.size_lt
    rw [readBlocks, if_neg some_]
    cases found : readCacheLookup lfs.readCache off with
    | some elem =>
      obtain ⟨mem, valid, begin_⟩ := readCacheLookup_begin found
      have on_device := inside elem mem valid
      simp only [found, begin_, ← rounded_def] at on_device ⊢
      by_cases sign : toInt (off - rounded) < 0
      · simp [if_pos sign]
      rw [if_neg sign, index sign, ← toCpy_def]
      cases more : readBlocks rand fuel lfs ((off + toCpy) % 2 ^ 64) (len - toCpy) with
      | error e => simp
      | ok result =>
        obtain ⟨_ | rest, lfs₂⟩ := result
        · simp
        · exact absurd more (later lfs elemSize rfl inside on_device rest lfs₂)
    | none =>
      simp only [found, ← rounded_def]
      cases read : deviceRead lfs.device rounded lfs.readCache.elemSize with
      | error e => simp
      | ok result =>
        obtain ⟨_ | tmpBuff, device⟩ := result
        · simp
        · obtain ⟨on_device, geometry⟩ := deviceRead_some read
          set lfs₁ : Logfs := { lfs with
            device := device
            readCache := readCacheAdd lfs.readCache tmpBuff rounded (rand fuel) } with lfs₁_def
          simp only
          by_cases sign : toInt (off - rounded) < 0
          · simp [if_pos sign]
          rw [if_neg sign, index sign, ← toCpy_def]
          cases more : readBlocks rand fuel lfs₁ ((off + toCpy) % 2 ^ 64) (len - toCpy) with
          | error e => simp
          | ok result =>
            obtain ⟨_ | rest, lfs₂⟩ := result
            · simp
            · exact absurd more (later lfs₁ (elemSize.trans geometry.block.symm) geometry.size
                (readCacheAdd_within inside on_device _ _) on_device rest lfs₂)

/-- A read flushes the queue without draining it and then reads device blocks. -/
theorem logfsRead_spec (h : lfs.Rep log) (rand : Nat → Nat) {off len : Nat} (rounds : lfs.Rounds)
    (within : off + len ≤ lfs.device.size) :
    ∃ data lfs', logfsRead lfs rand off len = .ok (some data, lfs') ∧ lfs'.Rep log ∧
      lfs'.device.SameGeometry lfs.device ∧
      (lfs.Coherent → lfs.Spares log → lfs'.Coherent ∧
        (off + len ≤ log.length → data = (log.drop off).take len)) := by
  obtain ⟨lfs₁, pass, h₁, all, geometry₁, coherent₁⟩ := flusherPass_peek h rounds
  obtain ⟨data, device, rc, read, bytes, geometry, size, right, _⟩ := readBlocks_spec rand
    (fun n _ => h₁.works n) h₁.elemSize (by rwa [geometry₁.size] : off + len ≤ lfs₁.device.size)
    (Nat.lt_succ_self len)
    (Or.inr (Nat.lt_trans (Nat.mod_lt _ lfs₁.device.block_pos) h₁.block_lt))
  refine ⟨data, { lfs₁ with device := device, readCache := rc }, ?_, ⟨?_, ?_⟩,
    geometry.trans geometry₁, fun old spares => ?_⟩
  · have free : ¬ lfs.locked = true := by simp [h.unlocked]
    rw [logfsRead, logfsReadWithFlush, if_neg free, if_pos rfl, pass]
    exact read
  · constructor <;> simp only [geometry.block, geometry.works, geometry.size, bytes, size]
    · exact h₁.works
    · exact h₁.unlocked
    · exact h₁.block_lt
    · exact h₁.elemSize
    · exact h₁.ringSize
    · exact h₁.divides
    · exact h₁.aligned
    · exact h₁.flushed
    · exact h₁.queue
    · exact h₁.stored
    · exact h₁.fits
  · simpa only [geometry.block] using h₁.room
  · obtain ⟨exact_, coherent⟩ := right (coherent₁ old spares)
    refine ⟨by simpa only [Logfs.Coherent, bytes] using coherent, fun inside => ?_⟩
    have piece := Mem.take_drop_read lfs₁.device.bytes (a := 0) inside
    rw [exact_, ← Nat.zero_add off, ← piece, all, Nat.zero_add]

/-- A close leaves the log on the device exactly when its last pass flushes. -/
theorem logfsClose_spec (h : lfs.Rep log) (rounds : lfs.dontDequeueWb = true → lfs.Rounds) :
    ∃ device, logfsClose lfs = .ok device ∧
      (device.bytes.read 0 log.length = log ↔ lfs.Flushes log) := by
  have free : ¬ lfs.locked = true := by simp [h.unlocked]
  have flushed := h.flushed
  have stored := h.stored
  simp only [Logfs.Flushes, h.avail]
  cases mode : lfs.dontDequeueWb with
  | true =>
    obtain ⟨lfs', pass, _, all, _⟩ := flusherPass_peek h (rounds mode)
    rw [← mode] at pass
    exact ⟨lfs'.device, by rw [logfsClose, if_neg free, pass], by simp [all]⟩
  | false =>
    by_cases some_ : lfs.tailOffset < log.length
    · obtain ⟨lfs', pass, bytes, _⟩ := flusherPass_drain h.toStores some_
      rw [← mode] at pass
      refine ⟨lfs'.device, by rw [logfsClose, if_neg free, pass], ?_⟩
      rw [bytes]
      set buf := padTo lfs.device.block ((log.drop lfs.tailOffset).take lfs.device.block)
        with buf_def
      have buf_length : buf.length = lfs.device.block := length_padTo (by simp)
      have kept : (lfs.device.bytes.write lfs.tailOffset buf).read 0 lfs.tailOffset =
          log.take lfs.tailOffset := by
        rw [Mem.read_write_of_apart _ (by omega), h.take_tail]
      have written : ∀ n, n ≤ lfs.device.block → n ≤ log.length - lfs.tailOffset →
          (lfs.device.bytes.write lfs.tailOffset buf).read lfs.tailOffset n =
            (log.drop lfs.tailOffset).take n := by
        intro n le_block le_queue
        have inside : 0 + n ≤ buf.length := by omega
        have piece := lfs.device.bytes.read_write_inside (a := lfs.tailOffset) inside
        rw [Nat.add_zero, List.drop_zero, buf_def, padTo, List.take_append_of_le_length
          (by simp only [List.length_take, List.length_drop]; omega), List.take_take,
          Nat.min_eq_left le_block] at piece
        exact piece
      by_cases last : log.length - lfs.tailOffset ≤ lfs.device.block
      · have split : log.length = lfs.tailOffset + (log.length - lfs.tailOffset) := by omega
        have all : (lfs.device.bytes.write lfs.tailOffset buf).read 0 log.length = log := by
          rw [split, Mem.read_add, kept, Nat.zero_add, written _ last (Nat.le_refl _), ← List.take_add,
            ← split, List.take_length]
        simp [all, last]
      · have split : log.length = lfs.tailOffset + lfs.device.block +
            (log.length - lfs.tailOffset - lfs.device.block) := by omega
        have all : (lfs.device.bytes.write lfs.tailOffset buf).read 0 log.length =
            log.take (lfs.tailOffset + lfs.device.block) ++
              lfs.device.bytes.read (lfs.tailOffset + lfs.device.block)
                (log.length - lfs.tailOffset - lfs.device.block) := by
          conv_lhs => rw [split]
          rw [Mem.read_add, Mem.read_add, kept, Nat.zero_add, Nat.zero_add,
            written _ (Nat.le_refl _) (by omega), ← List.take_add,
            Mem.read_write_of_apart _ (by omega)]
        have parts := List.take_append_drop (lfs.tailOffset + lfs.device.block) log
        simp only [all, last, Bool.false_eq_true, false_or]
        exact ⟨fun same => List.append_cancel_left (same.trans parts.symm),
          fun same => by rw [same, parts]⟩
    · have tail : lfs.tailOffset + lfs.writeBuffer.lastAvail = log.length := by omega
      have block_pos := lfs.device.block_pos
      have room := h.room
      have queue := h.queue
      rw [List.drop_of_length_le (by omega)] at queue
      have dequeue := writeBufferDequeue_empty queue h.divides.lt (by omega) lfs.device.block false
      rw [tail, List.take_length] at stored
      refine ⟨lfs.device, by simp only [logfsClose, if_neg free, flusherPass, mode, dequeue], ?_⟩
      simp only [stored, true_iff]
      exact Or.inr (Or.inl (by omega))

end

end OsProjects.KeyValue
