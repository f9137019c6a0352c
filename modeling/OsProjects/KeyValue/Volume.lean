import OsProjects.KeyValue.Layers
import OsProjects.KeyValue.LogfsTail
import OsProjects.KeyValue.MarkRuns

/-!
# Logfs as the layer under the store

kvraw appends a header, a key and a value one after the other. While none of them is
longer than a block, each append leaves less than a block in the write buffer, so the
ring never fills, a peek never rounds up to more than a block, no cached block lies
behind the first one of the queue, and a close writes all there is. Such a handle is
`Level`: it serves kvraw until the device is full.
-/
namespace OsProjects.KeyValue
open OsProjects.Library

/-- A handle in use, with the number of reads so far. -/
structure Volume where
  logfs : Logfs
  reads : Nat

/-- logfs on a device. `rand n` is what `rand()` returns during read number `n`; a call that ends the
process leaves the reason. -/
def volumeOps (rand : Nat → Nat → Nat) : LogfsOps (Except Fault Volume) where
  append
    | .error e, _ => (-1, .error e)
    | .ok v, buf =>
      match logfsAppend v.logfs buf with
      | .error e => (-1, .error e)
      | .ok logfs => (0, .ok ⟨logfs, v.reads⟩)
  read
    | .error e, _, _ => (none, .error e)
    | .ok v, off, len =>
      match logfsRead v.logfs (rand v.reads) off len with
      | .error e => (none, .error e)
      | .ok (reply, logfs) => (reply, .ok ⟨logfs, v.reads + 1⟩)

/-- The log ends in the first block of the write buffer. -/
structure Logfs.Level (lfs : Logfs) (log : Bytes) : Prop extends lfs.Rep log where
  sane : lfs.device.Sane
  coherent : lfs.Coherent
  short : log.length - lfs.tailOffset < lfs.device.block

/-- Behind the log the device is zero. -/
def Device.Blank (device : Device) (log : Bytes) : Prop := ∀ x, log.length ≤ x → device.bytes x = 0

/-- A device with the log. -/
structure Device.Carries (device : Device) (log : Bytes) : Prop where
  held : device.bytes.read 0 log.length = log
  inside : log.length ≤ device.size

/-- A write of padded bytes leaves the zeros behind these bytes. -/
theorem write_padTo_zero {m : Mem} {a n x : Nat} {bs : Bytes} (behind : a + bs.length ≤ x)
    (zero : m x = 0) : m.write a (padTo n bs) x = 0 := by
  by_cases inside : x < a + (padTo n bs).length
  · obtain ⟨i, rfl⟩ := Nat.exists_eq_add_of_le (by omega : a ≤ x)
    rw [length_padTo_max] at inside
    exact Mem.write_inside m (getElem?_padTo (by omega) (by omega))
  · rw [Mem.write_outside m (Or.inr (by omega))]
    exact zero

section
variable {lfs lfs' : Logfs} {log : Bytes}

theorem Logfs.Rep.shaped (h : lfs.Rep log) : lfs.Shaped := by
  refine ⟨h.elemSize, h.ringSize, ?_, h.queue.tail_lt⟩
  rw [h.queue.head]
  exact slot_lt h.queue.tail_lt h.queue.short

theorem Logfs.Level.rounds (h : lfs.Level log) : lfs.Rounds := by
  intro _
  have short := h.short
  rw [h.avail]
  exact (roundUp_le lfs.device.block_pos (Nat.dvd_refl _) (Nat.le_of_lt short)).trans_lt h.block_lt

theorem Logfs.Level.spares (h : lfs.Level log) : lfs.Spares log := by
  intro _ elem mem valid behind before
  have aligned := h.elemSize ▸ h.coherent.aligned elem mem valid
  have next := next_block_le h.aligned aligned behind
  have short := h.short
  omega

theorem Logfs.Level.append (h : lfs.Level log) {buf : Bytes} (piece : buf.length ≤ lfs.device.block)
    (fits : log.length + buf.length ≤ lfs.device.size) :
    ∃ lfs', logfsAppend lfs buf = .ok lfs' ∧ lfs'.Level (log ++ buf) ∧
      lfs'.device.SameGeometry lfs.device ∧
      (lfs.device.Blank log → lfs'.device.Blank (log ++ buf)) := by
  have block_pos := lfs.device.block_pos
  have short := h.short
  have flushed := h.flushed
  have ringSize := h.ringSize
  simp only [wcacheBlocks] at ringSize
  have takes : lfs.Takes buf.length := Or.inl (by rw [h.avail]; omega)
  have queue_length : (log.drop lfs.tailOffset).length = log.length - lfs.tailOffset :=
    List.length_drop
  have length : (log ++ buf).length = log.length + buf.length := List.length_append
  have enough : (log.length - lfs.tailOffset) / lfs.device.block < wcacheBlocks + 2 := by
    rw [Nat.div_eq_of_lt short]
    decide
  obtain ⟨lfs₁, added, h₁, geometry₁, coherent₁⟩ := addWhenRoom_spec h.toStores takes fits enough
  -- the first try succeeds
  have first : lfs₁.tailOffset = lfs.tailOffset ∧ lfs₁.device = lfs.device := by
    obtain ⟨wb, add, _⟩ := writeBufferAdd_fits h.queue
      (by omega : (log.drop lfs.tailOffset).length + buf.length ≤ lfs.writeBuffer.size)
    simp only [addWhenRoom, add] at added
    obtain rfl := Except.ok.inj added
    exact ⟨rfl, rfl⟩
  obtain ⟨tail₁, device₁⟩ := first
  have block₁ := geometry₁.block
  have ringSize₁ := h₁.ringSize
  simp only [wcacheBlocks] at ringSize₁
  by_cases drains : lfs₁.device.block ≤ (log ++ buf).length - lfs₁.tailOffset
  · obtain ⟨lfs₂, pass, bytes, geometry₂, coherent₂, drained⟩ := flusherPass_drain h₁ (by omega)
    obtain ⟨h₂, tail₂⟩ := drained (by omega)
    have geometry := geometry₂.trans geometry₁
    have ringSize₂ := h₂.ringSize
    have block := geometry.block
    simp only [wcacheBlocks] at ringSize₂
    refine ⟨lfs₂, ?_, ⟨⟨h₂, by omega⟩, h.sane.sameGeometry geometry,
      coherent₂ (coherent₁ h.coherent), by omega⟩, geometry, fun blank x behind => ?_⟩
    · simp only [logfsAppend, h.unlocked, added, h₁.avail, if_pos drains, pass]
      rfl
    · rw [bytes, device₁]
      refine write_padTo_zero ?_ (blank x (by omega))
      rw [List.length_take, List.length_drop]
      omega
  · refine ⟨lfs₁, ?_, ⟨⟨h₁, by omega⟩, h.sane.sameGeometry geometry₁, coherent₁ h.coherent,
      by omega⟩, geometry₁, fun blank x behind => ?_⟩
    · simp only [logfsAppend, h.unlocked, added, h₁.avail, if_neg drains]
      rfl
    · rw [device₁]
      exact blank x (by omega)

theorem Logfs.Level.peek (h : lfs.Level log) :
    ∃ lfs', flusherPass { lfs with dontDequeueWb := true } = .ok lfs' ∧ lfs'.Level log ∧
      lfs'.device.SameGeometry lfs.device ∧ (lfs.device.Blank log → lfs'.device.Blank log) := by
  obtain ⟨lfs₁, pass, rep, _, geometry, coherent⟩ := flusherPass_peek h.toRep h.rounds
  have tail := flusherPass_peek_tail pass
  refine ⟨lfs₁, pass, ⟨rep, h.sane.sameGeometry geometry, coherent h.coherent h.spares, ?_⟩,
    geometry, fun blank x behind => ?_⟩
  · rw [tail, geometry.block]
    exact h.short
  · have short := h.short
    have flushed := h.flushed
    have ringSize := h.ringSize
    simp only [wcacheBlocks] at ringSize
    have queued : lfs.queued = log.drop lfs.tailOffset := h.shaped.queued_eq h.queue
    obtain ⟨_, rfl⟩ | ⟨_, _, _, _, bytes⟩ := h.shaped.peek_cases h.sane
      (by rw [h.avail]; omega) h.rounds pass
    · exact blank x behind
    · obtain bytes | ⟨bytes, _⟩ := bytes
      · rw [bytes, queued]
        refine write_padTo_zero ?_ (blank x behind)
        rw [List.length_drop]
        omega
      · rw [bytes]
        exact blank x behind

/-- A read returns what it finds of the log. -/
theorem Logfs.Level.read (h : lfs.Level log) (rand : Nat → Nat) {off len : Nat}
    (inside : off + len ≤ lfs.device.size) :
    ∃ data lfs', logfsRead lfs rand off len = .ok (some data, lfs') ∧
      (off + len ≤ log.length → data = (log.drop off).take len) ∧ lfs'.Level log ∧
      lfs'.device.SameGeometry lfs.device ∧ (lfs.device.Blank log → lfs'.device.Blank log) := by
  have free : ¬ lfs.locked = true := by simp [h.unlocked]
  obtain ⟨data, lfs₁, read, rep, geometry, right⟩ := logfsRead_spec h.toRep rand h.rounds inside
  obtain ⟨coherent, exact_⟩ := right h.coherent h.spares
  have tail := logfsRead_tail h.toRep h.rounds inside read
  obtain ⟨lfs₂, pass, _, _, blank⟩ := h.peek
  refine ⟨data, lfs₁, read, exact_, ⟨rep, h.sane.sameGeometry geometry, coherent, ?_⟩, geometry,
    fun old x behind => ?_⟩
  · rw [tail, geometry.block]
    exact h.short
  · rw [logfsRead, logfsReadWithFlush, if_neg free, if_pos rfl, pass] at read
    rw [(readBlocks_frame read).2.2.1]
    exact blank old x behind

/-- A close writes what is queued. -/
theorem Logfs.Level.close (h : lfs.Level log) :
    ∃ device, logfsClose lfs = .ok device ∧ device.Carries log ∧
      device.SameGeometry lfs.device ∧ (lfs.device.Blank log → device.Blank log) := by
  have free : ¬ lfs.locked = true := by simp [h.unlocked]
  have short := h.short
  have flushed := h.flushed
  obtain ⟨device, close, flushes⟩ := logfsClose_spec h.toRep fun _ => h.rounds
  have log_read := flushes.mpr (Or.inr (Or.inl (by rw [h.avail]; omega)))
  have left : ∀ lfs', flusherPass lfs = .ok lfs' → lfs'.device.SameGeometry lfs.device →
      (lfs.device.Blank log → lfs'.device.Blank log) → ∃ device, logfsClose lfs = .ok device ∧
        device.Carries log ∧ device.SameGeometry lfs.device ∧
        (lfs.device.Blank log → device.Blank log) := by
    intro lfs' pass geometry blank
    have closed : logfsClose lfs = .ok lfs'.device := by rw [logfsClose, if_neg free, pass]
    obtain rfl := Except.ok.inj (close.symm.trans closed)
    refine ⟨_, closed, ⟨log_read, ?_⟩, geometry, blank⟩
    rw [geometry.size]
    exact h.fits
  cases mode : lfs.dontDequeueWb with
  | true =>
    obtain ⟨lfs₁, pass, _, geometry, blank⟩ := h.peek
    rw [← mode] at pass
    exact left lfs₁ pass geometry blank
  | false =>
    by_cases some_ : lfs.tailOffset < log.length
    · obtain ⟨lfs₁, pass, bytes, geometry, _⟩ := flusherPass_drain h.toStores some_
      rw [← mode] at pass
      refine left lfs₁ pass geometry fun blank x behind => ?_
      rw [bytes]
      refine write_padTo_zero ?_ (blank x behind)
      rw [List.length_take, List.length_drop]
      omega
    · have idle := h.shaped.pass_empty (h.shaped.divides h.sane.power) h.block_lt
        (by rw [h.avail]; omega)
      rw [← mode] at idle
      exact left lfs idle (.refl _) id

theorem Logfs.Level.open_ {device : Device} (sane : device.Sane) : (logfsOpen device).Level [] :=
  ⟨logfsOpen_rep sane.power sane.block_lt sane.works, sane, readCacheOpen_coherent _ _ _,
    by simpa [logfsOpen] using device.block_pos⟩

end

/-- The handles on a device that are in use with a log. When the device was zeroed in the beginning it
is still zero behind the log. -/
def Volume.Holds (device : Device) (zeroed : Prop) (state : Except Fault Volume) (log : Bytes) :
    Prop :=
  ∃ v, state = .ok v ∧ v.logfs.Level log ∧ v.logfs.device.SameGeometry device ∧
    (zeroed → v.logfs.device.Blank log)

theorem volumeOps_serves (rand : Nat → Nat → Nat) (device : Device) (zeroed : Prop) :
    (volumeOps rand).Serves (Volume.Holds device zeroed) device.block device.size where
  append := by
    rintro _ log buf ⟨v, rfl, level, geometry, blank⟩ piece fits
    obtain ⟨lfs', ok, level', same, keeps⟩ := level.append (by rwa [geometry.block])
      (by rwa [geometry.size])
    exact ⟨.ok ⟨lfs', v.reads⟩, by simp only [volumeOps, ok], _, rfl, level', same.trans geometry,
      fun zero => keeps (blank zero)⟩
  read := by
    rintro _ log off len ⟨v, rfl, level, geometry, blank⟩ within
    obtain ⟨data, lfs', ok, found, level', same, keeps⟩ :=
      level.read (rand v.reads) (within.trans level.fits)
    obtain rfl := found within
    exact ⟨.ok ⟨lfs', v.reads + 1⟩, by simp only [volumeOps, ok], _, rfl, level',
      same.trans geometry, fun zero => keeps (blank zero)⟩

end OsProjects.KeyValue
