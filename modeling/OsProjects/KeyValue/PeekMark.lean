import OsProjects.KeyValue.RetryLoop
import OsProjects.KeyValue.VisitorRuns

/-!
# The mark of the last peek

`last_avail` counts the queued bytes that the device already holds. A peek sets it and a
drain takes it back; a peek that finds no more than the mark is skipped. An append that
fills the ring to its last byte leaves a mark of bytes that no longer seem queued. While
no append does, every call keeps the mark right, and a skipped peek leaves the device as
it would have been.
-/
namespace OsProjects.KeyValue
open OsProjects.Library

/-- What the users of an open handle do: appends, flushes in both modes, and reads. -/
inductive LogOp where
  | append (buf : Bytes)
  | flush (dontDequeueWb : Bool)
  | read (rand : Nat → Nat) (off len : Nat) (flushBeforeRead : Bool)

def LogOp.step (lfs : Logfs) : LogOp → Except Fault Logfs
  | .append buf => logfsAppend lfs buf
  | .flush dontDequeueWb => flusherPass { lfs with dontDequeueWb := dontDequeueWb }
  | .read rand off len flushBeforeRead =>
    (logfsReadWithFlush lfs rand off len flushBeforeRead).map Prod.snd

/-- No pass of the retry loop of an append fills the ring to its last byte. -/
def Logfs.Leaves (lfs : Logfs) (len : Nat) : Prop :=
  logfsWbAvail lfs + len < lfs.writeBuffer.size ∨ lfs.writeBuffer.size < len ∨
    ¬ lfs.device.block ∣ logfsWbAvail lfs + len ∧ len ≠ lfs.writeBuffer.size

/-- A peek finds two free bytes in the ring, and what it writes can be rounded up and lies on the
device. -/
def Logfs.Peeks (lfs : Logfs) : Prop :=
  logfsWbAvail lfs + 1 ≠ lfs.writeBuffer.size ∧ lfs.Rounds ∧
    (lfs.writeBuffer.lastAvail < logfsWbAvail lfs → lfs.QueueFits)

/-- The condition on a call. A drain has none. -/
def LogOp.Regular (lfs : Logfs) : LogOp → Prop
  | .append buf => lfs.Leaves buf.length
  | .flush dontDequeueWb => dontDequeueWb = true → lfs.Peeks
  | .read _ _ _ flushBeforeRead => flushBeforeRead = true → lfs.Peeks

instance Logfs.decidableLeaves (lfs : Logfs) (len : Nat) : Decidable (lfs.Leaves len) :=
  inferInstanceAs (Decidable (_ ∨ _ ∨ _))

instance Logfs.decidablePeeks (lfs : Logfs) : Decidable lfs.Peeks :=
  inferInstanceAs (Decidable (_ ≠ _ ∧ (_ < _ → _ < _) ∧ (_ < _ → _ ≤ _)))

instance LogOp.decidableRegular (lfs : Logfs) : ∀ c, Decidable (LogOp.Regular lfs c)
  | .append buf => inferInstanceAs (Decidable (lfs.Leaves buf.length))
  | .flush _ => inferInstanceAs (Decidable (_ = _ → lfs.Peeks))
  | .read .. => inferInstanceAs (Decidable (_ = _ → lfs.Peeks))

/-- The mark counts queued bytes, and the device holds these at the tail offset. -/
structure Logfs.Marked (lfs : Logfs) : Prop where
  le : lfs.writeBuffer.lastAvail ≤ logfsWbAvail lfs
  held : lfs.device.bytes.read lfs.tailOffset lfs.writeBuffer.lastAvail =
    lfs.queued.take lfs.writeBuffer.lastAvail

/-- Behind the marked bytes the device is zero up to the end of their last block. -/
def Logfs.Padded (lfs : Logfs) : Prop :=
  ∀ x, lfs.tailOffset + lfs.writeBuffer.lastAvail ≤ x →
    x < lfs.tailOffset + roundUp lfs.writeBuffer.lastAvail lfs.device.block →
      lfs.device.bytes x = 0

/-- The flush before a read. -/
def Logfs.peek (lfs : Logfs) : Except Fault Logfs := flusherPass { lfs with dontDequeueWb := true }

/-- The handle without its mark: a peek of it is not skipped. -/
def Logfs.unmark (lfs : Logfs) : Logfs :=
  { lfs with writeBuffer := { lfs.writeBuffer with lastAvail := 0 } }

/-- `available <= last_avail` -/
def Logfs.Skips (lfs : Logfs) : Prop :=
  lfs.writeBuffer.ahead lfs.writeBuffer.head ≤ lfs.writeBuffer.lastAvail

/-- A skipped peek leaves the device as a peek would, but for the padding behind the queue. -/
def Logfs.SkipsAlike (lfs : Logfs) : Prop :=
  lfs.Skips → ∀ skipped forced, lfs.peek = .ok skipped → lfs.unmark.peek = .ok forced →
    ∀ x, forced.device.bytes x = skipped.device.bytes x ∨
      lfs.tailOffset + logfsWbAvail lfs ≤ x ∧
        x < lfs.tailOffset + roundUp (logfsWbAvail lfs) lfs.device.block ∧
        forced.device.bytes x = 0

/-- A skipped peek leaves the device as a peek would. -/
def Logfs.SkipsExactly (lfs : Logfs) : Prop :=
  lfs.Skips → ∀ skipped forced, lfs.peek = .ok skipped → lfs.unmark.peek = .ok forced →
    forced.device.bytes = skipped.device.bytes

/-- The invariant of the states in use. -/
structure Logfs.Kept (lfs : Logfs) : Prop extends lfs.Marked where
  shaped : lfs.Shaped
  sane : lfs.device.Sane
  rounded : roundUp lfs.writeBuffer.lastAvail lfs.device.block < 2 ^ 31

/-- A step to a state with the invariant keeps the zeros behind the marked bytes. -/
structure Logfs.Leads (lfs lfs' : Logfs) : Prop where
  kept : lfs'.Kept
  padded : lfs.Padded → lfs'.Padded

section
variable {lfs lfs' : Logfs} {buf : Bytes} {fuel : Nat}

theorem Device.Sane.sameGeometry {a b : Device} (h : a.Sane) (same : b.SameGeometry a) : b.Sane :=
  ⟨same.block ▸ h.power, same.block ▸ h.block_lt, same.works ▸ h.works⟩

theorem roundUp_zero (block : Nat) : roundUp 0 block = 0 := by
  simp [roundUp]

/-- The padding is zero. -/
theorem getElem?_padTo {n i : Nat} {bs : Bytes} (ge : bs.length ≤ i) (lt : i < n) :
    (padTo n bs)[i]? = some 0 := by
  rw [padTo, List.getElem?_append_right ge, List.getElem?_replicate, if_pos (by omega)]

/-- The queue does not depend on the mark. -/
theorem Logfs.queued_of_marked {mark : Nat}
    (same : lfs'.writeBuffer = { lfs.writeBuffer with lastAvail := mark }) :
    logfsWbAvail lfs' = logfsWbAvail lfs ∧ lfs'.queued = lfs.queued := by
  have avail : logfsWbAvail lfs' = logfsWbAvail lfs := by simp only [logfsWbAvail, same]
  exact ⟨avail, by simp only [Logfs.queued, avail, same]⟩

theorem Logfs.Leads.trans {lfs₁ lfs₂ : Logfs} (h : lfs.Leads lfs₁) (h' : lfs₁.Leads lfs₂) :
    lfs.Leads lfs₂ :=
  ⟨h'.kept, fun padded => h'.padded (h.padded padded)⟩

/-- Nothing is marked. -/
theorem Logfs.Shaped.kept (h : lfs.Shaped) (sane : lfs.device.Sane)
    (zero : lfs.writeBuffer.lastAvail = 0) : lfs.Kept ∧ lfs.Padded := by
  refine ⟨⟨⟨?_, ?_⟩, h, sane, ?_⟩, fun x ge lt => ?_⟩
  · rw [zero]
    exact Nat.zero_le _
  · rw [zero, List.take_zero]
    rfl
  · rw [zero, roundUp_zero]
    exact Nat.two_pow_pos 31
  · rw [zero, roundUp_zero] at lt
    omega

/-- What leaves the queue, the tail offset and the device's bytes alone keeps the mark. -/
theorem Logfs.Kept.frame (h : lfs.Kept) (shaped : lfs'.Shaped)
    (queue : lfs'.writeBuffer = lfs.writeBuffer) (tail : lfs'.tailOffset = lfs.tailOffset)
    (bytes : lfs'.device.bytes = lfs.device.bytes)
    (geometry : lfs'.device.SameGeometry lfs.device) : lfs.Leads lfs' := by
  obtain ⟨avail, queued⟩ := Logfs.queued_of_marked queue
  refine ⟨⟨⟨?_, ?_⟩, shaped, h.sane.sameGeometry geometry, ?_⟩, fun padded => ?_⟩
  · rw [queue, avail]
    exact h.le
  · rw [queue, tail, bytes, queued]
    exact h.held
  · rw [queue, geometry.block]
    exact h.rounded
  · unfold Padded at padded ⊢
    rwa [queue, tail, bytes, geometry.block]

/-- Bytes that go in behind the queue, and do not fill the ring, keep the mark. -/
theorem Logfs.Kept.add (h : lfs.Kept) (room : logfsWbAvail lfs + buf.length < lfs.writeBuffer.size)
    {wb : WriteBuffer} (add : writeBufferAdd lfs.writeBuffer buf = (0, wb)) :
    lfs.Leads { lfs with writeBuffer := wb } := by
  have shaped := h.shaped.resume buf lfs.dontDequeueWb
  simp only [Logfs.resume, add] at shaped
  have length := @Logfs.length_queued lfs
  obtain ⟨wb', add', _, mark, fits, _⟩ := writeBufferAdd_fits h.shaped.holds
    (by omega : lfs.queued.length + buf.length ≤ lfs.writeBuffer.size)
  obtain rfl : wb = wb' := (Prod.mk.inj (add.symm.trans add')).2
  have holds := fits (by omega)
  have le := h.le
  have avail : logfsWbAvail { lfs with writeBuffer := wb } = (lfs.queued ++ buf).length :=
    logfsWbAvail_eq holds
  refine ⟨⟨⟨?_, ?_⟩, shaped, h.sane, ?_⟩, fun padded => ?_⟩
  · simp only [avail, mark, List.length_append]
    omega
  · have prefix_ : (lfs.queued ++ buf).take lfs.writeBuffer.lastAvail =
        lfs.queued.take lfs.writeBuffer.lastAvail :=
      List.take_append_of_le_length (by omega)
    rw [shaped.queued_eq holds]
    simp only [mark, prefix_]
    exact h.held
  · simp only [mark]
    exact h.rounded
  · simpa only [Padded, mark] using padded

/-- A drain takes the mark back, unless nothing was queued. -/
theorem Logfs.Kept.drain (h : lfs.Kept)
    (pass : flusherPass { lfs with dontDequeueWb := false } = .ok lfs') :
    lfs.Leads lfs' ∧ logfsWbAvail lfs' = logfsWbAvail lfs - lfs.device.block := by
  have divides := h.shaped.divides h.sane.power
  obtain zero | some_ := Nat.eq_zero_or_pos (logfsWbAvail lfs)
  · have idle := h.shaped.pass_empty divides h.sane.block_lt zero
    obtain rfl := Except.ok.inj (idle.symm.trans pass)
    refine ⟨h.frame (h.shaped.mode false) rfl rfl rfl (.refl _), ?_⟩
    change logfsWbAvail lfs = _
    omega
  · have queue : lfs.queued ≠ [] := List.ne_nil_of_length_pos (by rwa [Logfs.length_queued])
    obtain ⟨wb, dequeue, holds, _, mark⟩ := writeBufferDequeue_drain h.shaped.holds divides queue
      lfs.device.block_pos h.sane.block_lt h.shaped.room
    have shaped := (h.shaped.mode false).pass pass
    obtain ⟨bytes, wb', dequeue', result⟩ := flusherPass_ok pass
    obtain ⟨_, rfl⟩ := Prod.mk.inj (Except.ok.inj (dequeue'.symm.trans dequeue))
    have left : ∀ l : Logfs, l.writeBuffer = wb' →
        logfsWbAvail l = logfsWbAvail lfs - lfs.device.block := by
      intro l same
      rw [← same] at holds
      rw [logfsWbAvail_eq holds, List.length_drop, Logfs.length_queued]
    have cleared : ∀ l : Logfs, l.Shaped → l.device.Sane → l.writeBuffer = wb' → lfs.Leads l := by
      intro l shaped sane same
      obtain ⟨kept, padded⟩ := shaped.kept sane (same ▸ mark)
      exact ⟨kept, fun _ => padded⟩
    obtain rfl | ⟨device, geometry, rfl | ⟨len, rc, _, rfl⟩⟩ := result
    · exact ⟨cleared _ shaped h.sane rfl, left _ rfl⟩
    · exact ⟨cleared _ shaped (h.sane.sameGeometry geometry) rfl, left _ rfl⟩
    · exact ⟨cleared _ shaped (h.sane.sameGeometry geometry) rfl, left _ rfl⟩

/-- A peek is skipped, or it marks the whole queue and writes it, unless that leaves the device. -/
theorem Logfs.Shaped.peek_cases (h : lfs.Shaped) (sane : lfs.device.Sane)
    (room : logfsWbAvail lfs + 1 ≠ lfs.writeBuffer.size) (rounds : lfs.Rounds)
    (pass : lfs.peek = .ok lfs') :
    logfsWbAvail lfs ≤ lfs.writeBuffer.lastAvail ∧ lfs' = { lfs with dontDequeueWb := true } ∨
      lfs.writeBuffer.lastAvail < logfsWbAvail lfs ∧
        lfs'.writeBuffer = { lfs.writeBuffer with lastAvail := logfsWbAvail lfs } ∧
        lfs'.tailOffset = lfs.tailOffset ∧ lfs'.device.SameGeometry lfs.device ∧
        (lfs'.device.bytes = lfs.device.bytes.write lfs.tailOffset
            (padTo (roundUp (logfsWbAvail lfs) lfs.device.block) lfs.queued) ∨
          lfs'.device.bytes = lfs.device.bytes ∧ ¬ lfs.QueueFits) := by
  have block_pos := lfs.device.block_pos
  have length := @Logfs.length_queued lfs
  have below := h.queued_lt
  obtain ⟨whole, le, _⟩ := roundUp_spec (n := logfsWbAvail lfs) block_pos
  have dequeue := writeBufferDequeue_peek h.holds (h.divides sane.power).lt
    (by rw [length]; omega) block_pos sane.block_lt (by rwa [length])
  rw [length] at dequeue
  by_cases old : logfsWbAvail lfs ≤ lfs.writeBuffer.lastAvail
  · rw [if_pos old] at dequeue
    simp only [peek, flusherPass, dequeue] at pass
    exact Or.inl ⟨old, (Except.ok.inj pass).symm⟩
  · rw [if_neg old] at dequeue
    set bytes := padTo (roundUp (logfsWbAvail lfs) lfs.device.block) lfs.queued with bytes_def
    have length_bytes : bytes.length = roundUp (logfsWbAvail lfs) lfs.device.block :=
      length_padTo (by rwa [length])
    have some_ : bytes ≠ [] := List.ne_nil_of_length_pos (by omega)
    refine Or.inr ⟨Nat.lt_of_not_le old, ?_⟩
    simp only [peek, flusherPass, dequeue, if_neg some_] at pass
    cases write : deviceWrite lfs.device bytes lfs.tailOffset with
    | error e => simp [write] at pass
    | ok result =>
      obtain ⟨done, device⟩ := result
      obtain ⟨geometry, written⟩ := deviceWrite_ok write
      cases done with
      | false =>
        simp only [write] at pass
        obtain rfl := Except.ok.inj pass
        obtain ⟨aligned, _, same⟩ := deviceWrite_failed write
        refine ⟨rfl, rfl, geometry, Or.inr ⟨by rw [same], fun fits => ?_⟩⟩
        have inside : lfs.tailOffset + bytes.length ≤ lfs.device.size := by rwa [length_bytes]
        obtain ⟨_, done, _⟩ := deviceWrite_spec sane.works aligned (by rwa [length_bytes]) inside
        rw [write] at done
        cases done
      | true =>
        cases invalidate : readCacheInvalidate lfs.readCache lfs.tailOffset bytes.length with
        | error e => simp [write, invalidate] at pass
        | ok rc =>
          simp only [write, invalidate] at pass
          obtain rfl := Except.ok.inj pass
          exact ⟨rfl, rfl, geometry, Or.inl (written rfl).2.2.2⟩

/-- A peek marks what it writes. -/
theorem Logfs.Kept.peek (h : lfs.Kept) (peeks : lfs.Peeks) (pass : lfs.peek = .ok lfs') :
    lfs.Leads lfs' := by
  obtain ⟨room, rounds, fits⟩ := peeks
  have shaped := (h.shaped.mode true).pass pass
  have length := @Logfs.length_queued lfs
  obtain ⟨_, rfl⟩ | ⟨new, queue, tail, geometry, written⟩ :=
    h.shaped.peek_cases h.sane room rounds pass
  · exact h.frame (h.shaped.mode true) rfl rfl rfl (.refl _)
  · replace written := written.resolve_right fun failed => failed.2 (fits new)
    obtain ⟨avail, queued⟩ := Logfs.queued_of_marked queue
    refine ⟨⟨⟨?_, ?_⟩, shaped, h.sane.sameGeometry geometry, ?_⟩, fun _ x ge lt => ?_⟩
    · rw [queue, avail]
    · rw [queue, tail, written, queued]
      exact read_padTo_written (by rw [length])
    · rw [queue, geometry.block]
      exact rounds new
    · simp only [queue, tail, geometry.block] at ge lt
      obtain ⟨i, rfl⟩ := Nat.exists_eq_add_of_le (by omega : lfs.tailOffset ≤ x)
      rw [written]
      apply Mem.write_inside
      apply getElem?_padTo <;> omega

/-- The retry loop keeps the mark. -/
theorem Logfs.Kept.adds (h : lfs.Kept) (leaves : lfs.Leaves buf.length)
    (ok : addWhenRoom buf fuel lfs = .ok lfs') : lfs.Leads lfs' := by
  induction fuel generalizing lfs with
  | zero => cases ok
  | succ fuel ih =>
    have block_dvd : lfs.device.block ∣ lfs.writeBuffer.size :=
      h.shaped.ringSize ▸ Nat.dvd_mul_left _ _
    by_cases room : logfsWbAvail lfs + buf.length ≤ lfs.writeBuffer.size
    · have below : logfsWbAvail lfs + buf.length < lfs.writeBuffer.size := by
        refine Nat.lt_of_le_of_ne room fun full => ?_
        obtain less | long | ⟨apart, _⟩ := leaves
        · omega
        · omega
        · exact apart (full ▸ block_dvd)
      obtain ⟨wb, add, _⟩ := writeBufferAdd_fits h.shaped.holds
        (by rwa [Logfs.length_queued] : lfs.queued.length + buf.length ≤ lfs.writeBuffer.size)
      simp only [addWhenRoom, add] at ok
      obtain rfl := Except.ok.inj ok
      exact h.add below add
    · rw [h.shaped.retries (Nat.lt_of_not_le room)] at ok
      cases pass : flusherPass { lfs with dontDequeueWb := false } with
      | error e =>
        rw [pass] at ok
        cases ok
      | ok lfs₁ =>
        rw [pass] at ok
        obtain ⟨leads, left⟩ := h.drain pass
        refine leads.trans (ih leads.kept ?_ ok)
        have size := flusherPass_ringSize h.shaped pass
        have block := leads.kept.shaped.ringSize
        rw [size, h.shaped.ringSize] at block
        have same : lfs₁.device.block = lfs.device.block :=
          (Nat.eq_of_mul_eq_mul_left (by decide) block).symm
        unfold Leaves at leaves ⊢
        rw [left, size, same]
        obtain less | long | ⟨apart, other⟩ := leaves
        · omega
        · exact Or.inr (Or.inl long)
        · rcases Nat.lt_or_ge (logfsWbAvail lfs) lfs.device.block with last | more
          · omega
          · refine Or.inr (Or.inr ⟨fun dvd => apart ?_, other⟩)
            have sum := Nat.dvd_add dvd (Nat.dvd_refl lfs.device.block)
            rwa [Nat.add_right_comm, Nat.sub_add_cancel more] at sum

theorem Logfs.Kept.append (h : lfs.Kept) (leaves : lfs.Leaves buf.length)
    (ok : logfsAppend lfs buf = .ok lfs') : lfs.Leads lfs' := by
  unfold logfsAppend at ok
  split at ok
  · cases ok
  · split at ok
    · cases ok
    · next lfs₁ added =>
      have leads := h.adds leaves added
      split at ok
      · exact leads.trans (leads.kept.drain ok).1
      · obtain rfl := Except.ok.inj ok
        exact leads

theorem Logfs.Kept.blocks (h : lfs.Kept) {rand : Nat → Nat} {off len : Nat}
    {reply : Option Bytes} (ok : readBlocks rand fuel lfs off len = .ok (reply, lfs')) :
    lfs.Leads lfs' := by
  obtain ⟨queue, tail, bytes, geometry⟩ := readBlocks_frame ok
  exact h.frame (h.shaped.blocks ok) queue tail bytes geometry

/-- What any regular call keeps. -/
theorem Logfs.Kept.step (h : lfs.Kept) {c : LogOp} (regular : c.Regular lfs)
    (ok : c.step lfs = .ok lfs') : lfs.Leads lfs' := by
  cases c with
  | append buf => exact h.append regular ok
  | flush dontDequeueWb =>
    cases dontDequeueWb with
    | false => exact (h.drain ok).1
    | true => exact h.peek (regular rfl) ok
  | read rand off len flushBeforeRead =>
    simp only [LogOp.step] at ok
    cases read : logfsReadWithFlush lfs rand off len flushBeforeRead with
    | error e => simp [read, Except.map] at ok
    | ok result =>
      obtain ⟨reply, lfs₂⟩ := result
      rw [read] at ok
      obtain rfl := Except.ok.inj ok
      unfold logfsReadWithFlush at read
      split_ifs at read with locked flushes
      · split at read
        · cases read
        · next lfs₁ pass =>
          have leads := h.peek (regular flushes) pass
          exact leads.trans (leads.kept.blocks read)
      · exact h.blocks read

/-- Where the test of a peek finds nothing new, the device has the whole queue. -/
theorem Logfs.Kept.skips (h : lfs.Kept) (skips : lfs.Skips) :
    logfsWbAvail lfs + 1 ≠ lfs.writeBuffer.size ∧
      lfs.writeBuffer.lastAvail = logfsWbAvail lfs ∧
      lfs.device.bytes.read lfs.tailOffset (logfsWbAvail lfs) = lfs.queued := by
  have le := h.le
  have held := h.held
  have below := h.shaped.queued_lt
  have ringSize := h.shaped.ringSize
  have device_lt := lfs.device.block_lt
  rw [wcacheBlocks] at ringSize
  unfold Skips at skips
  obtain ⟨room, ahead⟩ | ⟨_, wraps⟩ := h.shaped.ahead_cases
  · have all : lfs.writeBuffer.lastAvail = logfsWbAvail lfs := by omega
    rw [all, List.take_of_length_le (Nat.le_of_eq Logfs.length_queued)] at held
    exact ⟨by omega, all, held⟩
  · omega

theorem Logfs.Kept.skipped (h : lfs.Kept) (skips : lfs.Skips) {skipped : Logfs}
    (pass : lfs.peek = .ok skipped) : skipped = { lfs with dontDequeueWb := true } := by
  obtain ⟨room, all, _⟩ := h.skips skips
  obtain ⟨_, same⟩ | ⟨new, _⟩ := h.shaped.peek_cases h.sane room (fun new => by omega) pass
  · exact same
  · omega

/-- The device already has all that a peek in place of the skipped one writes. -/
theorem Logfs.Kept.skipsAlike (h : lfs.Kept) : lfs.SkipsAlike := by
  intro skips skipped forced pass force x
  obtain ⟨room, all, held⟩ := h.skips skips
  obtain rfl := h.skipped skips pass
  have length := @Logfs.length_queued lfs
  have rounded := h.rounded
  rw [all] at rounded
  have shaped : lfs.unmark.Shaped :=
    ⟨h.shaped.elemSize, h.shaped.ringSize, h.shaped.head_lt, h.shaped.tail_lt⟩
  obtain ⟨_, rfl⟩ | ⟨_, _, _, _, written | ⟨same, _⟩⟩ :=
    shaped.peek_cases h.sane room (fun _ => rounded) force
  · exact Or.inl rfl
  · -- the bytes of the queue are there already, and behind them the peek writes zeros
    change forced.device.bytes = lfs.device.bytes.write lfs.tailOffset
      (padTo (roundUp (logfsWbAvail lfs) lfs.device.block) lfs.queued) at written
    rw [written]
    obtain ⟨_, le, _⟩ := roundUp_spec (n := logfsWbAvail lfs) lfs.device.block_pos
    have length_padded : (padTo (roundUp (logfsWbAvail lfs) lfs.device.block) lfs.queued).length =
        roundUp (logfsWbAvail lfs) lfs.device.block := length_padTo (by rwa [length])
    by_cases outside : x < lfs.tailOffset ∨
        lfs.tailOffset + roundUp (logfsWbAvail lfs) lfs.device.block ≤ x
    · exact Or.inl (Mem.write_outside _ (by rwa [length_padded]))
    · obtain ⟨i, rfl⟩ := Nat.exists_eq_add_of_le (by omega : lfs.tailOffset ≤ x)
      rcases Nat.lt_or_ge i (logfsWbAvail lfs) with queued | behind
      · refine Or.inl (Mem.write_inside _ ?_)
        rw [padTo, List.getElem?_append_left (by omega), ← held, Mem.getElem?_read _ _ _ _ queued]
      · refine Or.inr ⟨by omega, by omega, Mem.write_inside _ ?_⟩
        apply getElem?_padTo <;> omega
  · exact Or.inl (congrFun same x)

theorem Logfs.Kept.skipsExactly (h : lfs.Kept) (padded : lfs.Padded) : lfs.SkipsExactly := by
  intro skips skipped forced pass force
  obtain ⟨_, all, _⟩ := h.skips skips
  funext x
  obtain same | ⟨ge, lt, zero⟩ := h.skipsAlike skips skipped forced pass force x
  · exact same
  · obtain rfl := h.skipped skips pass
    rw [← all] at ge lt
    exact zero.trans (padded x ge lt).symm

end

end OsProjects.KeyValue
