import OsProjects.KeyValue.LogfsLog
import OsProjects.KeyValue.WriteBufferFifo
import OsProjects.Library.Runs

/-!
# The four counts of the queued bytes

`write_buffer_add`, `write_buffer_dequeue`, `logfs_append` and `logfs_wb_avail` each
compute how many bytes are queued from `head` and `tail`. Here these computations are
checked: a subtraction that goes below zero has no value. A dequeue is split into what it
decides, its plan, and the copies it then makes, so that each `memcpy` can be compared
with the bounds of the ring and of the output. The counts agree on the queued bytes unless
one byte of the ring is free, where `head` is `tail`.
-/
namespace OsProjects.KeyValue
open OsProjects.Library

/-- Subtraction of `size_t` that does not underflow. -/
def exactSub (a b : Nat) : Option Nat := if b ≤ a then some (a - b) else none

/-- `available` of `write_buffer_add`. -/
def WriteBuffer.addAvailable (wb : WriteBuffer) : Option Nat :=
  if wb.head ≤ wb.tail then do
    let distance ← exactSub wb.tail wb.head
    return distance + 1
  else do
    let spaceLeft ← exactSub wb.size wb.head
    return spaceLeft + wb.tail + 1

/-- `available` of `write_buffer_dequeue` behind its label `retry`. -/
def WriteBuffer.dequeueAvailable (wb : WriteBuffer) (head : Nat) : Option Nat :=
  if wb.tail ≤ head then do
    let distance ← exactSub head wb.tail
    exactSub distance 1
  else do
    let behind ← exactSub wb.size wb.tail
    let spaceLeft ← exactSub behind 1
    return spaceLeft + head

/-- `amount_buffered` of `logfs_append`. -/
def WriteBuffer.amountBuffered (wb : WriteBuffer) : Option Nat :=
  if wb.tail < wb.head then do
    let distance ← exactSub wb.head wb.tail
    exactSub distance 1
  else do
    let behind ← exactSub wb.size wb.tail
    let spaceLeft ← exactSub behind 1
    return spaceLeft + wb.head

/-- `amount_buffered` of `logfs_wb_avail`, the same expression. -/
def WriteBuffer.wbAvail (wb : WriteBuffer) : Option Nat := wb.amountBuffered

/-- `memcpy(disk_write_buf + dst, buffer + src, len)` -/
structure Copy where
  dst : Nat
  src : Nat
  len : Nat
  deriving DecidableEq

/-- What a dequeue that gives a buffer has decided before it copies, and the next `tail`. -/
structure DequeuePlan where
  available : Nat
  roundUpSize : Nat
  copies : List Copy
  tail : Nat
  deriving DecidableEq

/-- `write_buffer_dequeue` from its label `retry` up to the copies. -/
def dequeuePlan (wb : WriteBuffer) (blk : Int) (dontDequeue : Bool) :
    Nat → Nat → Except Fault (Option DequeuePlan)
  | 0, _ => .error .hang
  | fuel + 1, head =>
    if wb.tail ≤ head then
      let available := subSize (subSize head wb.tail) 1
      if available = 0 then .ok none
      else if dontDequeue = false ∧ ofInt blk < available then
        dequeuePlan wb blk dontDequeue fuel (subSize head (available - ofInt blk) % wb.size)
      else if dontDequeue ∧ available ≤ wb.lastAvail then .ok none
      else
        let roundUpSize := callRoundUp available (ofInt blk)
        if roundUpSize < available then .error .exit
        else if blk ≤ 0 ∧ available ≠ roundUpSize then .error .exit
        else
          .ok (some {
            available := available
            roundUpSize := roundUpSize
            copies := [⟨0, (wb.tail + 1) % wb.size, available⟩]
            tail := (wb.tail + available) % wb.size })
    else
      let available := (wb.size - wb.tail - 1) + head
      if available = 0 then .ok none
      else if dontDequeue = false ∧ ofInt blk < available then
        dequeuePlan wb blk dontDequeue fuel (subSize head (available - ofInt blk) % wb.size)
      else if dontDequeue ∧ available ≤ wb.lastAvail then .ok none
      else
        let roundUpSize := callRoundUp available (if blk ≤ 0 then available else ofInt blk)
        if blk ≤ 0 ∧ available ≠ roundUpSize then .error .exit
        else
          let spaceLeft := wb.size - wb.tail - 1
          let remaining := available - spaceLeft
          .ok (some {
            available := available
            roundUpSize := roundUpSize
            copies := [⟨0, (wb.tail + 1) % wb.size, spaceLeft⟩, ⟨spaceLeft, 0, remaining⟩]
            tail := subSize remaining 1 % wb.size })

/-- The copies of a plan, one behind the other, and the ring they leave. -/
def DequeuePlan.perform (wb : WriteBuffer) (dontDequeue : Bool) (p : DequeuePlan) :
    Bytes × WriteBuffer :=
  (padTo p.roundUpSize (p.copies.flatMap fun c => wb.buffer.read c.src c.len),
    { wb with
      lastAvail := if dontDequeue then p.available else 0
      tail := if dontDequeue then wb.tail else p.tail })

/-- The result of a dequeue with that plan; without one the ring stays as it is. -/
def performPlan (wb : WriteBuffer) (dontDequeue : Bool) :
    Option DequeuePlan → Option Bytes × WriteBuffer
  | none => (none, wb)
  | some p => (some (p.perform wb dontDequeue).1, (p.perform wb dontDequeue).2)

section
variable {wb : WriteBuffer} {bs : Bytes}

/-- A dequeue makes its plan and performs it. -/
theorem dequeueFrom_eq_perform (blk : Int) (dontDequeue : Bool) (fuel head : Nat) :
    dequeueFrom wb blk dontDequeue fuel head =
      (dequeuePlan wb blk dontDequeue fuel head).map (performPlan wb dontDequeue) := by
  induction fuel generalizing head with
  | zero => rfl
  | succ fuel ih =>
    simp only [dequeueFrom, dequeuePlan, ih]
    split_ifs <;>
      simp [Except.map, performPlan, DequeuePlan.perform, *]

/-- The copies read inside the ring and write inside the output, which can be allocated. -/
structure DequeuePlan.Inside (p : DequeuePlan) (size : Nat) : Prop where
  allocatable : p.roundUpSize < 2 ^ 63
  ring : ∀ c ∈ p.copies, c.src + c.len ≤ size
  output : ∀ c ∈ p.copies, c.dst + c.len ≤ p.roundUpSize

/-- The four counts have the value `n`, and the copies of a dequeue stay inside. A peek does not
end the process instead. -/
structure WriteBuffer.Counts (wb : WriteBuffer) (block n : Nat) : Prop where
  add : ∃ available, wb.addAvailable = some available ∧ exactSub wb.size available = some n
  dequeue : wb.dequeueAvailable wb.head = some n
  append : wb.amountBuffered = some n
  wbAvail : wb.wbAvail = some n
  peek : ∃ p, dequeuePlan wb (toInt block) true (wb.size + 2) wb.head = .ok p ∧
    ∀ q ∈ p, q.available = n ∧ q.Inside wb.size
  drain : ∀ q, dequeuePlan wb (toInt block) false (wb.size + 2) wb.head = .ok (some q) →
    q.Inside wb.size

theorem exactSub_some {a b n : Nat} : exactSub a b = some n ↔ b ≤ a ∧ n = a - b := by
  grind [exactSub]

theorem WriteBuffer.addAvailable_some {n : Nat} : wb.addAvailable = some n ↔
    wb.head ≤ wb.tail ∧ n = wb.tail - wb.head + 1 ∨
      wb.tail < wb.head ∧ wb.head ≤ wb.size ∧ n = wb.size - wb.head + wb.tail + 1 := by
  unfold addAvailable
  split_ifs with low <;> simp [Option.bind_eq_some_iff, exactSub_some] <;> omega

theorem WriteBuffer.dequeueAvailable_some {head n : Nat} : wb.dequeueAvailable head = some n ↔
    wb.tail < head ∧ n = head - wb.tail - 1 ∨
      head < wb.tail ∧ wb.tail < wb.size ∧ n = wb.size - wb.tail - 1 + head := by
  unfold dequeueAvailable
  split_ifs with low <;> simp [Option.bind_eq_some_iff, exactSub_some] <;> omega

theorem WriteBuffer.amountBuffered_some {n : Nat} : wb.amountBuffered = some n ↔
    wb.tail < wb.head ∧ n = wb.head - wb.tail - 1 ∨
      wb.head ≤ wb.tail ∧ wb.tail < wb.size ∧ n = wb.size - wb.tail - 1 + wb.head := by
  unfold amountBuffered
  split_ifs with high <;> simp [Option.bind_eq_some_iff, exactSub_some] <;> omega

/-- An add is accepted when the bytes are not more than its count of the free ones. -/
theorem writeBufferAdd_code {buf : Bytes} {available : Nat} (h : wb.addAvailable = some available) :
    (writeBufferAdd wb buf).1 = if buf.length ≤ available then 0 else 1 := by
  rcases WriteBuffer.addAvailable_some.mp h with ⟨low, rfl⟩ | ⟨high, _, rfl⟩
  · simp only [writeBufferAdd, if_pos low]
    split_ifs <;> rfl
  · simp only [writeBufferAdd, if_neg (Nat.not_le.mpr high)]
    split_ifs <;> rfl

theorem logfsWbAvail_of_wbAvail {lfs : Logfs} {n : Nat} (h : lfs.writeBuffer.wbAvail = some n) :
    logfsWbAvail lfs = n := by
  rcases WriteBuffer.amountBuffered_some.mp h with ⟨high, rfl⟩ | ⟨low, _, rfl⟩
  · exact if_pos high
  · exact if_neg (Nat.not_lt.mpr low)

theorem ofInt_toInt_of_lt {n : Nat} (small : ofInt (toInt n) < 2 ^ 63) :
    ofInt (toInt n) = n % 2 ^ 32 ∧ n % 2 ^ 32 < 2 ^ 31 := by
  unfold ofInt toInt at small ⊢
  split_ifs at small ⊢ <;> omega

/-- Through the `int`s of its prototype `roundUp` gives a size that can be allocated and takes the
bytes exactly when the rounded length is an `int`. -/
theorem callRoundUp_fits_iff {n block : Nat} (pos : 0 < block) (block_lt : block < 2 ^ 31) :
    n ≤ callRoundUp n block ∧ callRoundUp n block < 2 ^ 63 ↔ roundUp n block < 2 ^ 31 := by
  have spec := @roundUp_spec n block pos
  constructor
  · rintro ⟨covers, small⟩
    obtain ⟨value, int⟩ := ofInt_toInt_of_lt small
    have same : ofInt (toInt n) = n := ofInt_toInt (by rw [callRoundUp] at covers; omega)
    rw [same] at int value
    rw [callRoundUp, same] at covers
    omega
  · intro lt
    rw [callRoundUp_eq pos lt]
    omega

/-- The copies read inside the ring and fill the output up to `available`. -/
structure DequeuePlan.Spans (p : DequeuePlan) (size : Nat) : Prop where
  ring : ∀ c ∈ p.copies, c.src + c.len ≤ size
  within : ∀ c ∈ p.copies, c.dst + c.len ≤ p.available
  last : ∃ c ∈ p.copies, c.dst + c.len = p.available

theorem DequeuePlan.Spans.inside_iff {p : DequeuePlan} {size : Nat} (h : p.Spans size) :
    p.Inside size ↔ p.available ≤ p.roundUpSize ∧ p.roundUpSize < 2 ^ 63 := by
  obtain ⟨ring, within, c, mem, last⟩ := h
  constructor
  · intro inside
    have := inside.output c mem
    exact ⟨by omega, inside.allocatable⟩
  · rintro ⟨covers, allocatable⟩
    exact ⟨allocatable, ring, fun c mem => (within c mem).trans covers⟩

theorem subSize_subSize_one {a b : Nat} (a_lt : a < 2 ^ 64) (lt : b < a) :
    subSize (subSize a b) 1 = a - b - 1 := by
  have distance : subSize a b = a - b := subSize_of_le a_lt (Nat.le_of_lt lt)
  rw [distance, subSize_of_le (by omega) (by omega)]

/-- What a dequeue that gives a buffer has decided. A drain has retried until at most a block was
left, also where `head` was `tail` and the count wrapped. -/
theorem dequeuePlan_some (tail_lt : wb.tail < wb.size) (size_lt : wb.size < 2 ^ 63) {block : Nat}
    (pos : 0 < block) (block_lt : block < 2 ^ 31) {dontDequeue : Bool} {fuel head : Nat}
    (head_lt : head < wb.size) (apart : dontDequeue = true → head ≠ wb.tail) {p : DequeuePlan}
    (plan : dequeuePlan wb (toInt block) dontDequeue fuel head = .ok (some p)) :
    p.Spans wb.size ∧ p.roundUpSize = callRoundUp p.available block ∧
      (dontDequeue = true → wb.dequeueAvailable head = some p.available) ∧
      (dontDequeue = false → p.available ≤ block) := by
  have blk := ofInt_toInt block_lt
  have blk_pos := toInt_pos pos block_lt
  induction fuel generalizing head with
  | zero => cases plan
  | succ fuel ih =>
    have retry : ∀ start, dontDequeue = false →
        dequeuePlan wb (toInt block) dontDequeue fuel (start % wb.size) = .ok (some p) →
        p.Spans wb.size ∧ p.roundUpSize = callRoundUp p.available block ∧
          (dontDequeue = true → wb.dequeueAvailable head = some p.available) ∧
          (dontDequeue = false → p.available ≤ block) := by
      intro start drains plan
      obtain ⟨spans, size, _, short⟩ :=
        ih (Nat.mod_lt start (by omega)) (by simp [drains]) plan
      exact ⟨spans, size, by simp [drains], short⟩
    have short : ∀ n, ¬ (dontDequeue = false ∧ block < n) → dontDequeue = false → n ≤ block :=
      fun n stays drains => Nat.le_of_not_lt fun more => stays ⟨drains, more⟩
    have first : (wb.tail + 1) % wb.size + (wb.size - wb.tail - 1) ≤ wb.size := by
      by_cases last : wb.tail + 1 = wb.size
      · rw [last, Nat.mod_self]
        omega
      · rw [Nat.mod_eq_of_lt (by omega)]
        omega
    unfold dequeuePlan at plan
    simp only [blk, if_neg blk_pos] at plan
    split_ifs at plan with low none_ more old less odd none_ more old odd
    · exact absurd (Except.ok.inj plan) (by simp)
    · exact retry _ more.1 plan
    · exact absurd (Except.ok.inj plan) (by simp)
    · obtain rfl := Option.some.inj (Except.ok.inj plan)
      have behind : wb.tail < head := by
        by_contra same
        obtain rfl : wb.tail = head := by omega
        have wraps : subSize (subSize wb.tail wb.tail) 1 = 2 ^ 64 - 1 := by
          rw [subSize_of_le (by omega) (Nat.le_refl _), Nat.sub_self]
          rfl
        cases dontDequeue with
        | true => exact apart rfl rfl
        | false => exact more ⟨rfl, by omega⟩
      rw [subSize_subSize_one (by omega) behind] at more ⊢
      refine ⟨⟨?_, ?_, ?_⟩, rfl, fun _ => ?_, short _ more⟩
      · simp [Nat.mod_eq_of_lt (by omega : wb.tail + 1 < wb.size)]
        omega
      · simp
      · simp
      · exact WriteBuffer.dequeueAvailable_some.mpr (Or.inl ⟨behind, rfl⟩)
    · exact absurd (Except.ok.inj plan) (by simp)
    · exact retry _ more.1 plan
    · exact absurd (Except.ok.inj plan) (by simp)
    · obtain rfl := Option.some.inj (Except.ok.inj plan)
      refine ⟨⟨?_, ?_, ?_⟩, rfl, fun _ => ?_, short _ more⟩
      · simp
        omega
      · simp
      · simp
      · exact WriteBuffer.dequeueAvailable_some.mpr (Or.inr ⟨by omega, tail_lt, rfl⟩)

/-- A peek that gives no buffer found no more bytes than at the last one. -/
theorem dequeuePlan_none (size_lt : wb.size < 2 ^ 63) {blk : Int} {fuel head n : Nat}
    (head_lt : head < wb.size) (count : wb.dequeueAvailable head = some n)
    (plan : dequeuePlan wb blk true (fuel + 1) head = .ok none) : n ≤ wb.lastAvail := by
  unfold dequeuePlan at plan
  rcases WriteBuffer.dequeueAvailable_some.mp count with ⟨behind, rfl⟩ | ⟨before, tail_lt, rfl⟩
  · simp only [subSize_subSize_one (by omega) behind, if_pos (Nat.le_of_lt behind)] at plan
    split_ifs at plan <;> grind
  · simp only [if_neg (Nat.not_le.mpr before)] at plan
    split_ifs at plan <;> grind

/-- With two free bytes all counts are the number of queued bytes. -/
theorem WriteBuffer.Holds.counts (h : wb.Holds bs) (room : bs.length + 1 < wb.size) :
    (∃ available, wb.addAvailable = some available ∧
        exactSub wb.size available = some bs.length) ∧
      wb.dequeueAvailable wb.head = some bs.length ∧ wb.amountBuffered = some bs.length := by
  have tail_lt := h.tail_lt
  have head_at := slot_cases wb.size wb.tail (bs.length + 1)
  rw [← h.head] at head_at
  refine ⟨⟨wb.size - bs.length, ?_, exactSub_some.mpr (by omega)⟩, ?_, ?_⟩
  · exact addAvailable_some.mpr (by omega)
  · exact dequeueAvailable_some.mpr (by omega)
  · exact amountBuffered_some.mpr (by omega)

/-- With one free byte `head` is `tail`, and a dequeue subtracts below zero. -/
theorem WriteBuffer.Holds.dequeueAvailable_brimful (h : wb.Holds bs)
    (full : bs.length + 1 = wb.size) : wb.dequeueAvailable wb.head = none := by
  have tail_lt := h.tail_lt
  have head_at := slot_cases wb.size wb.tail (bs.length + 1)
  rw [← h.head] at head_at
  refine Option.eq_none_iff_forall_ne_some.mpr fun n count => ?_
  have := dequeueAvailable_some.mp count
  omega

/-- The counts agree on the queued bytes and the copies stay inside exactly when two bytes are free
and what a peek has to round up gives an `int`. -/
theorem WriteBuffer.Holds.counts_iff (h : wb.Holds bs) (size_lt : wb.size < 2 ^ 63) {block : Nat}
    (pos : 0 < block) (block_lt : block < 2 ^ 31) :
    wb.Counts block bs.length ↔ bs.length + 1 ≠ wb.size ∧
      (wb.lastAvail < bs.length → roundUp bs.length block < 2 ^ 31) := by
  have tail_lt := h.tail_lt
  have short := h.short
  have head_lt : wb.head < wb.size := h.head ▸ slot_lt tail_lt (by omega)
  have plan_some := fun dontDequeue =>
    @dequeuePlan_some wb tail_lt size_lt block pos block_lt dontDequeue (wb.size + 2) wb.head head_lt
  constructor
  · intro counts
    have room : bs.length + 1 ≠ wb.size := by
      intro full
      have := counts.dequeue
      rw [h.dequeueAvailable_brimful full] at this
      cases this
    refine ⟨room, fun new => ?_⟩
    have apart : true = true → wb.head ≠ wb.tail := by
      have := WriteBuffer.dequeueAvailable_some.mp counts.dequeue
      omega
    obtain ⟨p, plan, inside⟩ := counts.peek
    cases p with
    | none =>
      have := dequeuePlan_none size_lt head_lt counts.dequeue plan
      omega
    | some q =>
      obtain ⟨same, inside⟩ := inside q rfl
      obtain ⟨spans, size, _, _⟩ := plan_some true apart plan
      rw [← callRoundUp_fits_iff pos block_lt, ← same, ← size]
      exact spans.inside_iff.mp inside
  · rintro ⟨room, rounded⟩
    obtain ⟨add, dequeue, append⟩ := h.counts (by omega)
    have apart : true = true → wb.head ≠ wb.tail := by
      have := WriteBuffer.dequeueAvailable_some.mp dequeue
      omega
    refine ⟨add, dequeue, append, append, ?_, fun q plan => ?_⟩
    · have peek := writeBufferDequeue_peek h (by omega) (by omega) pos block_lt rounded
      rw [writeBufferDequeue, dequeueFrom_eq_perform] at peek
      cases plan : dequeuePlan wb (toInt block) true (wb.size + 2) wb.head with
      | error e =>
        rw [plan] at peek
        split_ifs at peek <;> cases peek
      | ok p =>
        refine ⟨p, rfl, fun q mem => ?_⟩
        obtain rfl : p = some q := mem
        obtain ⟨spans, size, count, _⟩ := plan_some true apart plan
        have same : q.available = bs.length := Option.some.inj ((count rfl).symm.trans dequeue)
        have new : wb.lastAvail < bs.length := by
          by_contra old
          rw [plan, if_pos (by omega)] at peek
          cases peek
        refine ⟨same, spans.inside_iff.mpr ?_⟩
        rw [size, same]
        exact (callRoundUp_fits_iff pos block_lt).mpr (rounded new)
    · obtain ⟨spans, size, _, short⟩ := plan_some false (by simp) plan
      have block_le := roundUp_le pos (Nat.dvd_refl block) (short rfl)
      rw [spans.inside_iff, size]
      exact (callRoundUp_fits_iff pos block_lt).mpr (by omega)

/-- Whatever a peek returns, the queue stays. -/
theorem writeBufferDequeue_peek_holds (h : wb.Holds bs) {block : Nat} {bytes : Option Bytes}
    {wb' : WriteBuffer} (ok : writeBufferDequeue wb block true = .ok (bytes, wb')) :
    wb'.Holds bs ∧ wb'.size = wb.size := by
  rw [writeBufferDequeue, dequeueFrom_eq_perform] at ok
  cases plan : dequeuePlan wb (toInt block) true (wb.size + 2) wb.head with
  | error e =>
    rw [plan] at ok
    cases ok
  | ok p =>
    rw [plan] at ok
    cases p with
    | none =>
      obtain ⟨_, rfl⟩ := Prod.mk.inj (Except.ok.inj ok)
      exact ⟨h, rfl⟩
    | some q =>
      obtain ⟨_, rfl⟩ := Prod.mk.inj (Except.ok.inj ok)
      exact ⟨⟨h.tail_lt, h.short, h.head, h.ring⟩, rfl⟩

end

/-- A ring with the bytes that are queued: accepted by an add and not yet given by a drain. -/
structure Occupancy where
  ring : WriteBuffer
  queued : Bytes

def Occupancy.start (block : Nat) : Occupancy := ⟨writeBufferOpen (wcacheBlocks * block), []⟩

/-- The queued bytes after a call with that reply. -/
def RingCall.queuedAfter (block : Nat) (queued : Bytes) : RingCall → RingReply → Bytes
  | .add buf, .added 0 => queued ++ buf
  | .dequeue false, .buffer (some _) => queued.drop block
  | _, _ => queued

def Occupancy.step (block : Nat) (o : Occupancy) (c : RingCall) : Except Fault Occupancy :=
  match o.ring.answer block c with
  | .error e => .error e
  | .ok (reply, ring) => .ok ⟨ring, c.queuedAfter block o.queued reply⟩

theorem Occupancy.step_add {block : Nat} {o : Occupancy} {buf : Bytes}
    (accepted : (writeBufferAdd o.ring buf).1 = 0) :
    o.step block (.add buf) = .ok ⟨(writeBufferAdd o.ring buf).2, o.queued ++ buf⟩ := by
  simp only [step, WriteBuffer.answer, accepted, RingCall.queuedAfter]

/-- No add fills the ring to its last byte, and no drain moves `head` or `tail` back over the start
of a ring whose size does not divide the range of `size_t`. -/
def Occupancy.Regular (block : Nat) (o : Occupancy) : RingCall → Prop
  | .add buf => o.queued.length + buf.length ≠ o.ring.size
  | .dequeue false => o.queued ≠ [] →
    o.ring.Steady o.queued.length (min o.queued.length block)
  | .dequeue true => True

instance (block : Nat) (o : Occupancy) : ∀ c, Decidable (o.Regular block c)
  | .add _ => inferInstanceAs (Decidable (_ ≠ _))
  | .dequeue false => inferInstanceAs (Decidable (_ → _))
  | .dequeue true => isTrue trivial

structure Occupancy.Counted (block : Nat) (o : Occupancy) : Prop where
  holds : o.ring.Holds o.queued
  size : o.ring.size = wcacheBlocks * block

theorem Occupancy.start_counted {block : Nat} (pos : 0 < block) :
    (Occupancy.start block).Counted block :=
  ⟨writeBufferOpen_holds (Nat.mul_pos (by decide) pos), rfl⟩

theorem Occupancy.step_counted {block : Nat} (pos : 0 < block) (block_lt : block < 2 ^ 31)
    (o : Occupancy) (c : RingCall) (o' : Occupancy) (h : o.Counted block)
    (regular : o.Regular block c) (ok : o.step block c = .ok o') : o'.Counted block := by
  obtain ⟨holds, size⟩ := h
  have short := holds.short
  rw [wcacheBlocks] at size
  cases c with
  | add buf =>
    obtain rfl := Except.ok.inj ok
    have apart : o.queued.length + buf.length ≠ o.ring.size := regular
    by_cases fits : o.queued.length + buf.length ≤ o.ring.size
    · obtain ⟨wb', add, size', _, queued, _⟩ := writeBufferAdd_fits holds fits
      simp only [add]
      exact ⟨queued (by omega), size'.trans size⟩
    · simp only [writeBufferAdd_full holds (Nat.not_le.mp fits)]
      exact ⟨holds, size⟩
  | dequeue dontDequeue =>
    cases dequeue : writeBufferDequeue o.ring block dontDequeue with
    | error e => simp [step, WriteBuffer.answer, dequeue] at ok
    | ok result =>
      obtain ⟨bytes, ring⟩ := result
      simp only [step, WriteBuffer.answer, dequeue] at ok
      obtain rfl := Except.ok.inj ok
      cases dontDequeue with
      | true =>
        obtain ⟨holds', size'⟩ := writeBufferDequeue_peek_holds holds dequeue
        exact ⟨holds', size'.trans size⟩
      | false =>
        by_cases empty : o.queued = []
        · rw [writeBufferDequeue_empty (empty ▸ holds) (by omega) (by omega)] at dequeue
          obtain ⟨rfl, rfl⟩ := Prod.mk.inj (Except.ok.inj dequeue)
          exact ⟨holds, size⟩
        · obtain ⟨wb', drain, left, size', _⟩ := writeBufferDequeue_steady holds (by omega)
            (regular empty) empty pos block_lt (by omega)
          rw [drain] at dequeue
          obtain ⟨rfl, rfl⟩ := Prod.mk.inj (Except.ok.inj dequeue)
          exact ⟨left, size'.trans size⟩

/-- Along every run of adds, drains and peeks that never fills the ring to its last byte, the four
counts of the queued bytes agree and the copies stay inside exactly in the states with two free
bytes in which the length that a peek has to round up gives an `int`. -/
theorem ring_counts_agree_iff (block : Nat) (pos : 0 < block) (block_lt : block < 2 ^ 31)
    (calls : List RingCall) (o : Occupancy)
    (run : calls.foldlM (Occupancy.step block) (Occupancy.start block) = .ok o)
    (regular : Meets (Occupancy.step block) (Occupancy.Regular block) (Occupancy.start block)
      calls) :
    o.ring.Holds o.queued ∧
      (o.ring.Counts block o.queued.length ↔ o.queued.length + 1 ≠ o.ring.size ∧
        (o.ring.lastAvail < o.queued.length → roundUp o.queued.length block < 2 ^ 31)) := by
  obtain ⟨holds, size⟩ := foldlM_keeps (Occupancy.step_counted pos block_lt) calls
    (Occupancy.start_counted pos) regular run
  rw [wcacheBlocks] at size
  exact ⟨holds, holds.counts_iff (by omega) pos block_lt⟩

theorem ring_counts_agree_three :
    ∃ o, [RingCall.add [1, 2, 3, 4, 5, 6], .dequeue true, .dequeue false, .add [7]].foldlM
        (Occupancy.step 4) (Occupancy.start 4) = .ok o ∧ o.queued = [5, 6, 7] ∧
      o.ring.Holds [5, 6, 7] ∧ o.ring.Counts 4 3 := by
  refine ⟨_, rfl, rfl, ?_⟩
  have agree := ring_counts_agree_iff 4 (by decide) (by decide)
    [.add [1, 2, 3, 4, 5, 6], .dequeue true, .dequeue false, .add [7]] _ rfl (by decide +kernel)
  exact ⟨agree.1, agree.2.mpr (by decide +kernel)⟩

/-- After an add that leaves one byte free, the count of a dequeue goes below zero, and a peek ends
the process. -/
theorem ring_counts_one_free :
    ∃ o, [RingCall.add (List.replicate 127 1)].foldlM (Occupancy.step 4) (Occupancy.start 4) =
        .ok o ∧ o.queued.length < o.ring.size ∧ ¬ o.ring.Counts 4 o.queued.length ∧
      writeBufferDequeue o.ring 4 true = .error .exit := by
  refine ⟨⟨(writeBufferAdd (writeBufferOpen 128) (List.replicate 127 1)).2, List.replicate 127 1⟩,
    ?_, by decide +kernel, fun counts => ?_, ?_⟩
  · exact Occupancy.step_add (by decide +kernel)
  · have underflow := counts.dequeue
    revert underflow
    decide +kernel
  · have plan : dequeuePlan (writeBufferAdd (writeBufferOpen 128) (List.replicate 127 1)).2 (toInt 4)
        true ((writeBufferAdd (writeBufferOpen 128) (List.replicate 127 1)).2.size + 2)
        (writeBufferAdd (writeBufferOpen 128) (List.replicate 127 1)).2.head = .error .exit := by
      decide +kernel
    rw [writeBufferDequeue, dequeueFrom_eq_perform, plan]
    rfl

end OsProjects.KeyValue
