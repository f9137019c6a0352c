import OsProjects.KeyValue.LogfsRuns

/-!
# Flush passes and the read cache

A drain writes one block and the flusher invalidates it. A peek may write many blocks,
and only the first of them is invalidated. In every state that the functions of logfs
can reach, a pass that writes keeps the cache coherent unless it peeks and one of the
later blocks is cached with other bytes than the ones written.
-/
namespace OsProjects.KeyValue
open OsProjects.Library

/-- The states between the steps of the functions of `logfs.h`: a request chooses the mode and the
flusher serves it, bytes are added to the write buffer, blocks are read, and a restore adds, takes
out and moves the tail offset. -/
inductive Logfs.Reachable : Logfs → Prop
  | opened (device : Device) : Reachable (logfsOpen device)
  | request {lfs : Logfs} (dontDequeueWb : Bool) (h : Reachable lfs) :
    Reachable { lfs with dontDequeueWb := dontDequeueWb }
  | pass {lfs lfs' : Logfs} (h : Reachable lfs) (ok : flusherPass lfs = .ok lfs') : Reachable lfs'
  | add {lfs : Logfs} (buf : Bytes) (h : Reachable lfs) :
    Reachable { lfs with writeBuffer := (writeBufferAdd lfs.writeBuffer buf).2 }
  | blocks {lfs lfs' : Logfs} (rand : Nat → Nat) (fuel off len : Nat) (reply : Option Bytes)
    (h : Reachable lfs) (ok : readBlocks rand fuel lfs off len = .ok (reply, lfs')) : Reachable lfs'
  | wbAdd {lfs : Logfs} (buf : Bytes) (h : Reachable lfs) : Reachable (logfsWbAdd lfs buf)
  | wbDeq {lfs lfs' : Logfs} (h : Reachable lfs) (ok : logfsWbDeq lfs = .ok lfs') : Reachable lfs'
  | setTailOffset {lfs : Logfs} (offset : Nat) (h : Reachable lfs) :
    Reachable (logfsSetTailOffset lfs offset)

/-- The sizes fit together, and `head` and `tail` are slots of the ring. -/
structure Logfs.Shaped (lfs : Logfs) : Prop where
  elemSize : lfs.readCache.elemSize = lfs.device.block
  ringSize : lfs.writeBuffer.size = wcacheBlocks * lfs.device.block
  head_lt : lfs.writeBuffer.head < lfs.writeBuffer.size
  tail_lt : lfs.writeBuffer.tail < lfs.writeBuffer.size

/-- The bytes between `tail` and `head`. -/
def Logfs.queued (lfs : Logfs) : Bytes :=
  let wb := lfs.writeBuffer
  (List.range (logfsWbAvail lfs)).map fun i => wb.buffer (slot wb.size (slot wb.size wb.tail 1) i)

/-- A flush pass that writes `buf` to the device. The kernel completes no longer write. -/
structure Logfs.Writes (lfs : Logfs) (buf : Bytes) (lfs' : Logfs) : Prop where
  dequeue : ∃ wb, writeBufferDequeue lfs.writeBuffer lfs.device.block lfs.dontDequeueWb =
    .ok (some buf, wb)
  some_ : buf ≠ []
  write : ∃ device, deviceWrite lfs.device buf lfs.tailOffset = .ok (true, device)
  transfer : buf.length ≤ 0x7ffff000
  pass : flusherPass lfs = .ok lfs'

/-- No block of the queue behind the first is cached with other bytes than a peek writes. -/
def Logfs.Refreshes (lfs : Logfs) : Prop :=
  lfs.dontDequeueWb = true → ∀ elem ∈ lfs.readCache.cache, elem.valid →
    lfs.tailOffset < elem.beginOffset → elem.beginOffset < lfs.tailOffset + logfsWbAvail lfs →
    elem.data = padTo lfs.device.block
      ((lfs.queued.drop (elem.beginOffset - lfs.tailOffset)).take lfs.device.block)

/-- What `write_buffer_dequeue` takes for the number of queued bytes when it has come to `head`. -/
def WriteBuffer.ahead (wb : WriteBuffer) (head : Nat) : Nat :=
  if wb.tail ≤ head then subSize (subSize head wb.tail) 1 else (wb.size - wb.tail - 1) + head

section
variable {wb wb' : WriteBuffer} {lfs lfs' : Logfs}

theorem length_padTo_max (n : Nat) (bs : Bytes) : (padTo n bs).length = max bs.length n := by
  simp only [padTo, List.length_append, List.length_replicate]
  omega

/-- The tests that both halves of a dequeue make of the `n` bytes ahead. -/
theorem dequeue_tests {n limit : Nat} {dontDequeue : Bool} {buf : Option Bytes}
    {retry emit : Except Fault (Option Bytes × WriteBuffer)}
    (ok : (if n = 0 then .ok (none, wb)
      else if dontDequeue = false ∧ limit < n then retry
      else if dontDequeue ∧ n ≤ wb.lastAvail then .ok (none, wb)
      else emit) = .ok (buf, wb')) :
    buf = none ∧ wb' = wb ∨ dontDequeue = false ∧ retry = .ok (buf, wb') ∨
      0 < n ∧ (dontDequeue = false → n ≤ limit) ∧ emit = .ok (buf, wb') := by
  split_ifs at ok with zero more old
  · obtain ⟨rfl, rfl⟩ := Prod.mk.inj (Except.ok.inj ok)
    exact Or.inl ⟨rfl, rfl⟩
  · exact Or.inr (Or.inl ⟨more.1, ok⟩)
  · obtain ⟨rfl, rfl⟩ := Prod.mk.inj (Except.ok.inj ok)
    exact Or.inl ⟨rfl, rfl⟩
  · have short : dontDequeue = false → n ≤ limit :=
      fun takes => Nat.le_of_not_lt fun lt => more ⟨takes, lt⟩
    exact Or.inr (Or.inr ⟨Nat.pos_of_ne_zero zero, short, ok⟩)

/-- What one pass of a dequeue can do: return nothing, retry, or return the bytes ahead. -/
theorem dequeueFrom_cases {blk : Int} {dontDequeue : Bool} {fuel head : Nat} {buf : Option Bytes}
    (tail_lt : wb.tail < wb.size)
    (ok : dequeueFrom wb blk dontDequeue (fuel + 1) head = .ok (buf, wb')) :
    buf = none ∧ wb' = wb ∨
    dontDequeue = false ∧ (∃ head', dequeueFrom wb blk dontDequeue fuel head' = .ok (buf, wb')) ∨
    0 < wb.ahead head ∧ (dontDequeue = false → wb.ahead head ≤ ofInt blk) ∧
      (∃ bytes n, bytes.length = wb.ahead head ∧
        (0 < blk → n = callRoundUp (wb.ahead head) (ofInt blk)) ∧ buf = some (padTo n bytes)) ∧
      ∃ tail lastAvail, tail < wb.size ∧ wb' = { wb with tail := tail, lastAvail := lastAvail } := by
  have moved : ∀ tail, (if dontDequeue then wb.tail else tail % wb.size) < wb.size := by
    intro tail
    split_ifs
    · exact tail_lt
    · exact Nat.mod_lt tail (Nat.zero_lt_of_lt tail_lt)
  rw [dequeueFrom] at ok
  by_cases low : wb.tail ≤ head
  · have ahead : wb.ahead head = subSize (subSize head wb.tail) 1 := if_pos low
    rw [if_pos low] at ok
    simp only [← ahead] at ok
    obtain done | ⟨takes, retry⟩ | ⟨some_, short, emit⟩ := dequeue_tests ok
    · exact Or.inl done
    · exact Or.inr (Or.inl ⟨takes, _, retry⟩)
    · split at emit
      · cases emit
      split at emit
      · cases emit
      obtain ⟨rfl, rfl⟩ := Prod.mk.inj (Except.ok.inj emit)
      exact Or.inr (Or.inr ⟨some_, short, ⟨_, _, Mem.length_read _ _ _, fun _ => rfl, rfl⟩, _, _,
        moved _, rfl⟩)
  · have ahead : wb.ahead head = wb.size - wb.tail - 1 + head := if_neg low
    rw [if_neg low] at ok
    simp only [← ahead] at ok
    obtain done | ⟨takes, retry⟩ | ⟨some_, short, emit⟩ := dequeue_tests ok
    · exact Or.inl done
    · exact Or.inr (Or.inl ⟨takes, _, retry⟩)
    · have rounded : 0 < blk → callRoundUp (wb.ahead head) (if blk ≤ 0 then wb.ahead head
          else ofInt blk) = callRoundUp (wb.ahead head) (ofInt blk) :=
        fun pos => by rw [if_neg (by omega)]
      generalize callRoundUp (wb.ahead head) (if blk ≤ 0 then wb.ahead head else ofInt blk) = n at *
      split at emit
      · cases emit
      obtain ⟨rfl, rfl⟩ := Prod.mk.inj (Except.ok.inj emit)
      refine Or.inr (Or.inr ⟨some_, short, ⟨_, n, ?_, rounded, rfl⟩, _, _, moved _, rfl⟩)
      rw [List.length_append, Mem.length_read, Mem.length_read]
      omega

/-- A dequeue moves `tail` inside the ring and nothing else. -/
theorem dequeueFrom_keeps {blk : Int} {dontDequeue : Bool} {fuel head : Nat}
    {buf : Option Bytes} (tail_lt : wb.tail < wb.size)
    (ok : dequeueFrom wb blk dontDequeue fuel head = .ok (buf, wb')) :
    wb'.size = wb.size ∧ wb'.head = wb.head ∧ wb'.tail < wb.size := by
  induction fuel generalizing head with
  | zero => cases ok
  | succ fuel ih =>
    rcases dequeueFrom_cases tail_lt ok with ⟨_, rfl⟩ | ⟨_, _, retry⟩ |
      ⟨_, _, _, tail, lastAvail, lt, rfl⟩
    · exact ⟨rfl, rfl, tail_lt⟩
    · exact ih retry
    · exact ⟨rfl, rfl, lt⟩

/-- The length of what a dequeue returns. -/
theorem dequeueFrom_length {blk : Int} (pos : 0 < blk) {dontDequeue : Bool} {fuel head : Nat}
    {buf : Bytes} (tail_lt : wb.tail < wb.size)
    (ok : dequeueFrom wb blk dontDequeue fuel head = .ok (some buf, wb')) :
    ∃ head', (dontDequeue = true → head' = head) ∧ 0 < wb.ahead head' ∧
      (dontDequeue = false → wb.ahead head' ≤ ofInt blk) ∧
      buf.length = max (wb.ahead head') (callRoundUp (wb.ahead head') (ofInt blk)) := by
  induction fuel generalizing head with
  | zero => cases ok
  | succ fuel ih =>
    rcases dequeueFrom_cases tail_lt ok with ⟨none_, _⟩ | ⟨drains, _, retry⟩ |
      ⟨some_, short, ⟨bytes, n, length, rounded, same⟩, _⟩
    · cases none_
    · obtain ⟨head', _, rest⟩ := ih retry
      exact ⟨head', by simp [drains], rest⟩
    · obtain rfl := Option.some.inj same
      refine ⟨head, fun _ => rfl, some_, short, ?_⟩
      rw [length_padTo_max, length, rounded pos]

theorem writeBufferAdd_keeps (buf : Bytes) (head_lt : wb.head < wb.size) :
    (writeBufferAdd wb buf).2.size = wb.size ∧ (writeBufferAdd wb buf).2.tail = wb.tail ∧
      (writeBufferAdd wb buf).2.head < wb.size := by
  have pos : 0 < wb.size := Nat.zero_lt_of_lt head_lt
  unfold writeBufferAdd
  simp only
  split_ifs
  all_goals first
    | exact ⟨rfl, rfl, head_lt⟩
    | exact ⟨rfl, rfl, Nat.mod_lt _ pos⟩

theorem readCacheInvalidate_elemSize {rc rc' : ReadCache} {offset len : Nat}
    (ok : readCacheInvalidate rc offset len = .ok rc') : rc'.elemSize = rc.elemSize := by
  simp only [readCacheInvalidate] at ok
  split at ok
  · cases ok
  · obtain rfl := Except.ok.inj ok
    rfl

theorem Logfs.Shaped.pass (h : lfs.Shaped) (ok : flusherPass lfs = .ok lfs') : lfs'.Shaped := by
  obtain ⟨elemSize, ringSize, head_lt, tail_lt⟩ := h
  obtain ⟨buf, wb, dequeue, result⟩ := flusherPass_ok ok
  obtain ⟨size, head, tail⟩ := dequeueFrom_keeps tail_lt dequeue
  have head_lt' : wb.head < wb.size := by rwa [size, head]
  have tail_lt' : wb.tail < wb.size := by rwa [size]
  obtain rfl | ⟨device, geometry, rfl | ⟨len, rc, invalidate, rfl⟩⟩ := result
  · exact ⟨elemSize, size.trans ringSize, head_lt', tail_lt'⟩
  · have block := geometry.block
    exact ⟨elemSize.trans block.symm, by rw [size, ringSize, block], head_lt', tail_lt'⟩
  · have block := geometry.block
    have elems := readCacheInvalidate_elemSize invalidate
    exact ⟨by rw [elems, elemSize, block], by rw [size, ringSize, block], head_lt', tail_lt'⟩

theorem Logfs.Shaped.blocks {rand : Nat → Nat} {fuel off len : Nat} {reply : Option Bytes}
    (h : lfs.Shaped) (ok : readBlocks rand fuel lfs off len = .ok (reply, lfs')) :
    lfs'.Shaped := by
  apply readBlocks_keeps _ _ h ok
  · intro lfs device shaped geometry _
    exact ⟨shaped.elemSize.trans geometry.block.symm,
      shaped.ringSize.trans (by rw [geometry.block]), shaped.head_lt, shaped.tail_lt⟩
  · intro lfs device buff off r shaped geometry _ missing
    exact ⟨shaped.elemSize.trans geometry.block.symm,
      shaped.ringSize.trans (by rw [geometry.block]), shaped.head_lt, shaped.tail_lt⟩

theorem Logfs.Reachable.shaped (h : lfs.Reachable) : lfs.Shaped := by
  induction h with
  | opened device =>
    have block_pos := device.block_pos
    constructor
    · rfl
    · rfl
    · change 0 < wcacheBlocks * device.block
      simp only [wcacheBlocks]
      omega
    · change wcacheBlocks * device.block - 1 < wcacheBlocks * device.block
      simp only [wcacheBlocks]
      omega
  | request _ _ ih => exact ⟨ih.elemSize, ih.ringSize, ih.head_lt, ih.tail_lt⟩
  | pass _ ok ih => exact ih.pass ok
  | add buf _ ih =>
    obtain ⟨size, tail, head⟩ := writeBufferAdd_keeps buf ih.head_lt
    exact ⟨ih.elemSize, size.trans ih.ringSize, by rwa [size], by rw [size, tail]; exact ih.tail_lt⟩
  | blocks _ _ _ _ _ _ ok ih => exact ih.blocks ok
  | wbAdd buf _ ih =>
    obtain ⟨size, tail, head⟩ := writeBufferAdd_keeps buf ih.head_lt
    exact ⟨ih.elemSize, size.trans ih.ringSize, head.trans_eq size.symm,
      (tail.trans_lt ih.tail_lt).trans_eq size.symm⟩
  | wbDeq _ ok ih =>
    unfold logfsWbDeq at ok
    split at ok
    · cases ok
    · next dequeue =>
      obtain ⟨size, head, tail⟩ := dequeueFrom_keeps ih.tail_lt dequeue
      obtain rfl := Except.ok.inj ok
      exact ⟨ih.elemSize, size.trans ih.ringSize, by rw [size, head]; exact ih.head_lt,
        by rwa [size]⟩
  | setTailOffset _ _ ih => exact ⟨ih.elemSize, ih.ringSize, ih.head_lt, ih.tail_lt⟩

theorem Logfs.Reachable.append {buf : Bytes} (h : lfs.Reachable)
    (ok : logfsAppend lfs buf = .ok lfs') : lfs'.Reachable := by
  have adds : ∀ fuel lfs₀ lfs₁, Logfs.Reachable lfs₀ → addWhenRoom buf fuel lfs₀ = .ok lfs₁ →
      lfs₁.Reachable := by
    intro fuel
    induction fuel with
    | zero =>
      intro lfs₀ lfs₁ _ ok
      cases ok
    | succ fuel ih =>
      intro lfs₀ lfs₁ h₀ ok
      simp only [addWhenRoom] at ok
      split at ok
      · next add =>
        obtain rfl := Except.ok.inj ok
        have added := h₀.add buf
        rwa [add] at added
      · split at ok
        · cases ok
        · next pass => exact ih _ _ ((h₀.request false).pass pass) ok
  unfold logfsAppend at ok
  split at ok
  · cases ok
  · split at ok
    · cases ok
    · next added =>
      have h₁ := adds _ _ _ h added
      split at ok
      · exact (h₁.request false).pass ok
      · obtain rfl := Except.ok.inj ok
        exact h₁

theorem Logfs.Reachable.read {rand : Nat → Nat} {off len : Nat} {flush : Bool}
    {reply : Option Bytes} (h : lfs.Reachable)
    (ok : logfsReadWithFlush lfs rand off len flush = .ok (reply, lfs')) : lfs'.Reachable := by
  unfold logfsReadWithFlush at ok
  split at ok
  · cases ok
  · split at ok
    · split at ok
      · cases ok
      · next pass => exact ((h.request true).pass pass).blocks _ _ _ _ _ ok
    · exact h.blocks _ _ _ _ _ ok

theorem LogSession.run_reachable {s s' : LogSession} {replies : List (Option Bytes)}
    (cs : List LogCall) (h : s.logfs.Reachable) (run : s.run cs = .ok (replies, s')) :
    s'.logfs.Reachable := by
  induction cs generalizing s replies with
  | nil =>
    obtain ⟨_, rfl⟩ := Prod.mk.inj (Except.ok.inj run)
    exact h
  | cons c cs ih =>
    simp only [LogSession.run] at run
    split at run
    · cases run
    · next step =>
      split at run
      · cases run
      · next rest =>
        obtain ⟨_, rfl⟩ := Prod.mk.inj (Except.ok.inj run)
        refine ih ?_ rest
        cases c with
        | append buf =>
          simp only [LogSession.step] at step
          split at step
          · cases step
          · next append =>
            obtain ⟨_, rfl⟩ := Prod.mk.inj (Except.ok.inj step)
            exact h.append append
        | read off len rand =>
          simp only [LogSession.step] at step
          split at step
          · cases step
          · next read =>
            obtain ⟨_, rfl⟩ := Prod.mk.inj (Except.ok.inj step)
            exact h.read read

theorem Logfs.length_queued : lfs.queued.length = logfsWbAvail lfs := by
  simp [Logfs.queued]

theorem Logfs.Shaped.holds (h : lfs.Shaped) : lfs.writeBuffer.Holds lfs.queued := by
  have head_lt := h.head_lt
  have tail_lt := h.tail_lt
  refine ⟨tail_lt, ?_, ?_, ?_⟩
  · rw [Logfs.length_queued, logfsWbAvail]
    split_ifs <;> omega
  · rw [Logfs.length_queued, logfsWbAvail, slot]
    split_ifs <;> omega
  · intro i x at_
    obtain ⟨j, is_j, rfl⟩ := Option.map_eq_some_iff.mp ((List.getElem?_map).symm.trans at_)
    obtain ⟨_, rfl⟩ := List.getElem?_eq_some_iff.mp is_j
    rw [List.getElem_range]

/-- The kernel does not complete a write of `2 ^ 31` bytes. -/
theorem Logfs.Writes.block_lt {buf : Bytes} (writes : lfs.Writes buf lfs') :
    lfs.device.block < 2 ^ 31 := by
  obtain ⟨device, write⟩ := writes.write
  obtain ⟨_, spec⟩ := deviceWrite_ok write
  have pos : 0 < buf.length := List.length_pos_of_ne_nil writes.some_
  have le := Nat.le_of_dvd pos (spec rfl).2.1
  have := writes.transfer
  omega

/-- A drain writes one block. -/
theorem Logfs.Writes.drain {buf : Bytes} (h : lfs.Shaped) (writes : lfs.Writes buf lfs')
    (mode : lfs.dontDequeueWb = false) : buf.length = lfs.device.block := by
  have block_pos := lfs.device.block_pos
  have block_lt := writes.block_lt
  have pos : 0 < toInt lfs.device.block := by
    have := toInt_pos block_pos block_lt
    omega
  obtain ⟨wb, dequeue⟩ := writes.dequeue
  obtain ⟨head, _, some_, short, length⟩ := dequeueFrom_length pos h.tail_lt dequeue
  have short := short mode
  rw [ofInt_toInt block_lt] at short length
  have rounded := roundUp_eq_block some_ short
  rw [callRoundUp_eq block_pos (by rwa [rounded]), rounded] at length
  omega

/-- What a dequeue counts first: the queued bytes, unless one byte of the ring is free. -/
theorem Logfs.Shaped.ahead_cases (h : lfs.Shaped) :
    logfsWbAvail lfs + 1 < lfs.writeBuffer.size ∧
        lfs.writeBuffer.ahead lfs.writeBuffer.head = logfsWbAvail lfs ∨
      logfsWbAvail lfs + 1 = lfs.writeBuffer.size ∧
        lfs.writeBuffer.ahead lfs.writeBuffer.head = 2 ^ 64 - 1 := by
  have head_lt := h.head_lt
  have tail_lt := h.tail_lt
  have device_lt := lfs.device.block_lt
  have size_lt : lfs.writeBuffer.size < 2 ^ 64 := by
    rw [h.ringSize, wcacheBlocks]
    omega
  simp only [WriteBuffer.ahead, logfsWbAvail]
  rcases Nat.lt_trichotomy lfs.writeBuffer.tail lfs.writeBuffer.head with lt | same | gt
  · have distance : subSize lfs.writeBuffer.head lfs.writeBuffer.tail =
        lfs.writeBuffer.head - lfs.writeBuffer.tail := subSize_of_le (by omega) (by omega)
    simp only [if_pos lt, if_pos (Nat.le_of_lt lt)]
    rw [distance, subSize_of_le (by omega) (by omega)]
    exact Or.inl ⟨by omega, rfl⟩
  · -- the count of a ring with one free byte wraps
    have full : subSize (subSize lfs.writeBuffer.head lfs.writeBuffer.tail) 1 = 2 ^ 64 - 1 := by
      rw [← same, subSize_of_le (by omega) (Nat.le_refl _), Nat.sub_self]
      rfl
    rw [if_neg (by omega), if_pos (by omega), full]
    exact Or.inr ⟨by omega, rfl⟩
  · simp only [if_neg (Nat.not_lt_of_lt gt), if_neg (Nat.not_le_of_lt gt)]
    exact Or.inl ⟨by omega, trivial⟩

/-- A peek whose buffer can be allocated copies the whole queue, padded with zeros. -/
theorem Logfs.Shaped.peeked {buf : Bytes} (h : lfs.Shaped) (block_lt : lfs.device.block < 2 ^ 31)
    (dequeue : writeBufferDequeue lfs.writeBuffer lfs.device.block true = .ok (some buf, wb))
    (short : buf.length < 2 ^ 31) :
    logfsWbAvail lfs + 1 < lfs.writeBuffer.size ∧
      lfs.writeBuffer.lastAvail < logfsWbAvail lfs ∧
      buf = padTo (roundUp (logfsWbAvail lfs) lfs.device.block) lfs.queued ∧
      wb = { lfs.writeBuffer with lastAvail := logfsWbAvail lfs } := by
  have block_pos := lfs.device.block_pos
  have device_lt := lfs.device.block_lt
  have head_lt := h.head_lt
  have tail_lt := h.tail_lt
  have pos : 0 < toInt lfs.device.block := by
    have := toInt_pos block_pos block_lt
    omega
  have size_lt : lfs.writeBuffer.size < 2 ^ 64 := by
    rw [h.ringSize, wcacheBlocks]
    omega
  obtain ⟨head, here, _, _, length⟩ := dequeueFrom_length pos tail_lt dequeue
  obtain rfl := here rfl
  rw [ofInt_toInt block_lt] at length
  have ahead : logfsWbAvail lfs + 1 < lfs.writeBuffer.size ∧
      lfs.writeBuffer.ahead lfs.writeBuffer.head = logfsWbAvail lfs := by
    refine h.ahead_cases.resolve_right fun wraps => ?_
    rw [wraps.2] at length
    omega
  obtain ⟨room, ahead⟩ := ahead
  rw [ahead] at length
  have fits : roundUp (logfsWbAvail lfs) lfs.device.block < 2 ^ 31 := by
    have tight := (roundUp_spec (n := logfsWbAvail lfs) block_pos).2.2
    have inner : ofInt (toInt (logfsWbAvail lfs)) = logfsWbAvail lfs := ofInt_toInt (by omega)
    by_contra large
    -- an int holds the sum as a negative number
    have negative : toInt (roundUp (logfsWbAvail lfs) lfs.device.block) < 0 := by
      rw [toInt, Nat.mod_eq_of_lt (by omega), if_neg large]
      omega
    have wrapped : 2 ^ 63 ≤ callRoundUp (logfsWbAvail lfs) lfs.device.block := by
      have low : -2 ^ 32 ≤ toInt (roundUp (logfsWbAvail lfs) lfs.device.block) := by
        rw [toInt, Nat.mod_eq_of_lt (by omega), if_neg large]
        omega
      rw [callRoundUp, inner, Nat.mod_eq_of_lt (by omega), ofInt]
      omega
    omega
  have peek := writeBufferDequeue_peek h.holds size_lt (by rwa [Logfs.length_queued]) block_pos
    block_lt (fun _ => by rwa [Logfs.length_queued])
  rw [peek, Logfs.length_queued] at dequeue
  by_cases old : logfsWbAvail lfs ≤ lfs.writeBuffer.lastAvail
  · rw [if_pos old] at dequeue
    cases dequeue
  · rw [if_neg old] at dequeue
    obtain ⟨same, rfl⟩ := Prod.mk.inj (Except.ok.inj dequeue)
    exact ⟨room, by omega, (Option.some.inj same).symm, rfl⟩

/-- A peek writes the whole queue, padded with zeros. -/
theorem Logfs.Writes.peek {buf : Bytes} (h : lfs.Shaped) (writes : lfs.Writes buf lfs')
    (mode : lfs.dontDequeueWb = true) :
    buf = padTo (roundUp (logfsWbAvail lfs) lfs.device.block) lfs.queued := by
  have transfer := writes.transfer
  obtain ⟨wb, dequeue⟩ := writes.dequeue
  rw [mode] at dequeue
  exact (h.peeked writes.block_lt dequeue (by omega)).2.2.1

/-- What a pass that writes does to the device and the cache. -/
theorem Logfs.Writes.result {buf : Bytes} (h : lfs.Shaped) (writes : lfs.Writes buf lfs') :
    lfs.device.block ∣ lfs.tailOffset ∧ lfs.device.block ∣ buf.length ∧
      (lfs.Coherent → (lfs'.Coherent ↔
        ∀ elem ∈ lfs.readCache.cache, elem.valid → elem.beginOffset ≠ lfs.tailOffset →
          elem.data =
            (lfs.device.bytes.write lfs.tailOffset buf).read elem.beginOffset lfs.device.block)) := by
  obtain ⟨wb, dequeue⟩ := writes.dequeue
  obtain ⟨device, write⟩ := writes.write
  obtain ⟨_, spec⟩ := deviceWrite_ok write
  obtain ⟨aligned, whole, _, bytes⟩ := spec rfl
  have cache_aligned : lfs.readCache.elemSize ∣ lfs.tailOffset := h.elemSize ▸ aligned
  obtain ⟨rc, invalidate, elemSize, iff⟩ :=
    @readCacheInvalidate_spec _ lfs.device.bytes _ cache_aligned buf.length
  have pass := writes.pass
  simp only [flusherPass, dequeue, if_neg writes.some_, write, invalidate] at pass
  obtain rfl := Except.ok.inj pass
  refine ⟨aligned, whole, fun coherent => ?_⟩
  rw [← h.elemSize, ← bytes]
  exact iff device.bytes coherent

/-- The part of a device block that a write of whole blocks covers, or not. -/
theorem read_block_of_write {m : Mem} {block tail begin_ : Nat} {buf : Bytes}
    (aligned : block ∣ tail) (whole : block ∣ buf.length) (begin_aligned : block ∣ begin_)
    (other : begin_ ≠ tail) :
    (m.write tail buf).read begin_ block =
      if tail < begin_ ∧ begin_ < tail + buf.length then (buf.drop (begin_ - tail)).take block
      else m.read begin_ block := by
  have stop_aligned := Nat.dvd_add aligned whole
  split_ifs with inside
  · have le := next_block_le begin_aligned stop_aligned inside.2
    have place : begin_ = tail + (begin_ - tail) := by omega
    conv_lhs => rw [place]
    exact Mem.read_write_inside m (by omega)
  · apply Mem.read_write_of_apart
    rcases Nat.lt_or_gt_of_ne other with before | behind
    · exact Or.inl (next_block_le begin_aligned aligned before)
    · exact Or.inr (by omega)

/-- The cached blocks start at block offsets and hold what the device holds. -/
theorem Logfs.Shaped.cached (h : lfs.Shaped) (coherent : lfs.Coherent) :
    ∀ elem ∈ lfs.readCache.cache, elem.valid → lfs.device.block ∣ elem.beginOffset ∧
      elem.data = lfs.device.bytes.read elem.beginOffset lfs.device.block := by
  intro elem mem valid
  rw [← h.elemSize]
  exact ⟨coherent.aligned elem mem valid, coherent.data elem mem valid⟩

theorem Logfs.Writes.drain_coherent {buf : Bytes} (h : lfs.Shaped) (coherent : lfs.Coherent)
    (writes : lfs.Writes buf lfs') (mode : lfs.dontDequeueWb = false) : lfs'.Coherent := by
  have length := writes.drain h mode
  obtain ⟨aligned, whole, iff⟩ := writes.result h
  refine (iff coherent).mpr fun elem mem valid other => ?_
  obtain ⟨begin_aligned, data⟩ := h.cached coherent elem mem valid
  rw [read_block_of_write aligned whole begin_aligned other, if_neg ?_]
  · exact data
  · rintro ⟨behind, before⟩
    have := next_block_le aligned begin_aligned behind
    omega

/-- A later block that starts in what a peek writes starts in the queue, and is the piece of the
padded queue that belongs there. -/
theorem Logfs.Writes.piece {buf : Bytes} (h : lfs.Shaped) (writes : lfs.Writes buf lfs')
    (mode : lfs.dontDequeueWb = true) {begin_ : Nat} (begin_aligned : lfs.device.block ∣ begin_)
    (behind : lfs.tailOffset < begin_) :
    (begin_ < lfs.tailOffset + buf.length ↔ begin_ < lfs.tailOffset + logfsWbAvail lfs) ∧
      (begin_ < lfs.tailOffset + buf.length →
        (buf.drop (begin_ - lfs.tailOffset)).take lfs.device.block = padTo lfs.device.block
          ((lfs.queued.drop (begin_ - lfs.tailOffset)).take lfs.device.block)) := by
  have block_pos := lfs.device.block_pos
  obtain ⟨aligned, whole, _⟩ := writes.result h
  obtain ⟨dvd, le, tight⟩ := @roundUp_spec (logfsWbAvail lfs) lfs.device.block block_pos
  have bytes := writes.peek h mode
  have length : buf.length = roundUp (logfsWbAvail lfs) lfs.device.block := by
    rw [bytes]
    exact length_padTo (by rwa [Logfs.length_queued])
  have stop := next_block_le begin_aligned (Nat.dvd_add aligned whole)
  constructor
  · exact ⟨fun before => by have := stop before; omega, fun before => by omega⟩
  · intro before
    have within := stop before
    rw [bytes]
    exact take_drop_padTo (by omega)

theorem Logfs.Writes.peek_coherent_iff {buf : Bytes} (h : lfs.Shaped) (coherent : lfs.Coherent)
    (writes : lfs.Writes buf lfs') (mode : lfs.dontDequeueWb = true) :
    lfs'.Coherent ↔ lfs.Refreshes := by
  obtain ⟨aligned, whole, iff⟩ := writes.result h
  rw [iff coherent]
  constructor
  · intro spared _ elem mem valid behind before
    obtain ⟨begin_aligned, _⟩ := h.cached coherent elem mem valid
    obtain ⟨starts, same⟩ := writes.piece h mode begin_aligned behind
    have inside := starts.mpr before
    have other : elem.beginOffset ≠ lfs.tailOffset := by omega
    rw [spared elem mem valid other, read_block_of_write aligned whole begin_aligned other,
      if_pos ⟨behind, inside⟩]
    exact same inside
  · intro refreshes elem mem valid other
    obtain ⟨begin_aligned, data⟩ := h.cached coherent elem mem valid
    rw [read_block_of_write aligned whole begin_aligned other]
    split_ifs with inside
    · obtain ⟨behind, before⟩ := inside
      obtain ⟨starts, same⟩ := writes.piece h mode begin_aligned behind
      rw [refreshes mode elem mem valid behind (starts.mp before)]
      exact (same before).symm
    · exact data

end

/-- In every reachable state with a coherent cache, a flush pass that writes leaves the cache
coherent just when it drains, or peeks and finds no later block of the queue cached with other
bytes. -/
theorem flush_pass_coherent (lfs lfs' : Logfs) (buf : Bytes) (reachable : lfs.Reachable)
    (coherent : lfs.Coherent) (writes : lfs.Writes buf lfs') :
    lfs'.Coherent ↔ lfs.Refreshes := by
  have shaped := reachable.shaped
  cases mode : lfs.dontDequeueWb with
  | false =>
    have kept := writes.drain_coherent shaped coherent mode
    exact ⟨fun _ peeks => by simp [mode] at peeks, fun _ => kept⟩
  | true => exact writes.peek_coherent_iff shaped coherent mode

instance (rc : ReadCache) (device : Mem) : Decidable (rc.Coherent device) :=
  decidable_of_iff ((∀ elem ∈ rc.cache, elem.valid → rc.elemSize ∣ elem.beginOffset) ∧
    ∀ elem ∈ rc.cache, elem.valid → elem.data = device.read elem.beginOffset rc.elemSize)
    ⟨fun h => ⟨h.1, h.2⟩, fun h => ⟨h.aligned, h.data⟩⟩

/-- For a pass that writes: whether the cache is coherent before and after it. -/
def Logfs.passCoherence (lfs : Logfs) : Option (Bool × Bool) :=
  match writeBufferDequeue lfs.writeBuffer lfs.device.block lfs.dontDequeueWb with
  | .ok (some buf, _) =>
    match deviceWrite lfs.device buf lfs.tailOffset, flusherPass lfs with
    | .ok (true, _), .ok lfs' =>
      if buf ≠ [] ∧ buf.length ≤ 0x7ffff000 then
        some (decide lfs.Coherent, decide lfs'.Coherent)
      else none
    | _, _ => none
  | _ => none

theorem Logfs.passCoherence_eq {lfs : Logfs} {before after : Bool}
    (h : lfs.passCoherence = some (before, after)) :
    ∃ buf lfs', lfs.Writes buf lfs' ∧ (lfs.Coherent ↔ before = true) ∧
      (lfs'.Coherent ↔ after = true) := by
  unfold Logfs.passCoherence at h
  split at h
  · next buf wb dequeue =>
    split at h
    · next device lfs' write pass =>
      split at h
      · next bounds =>
        obtain ⟨rfl, rfl⟩ := Prod.mk.inj (Option.some.inj h)
        exact ⟨buf, lfs', ⟨⟨wb, dequeue⟩, bounds.1, ⟨device, write⟩, bounds.2, pass⟩, by simp,
          by simp⟩
      · cases h
    · cases h
  · cases h

/-- An append, a read of its last block, and an append that leaves this block behind another. -/
def rereadCalls : List LogCall :=
  [.append [1, 2, 3, 4, 5, 6, 7, 8, 9, 10, 11, 12, 13, 14], .read 12 2 fun _ => 0, .append [15]]

/-- The state that the flusher finds when the next read asks it to peek. -/
def peekAfter (calls : List LogCall) : Option Logfs :=
  ((LogSession.start blankDevice).run calls).toOption.map fun result =>
    { result.2.logfs with dontDequeueWb := true }

theorem peekAfter_reachable {calls : List LogCall} {lfs : Logfs} (h : peekAfter calls = some lfs) :
    lfs.Reachable := by
  obtain ⟨⟨replies, s⟩, run, rfl⟩ := Option.map_eq_some_iff.mp h
  cases ran : (LogSession.start blankDevice).run calls with
  | error e =>
    rw [ran] at run
    cases run
  | ok result =>
    rw [ran] at run
    obtain rfl := Option.some.inj run
    exact (LogSession.run_reachable calls (Logfs.Reachable.opened blankDevice) ran).request true

/-- An append, a read of its second block, and an append to that block. -/
def refreshedCalls : List LogCall :=
  [.append [1, 2, 3, 4, 5, 6], .read 1 5 fun _ => 0, .append [7]]

/-- The block at offset 4 is cached when the peek writes it again. -/
theorem flush_pass_coherent_cached :
    ∃ lfs lfs', peekAfter refreshedCalls = some lfs ∧ lfs.tailOffset = 4 ∧
      (∃ elem ∈ lfs.readCache.cache, elem.valid ∧ elem.beginOffset = 4) ∧
      flusherPass lfs = .ok lfs' ∧ lfs'.Coherent ∧ lfs.Refreshes := by
  have states : (peekAfter refreshedCalls).map (fun lfs => (lfs.passCoherence,
      decide (lfs.tailOffset = 4 ∧ ∃ elem ∈ lfs.readCache.cache, elem.valid ∧ elem.beginOffset = 4))) =
        some (some (true, true), true) := by decide +kernel
  obtain ⟨lfs, state, same⟩ := Option.map_eq_some_iff.mp states
  obtain ⟨pass, cached⟩ := Prod.mk.inj same
  obtain ⟨tail, elem⟩ := of_decide_eq_true cached
  obtain ⟨buf, lfs', writes, before, after⟩ := Logfs.passCoherence_eq pass
  exact ⟨lfs, lfs', state, tail, elem, writes.pass, after.mpr rfl, (flush_pass_coherent lfs lfs' buf
    (peekAfter_reachable state) (before.mpr rfl) writes).mp (after.mpr rfl)⟩

/-- The block at offset 12 was read with two bytes in it and has three when it is written again
behind the block at offset 8. -/
theorem flush_pass_stale :
    ∃ (lfs lfs' : Logfs) (buf : Bytes), peekAfter rereadCalls = some lfs ∧ lfs.Reachable ∧
      lfs.Coherent ∧ lfs.Writes buf lfs' ∧ ¬ lfs'.Coherent := by
  have stale : (peekAfter rereadCalls).bind Logfs.passCoherence = some (true, false) := by
    decide +kernel
  obtain ⟨lfs, state, pass⟩ := Option.bind_eq_some_iff.mp stale
  obtain ⟨buf, lfs', writes, before, after⟩ := Logfs.passCoherence_eq pass
  exact ⟨lfs, lfs', buf, state, peekAfter_reachable state, before.mpr rfl, writes, by simp [after]⟩

end OsProjects.KeyValue
