import OsProjects.KeyValue.LogfsRuns
import OsProjects.KeyValue.RecordLog

/-!
# The tail offset

A run is followed by a count of the bytes that drains take out of the write buffer. As
long as only whole blocks are drained and no append fills the ring, the tail offset is
this count and a multiple of the block, and the bytes queued behind it are the rest of
the log. A byte is then at the offset of the log on the device, or goes there, and this
is the offset that kvraw gives it.
-/
namespace OsProjects.KeyValue
open OsProjects.Library

/-- The number of bytes that the next drain takes out of the write buffer. -/
def Logfs.drains (lfs : Logfs) : Nat :=
  match logfsWbDeq lfs with
  | .error _ => 0
  | .ok lfs' => logfsWbAvail lfs - logfsWbAvail lfs'

/-- What the drains of the retry loop take out. -/
def drainedToAdd (buf : Bytes) : Nat → Logfs → Nat
  | 0, _ => 0
  | fuel + 1, lfs =>
    match writeBufferAdd lfs.writeBuffer buf with
    | (0, _) => 0
    | _ =>
      lfs.drains +
        match flusherPass { lfs with dontDequeueWb := false } with
        | .error _ => 0
        | .ok lfs => drainedToAdd buf fuel lfs

/-- What the drains of a call take out; a read drains nothing. -/
def LogCall.drained (lfs : Logfs) : LogCall → Nat
  | .append buf =>
    drainedToAdd buf (wcacheBlocks + 2) lfs +
      match addWhenRoom buf (wcacheBlocks + 2) lfs with
      | .error _ => 0
      | .ok lfs => if lfs.device.block ≤ logfsWbAvail lfs then lfs.drains else 0
  | .read .. => 0

/-- A session with the number of bytes drained so far. -/
structure LogCount where
  session : LogSession
  drained : Nat

def LogCount.start (device : Device) : LogCount := ⟨LogSession.start device, 0⟩

def LogCount.step (s : LogCount) (c : LogCall) : Except Fault (Option Bytes × LogCount) :=
  match s.session.step c with
  | .error e => .error e
  | .ok (reply, session) => .ok (reply, ⟨session, s.drained + c.drained s.session.logfs⟩)

def LogCount.run (s : LogCount) : List LogCall → Except Fault LogCount
  | [] => .ok s
  | c :: cs =>
    match s.step c with
    | .error e => .error e
    | .ok (_, s) => s.run cs

/-- The log offset of a byte is its device offset: the drained bytes are there, and the flush
before a read puts the others there. -/
structure LogCount.Aligned (s : LogCount) : Prop where
  block : s.session.logfs.device.block ∣ s.session.logfs.tailOffset
  drained : s.session.logfs.tailOffset = s.drained
  appended : s.session.logfs.tailOffset + logfsWbAvail s.session.logfs = s.session.log.length
  stored : ∀ i b, i < s.session.logfs.tailOffset → s.session.log[i]? = some b →
    s.session.logfs.device.bytes i = b
  queued : s.session.logfs.writeBuffer.Holds (s.session.log.drop s.session.logfs.tailOffset)
  flushed : s.session.logfs.Rounds →
    ∃ lfs, flusherPass { s.session.logfs with dontDequeueWb := true } = .ok lfs ∧
      ∀ i b, s.session.log[i]? = some b → lfs.device.bytes i = b

/-- kvraw on a counted session. -/
def countOps (rand : Nat → Nat) : LogfsOps (Except Fault LogCount) where
  append s buf := (0, s.bind fun s => (s.step (.append buf)).map Prod.snd)
  read s off len :=
    match s.bind fun s => s.step (.read off len rand) with
    | .error e => (none, .error e)
    | .ok (reply, s) => (reply, .ok s)

section
variable {lfs : Logfs} {log : Bytes}

theorem Logfs.Stores.drains (h : lfs.Stores log)
    (le : lfs.device.block ≤ log.length - lfs.tailOffset) : lfs.drains = lfs.device.block := by
  have block_pos := lfs.device.block_pos
  have ringSize := h.ringSize
  simp only [wcacheBlocks] at ringSize
  have some_ : log.drop lfs.tailOffset ≠ [] := List.ne_nil_of_length_pos (by
    rw [List.length_drop]
    omega)
  obtain ⟨wb, dequeue, holds, _, _⟩ :=
    writeBufferDequeue_drain h.queue h.divides some_ block_pos h.block_lt (by omega)
  have after : logfsWbAvail { lfs with writeBuffer := wb } =
      ((log.drop lfs.tailOffset).drop lfs.device.block).length := logfsWbAvail_eq holds
  simp only [Logfs.drains, logfsWbDeq, dequeue, after, h.avail, List.length_drop]
  omega

theorem drainedToAdd_spec (h : lfs.Stores log) {buf : Bytes} (takes : lfs.Takes buf.length)
    {fuel : Nat} {lfs' : Logfs} (ok : addWhenRoom buf fuel lfs = .ok lfs') :
    lfs'.tailOffset = lfs.tailOffset + drainedToAdd buf fuel lfs := by
  induction fuel generalizing lfs with
  | zero => simp [addWhenRoom] at ok
  | succ fuel ih =>
    have queue_length : (log.drop lfs.tailOffset).length = log.length - lfs.tailOffset :=
      List.length_drop
    by_cases room : log.length - lfs.tailOffset + buf.length < lfs.writeBuffer.size
    · obtain ⟨wb, add, _⟩ := writeBufferAdd_fits h.queue
        (by omega : (log.drop lfs.tailOffset).length + buf.length ≤ lfs.writeBuffer.size)
      simp only [addWhenRoom, add] at ok
      obtain rfl := Except.ok.inj ok
      simp only [drainedToAdd, add, Nat.add_zero]
    · obtain ⟨too_long, block_le, lfs₁, pass, h₁, tail₁, takes₁, _⟩ := takes.drain h room
      have full : writeBufferAdd lfs.writeBuffer buf = (1, lfs.writeBuffer) :=
        writeBufferAdd_full h.queue (by rwa [queue_length])
      simp only [addWhenRoom, full, pass] at ok
      simp only [drainedToAdd, full, pass, h.drains block_le]
      rw [ih h₁ takes₁ ok, tail₁, Nat.add_assoc]

/-- An append moves the tail offset by what it drains. -/
theorem LogCall.drained_append (h : lfs.Rep log) {buf : Bytes} (takes : lfs.Takes buf.length)
    (fits : log.length + buf.length ≤ lfs.device.size) {lfs' : Logfs}
    (ok : logfsAppend lfs buf = .ok lfs') :
    lfs'.tailOffset = lfs.tailOffset + (LogCall.append buf).drained lfs := by
  have room := h.room
  have block_pos := lfs.device.block_pos
  have enough : (log.length - lfs.tailOffset) / lfs.device.block < wcacheBlocks + 2 := by
    have ringSize := h.ringSize
    rw [Nat.div_lt_iff_lt_mul block_pos, Nat.add_mul]
    omega
  obtain ⟨lfs₁, added, h₁, _⟩ := addWhenRoom_spec h.toStores takes fits enough
  have moved := drainedToAdd_spec h.toStores takes added
  simp only [logfsAppend, h.unlocked, added, Bool.false_eq_true, if_false] at ok
  simp only [LogCall.drained, added]
  by_cases drains : lfs₁.device.block ≤ logfsWbAvail lfs₁
  · rw [if_pos drains] at ok ⊢
    rw [h₁.avail] at drains
    have block_pos₁ := lfs₁.device.block_pos
    obtain ⟨lfs₂, pass, _, _, _, drained⟩ := flusherPass_drain h₁ (by omega)
    obtain ⟨_, tail₂⟩ := drained (by omega)
    obtain rfl : lfs₂ = lfs' := Except.ok.inj (pass.symm.trans ok)
    rw [tail₂, h₁.drains drains, moved, Nat.add_assoc]
  · rw [if_neg drains] at ok ⊢
    obtain rfl : lfs₁ = lfs' := Except.ok.inj ok
    simp only [moved, Nat.add_zero]

theorem flusherPass_peek_tail {lfs' : Logfs}
    (ok : flusherPass { lfs with dontDequeueWb := true } = .ok lfs') :
    lfs'.tailOffset = lfs.tailOffset := by
  obtain ⟨buf, wb, dequeue, result⟩ := flusherPass_ok ok
  obtain rfl | ⟨device, geometry, rfl | ⟨len, rc, invalidate, rfl⟩⟩ := result <;> rfl

/-- A read moves no offset. -/
theorem logfsRead_tail (h : lfs.Rep log) {rand : Nat → Nat} {off len : Nat} (rounds : lfs.Rounds)
    (within : off + len ≤ lfs.device.size) {reply : Option Bytes} {lfs' : Logfs}
    (ok : logfsRead lfs rand off len = .ok (reply, lfs')) : lfs'.tailOffset = lfs.tailOffset := by
  have free : ¬ lfs.locked = true := by simp [h.unlocked]
  obtain ⟨lfs₁, pass, h₁, _, geometry₁, _⟩ := flusherPass_peek h rounds
  obtain ⟨data, device, rc, read, _⟩ := readBlocks_spec rand (fun n _ => h₁.works n) h₁.elemSize
    (by rwa [geometry₁.size] : off + len ≤ lfs₁.device.size) (Nat.lt_succ_self len)
    (Or.inr (Nat.lt_trans (Nat.mod_lt _ lfs₁.device.block_pos) h₁.block_lt))
  rw [logfsRead, logfsReadWithFlush, if_neg free, if_pos rfl, pass] at ok
  obtain ⟨_, rfl⟩ := Prod.mk.inj (Except.ok.inj (read.symm.trans ok))
  have tail := flusherPass_peek_tail pass
  exact tail

theorem countOps_append {rand : Nat → Nat} {x : Except Fault LogCount} {buf : Bytes}
    {s' : LogCount} (ok : ((countOps rand).append x buf).2 = .ok s') :
    ∃ s, x = .ok s ∧ s'.session.log = s.session.log ++ buf := by
  cases x with
  | error e => cases ok
  | ok s =>
    refine ⟨s, rfl, ?_⟩
    simp only [countOps, Except.bind, LogCount.step, LogSession.step] at ok
    cases append : logfsAppend s.session.logfs buf with
    | error e => simp [append, Except.map] at ok
    | ok logfs =>
      simp only [append, Except.map] at ok
      obtain rfl := Except.ok.inj ok
      rfl

/-- The offset that `kvraw_append` gives to a record is the number of bytes counted before it, and
the record goes to the end of the log. -/
theorem kvrawAppend_counts {rand : Nat → Nat} {s s' : LogCount} {key val : Bytes}
    {prev off n : Nat} {kvraw : Kvraw (Except Fault LogCount)}
    (ok : kvrawAppend (countOps rand) ⟨n, .ok s⟩ key val prev = .ok (some off, kvraw))
    (run : kvraw.logfs = .ok s') :
    off = n ∧ s'.session.log = s.session.log ++ Rec.bytes ⟨key, val, prev⟩ ∧
      kvraw.size = (n + Rec.size ⟨key, val, prev⟩) % 2 ^ 64 := by
  unfold kvrawAppend at ok
  split_ifs at ok with no_key long
  have key_length : key.length % 2 ^ 16 = key.length := Nat.mod_eq_of_lt (by omega)
  have val_length : val.length % 2 ^ 32 = val.length := Nat.mod_eq_of_lt (by omega)
  simp only [key_length, val_length, List.take_length, countOps, ne_eq, not_true_eq_false,
    if_false] at ok
  obtain ⟨same, rfl⟩ := Prod.mk.inj (Except.ok.inj ok)
  obtain rfl := Option.some.inj same
  obtain ⟨s₂, second, log₃⟩ := @countOps_append rand _ val s' run
  obtain ⟨s₁, first, log₂⟩ := @countOps_append rand _ key s₂ second
  obtain ⟨s₀, start, log₁⟩ := @countOps_append rand (.ok s) _ s₁ first
  obtain rfl := Except.ok.inj start
  refine ⟨rfl, ?_, by simp only [Rec.size]⟩
  rw [log₃, log₂, log₁, Rec.bytes, Rec.header, List.append_assoc, List.append_assoc]

end

section
variable {s : LogCount}

theorem LogCount.step_rep (h : s.session.logfs.Rep s.session.log)
    (drained : s.session.logfs.tailOffset = s.drained) (c : LogCall) (fits : s.session.Fits c)
    (flows : s.session.Flows c) :
    ∃ reply s', s.step c = .ok (reply, s') ∧ s.session.step c = .ok (reply, s'.session) ∧
      s'.session.log = c.after s.session.log ∧ s'.session.logfs.Rep s'.session.log ∧
      s'.session.logfs.tailOffset = s'.drained := by
  obtain ⟨reply, session, ok, log, rep, _⟩ := LogSession.step_rep h c fits flows
  refine ⟨reply, ⟨session, s.drained + c.drained s.session.logfs⟩,
    by simp only [LogCount.step, ok], ok, log, rep, ?_⟩
  cases c with
  | append buf =>
    simp only [LogSession.step] at ok
    split at ok
    · cases ok
    · rename_i logfs append
      obtain ⟨rfl, rfl⟩ := Prod.mk.inj (Except.ok.inj ok)
      rw [← drained]
      exact LogCall.drained_append h flows fits append
  | read off len rand =>
    simp only [LogSession.step] at ok
    split at ok
    · cases ok
    · rename_i data logfs read
      obtain ⟨rfl, rfl⟩ := Prod.mk.inj (Except.ok.inj ok)
      exact (logfsRead_tail h flows fits read).trans drained

theorem LogCount.run_rep (cs : List LogCall) (h : s.session.logfs.Rep s.session.log)
    (drained : s.session.logfs.tailOffset = s.drained)
    (admits : s.session.Admits (fun s c => s.Fits c ∧ s.Flows c) cs) :
    ∃ s', s.run cs = .ok s' ∧ s'.session.log = cs.foldl LogCall.after s.session.log ∧
      s'.session.logfs.Rep s'.session.log ∧ s'.session.logfs.tailOffset = s'.drained := by
  induction cs generalizing s with
  | nil => exact ⟨s, rfl, rfl, h, drained⟩
  | cons c cs ih =>
    obtain ⟨⟨fits, flows⟩, rest⟩ := admits
    obtain ⟨reply, s₁, ok, session, log₁, rep, drained₁⟩ := LogCount.step_rep h drained c fits flows
    simp only [session] at rest
    obtain ⟨s₂, run, log₂, rep₂, drained₂⟩ := ih rep drained₁ rest
    exact ⟨s₂, by simp only [LogCount.run, ok, run], by rw [log₂, log₁, List.foldl_cons], rep₂,
      drained₂⟩

theorem LogCount.aligned (h : s.session.logfs.Rep s.session.log)
    (drained : s.session.logfs.tailOffset = s.drained) : s.Aligned := by
  have flushed := h.flushed
  have byte : ∀ (m : Mem) (n i : Nat) (b : UInt8), m.read 0 n = s.session.log.take n → i < n →
      s.session.log[i]? = some b → m i = b := by
    intro m n i b same lt at_
    have here := congrArg (fun bs : Bytes => bs[i]?) same
    simp only [Mem.getElem?_read _ _ _ _ lt, List.getElem?_take_of_lt lt, at_, Nat.zero_add] at here
    exact Option.some.inj here
  refine ⟨h.aligned, drained, ?_, fun i b => byte _ _ i b h.take_tail, h.queue, fun rounds => ?_⟩
  · rw [h.avail]
    omega
  · obtain ⟨lfs, pass, _, all, _⟩ := flusherPass_peek h rounds
    refine ⟨lfs, pass, fun i b at_ => ?_⟩
    have whole := all.trans (List.take_length (l := s.session.log)).symm
    exact byte _ _ i b whole (List.getElem?_eq_some_iff.mp at_).1 at_

end

/-- In every state of a run on a fresh logfs whose appends drain whole blocks without filling the
write buffer, the tail offset is aligned, counts the drained bytes, and ends where the queue
starts; the offset that kvraw gives to the next record is the one where its bytes go. -/
theorem logfs_tail_aligned (device : Device) (power : ∃ k, device.block = 2 ^ k)
    (block_lt : device.block < 2 ^ 31) (works : ∀ n, device.works n = true) (calls : List LogCall)
    (admits : (LogSession.start device).Admits (fun s c => s.Fits c ∧ s.Flows c) calls) :
    ∃ s, (LogCount.start device).run calls = .ok s ∧
      s.session.log = calls.foldl LogCall.after [] ∧ s.Aligned ∧
      ∀ rand key val prev off kvraw s',
        kvrawAppend (countOps rand) ⟨s.session.log.length, .ok s⟩ key val prev =
          .ok (some off, kvraw) → kvraw.logfs = .ok s' →
        off = s.session.log.length ∧
          s'.session.log = s.session.log ++ Rec.bytes ⟨key, val, prev⟩ ∧
          kvraw.size = s'.session.log.length % 2 ^ 64 := by
  obtain ⟨s, run, log, rep, drained⟩ := LogCount.run_rep (s := LogCount.start device) calls
    (logfsOpen_rep power block_lt works) rfl admits
  refine ⟨s, run, log, LogCount.aligned rep drained, ?_⟩
  intro rand key val prev off kvraw s' ok next
  obtain ⟨off_eq, log', size⟩ := kvrawAppend_counts ok next
  refine ⟨off_eq, log', ?_⟩
  rw [size, log', List.length_append, Rec.length_bytes]

theorem logfs_tail_aligned_mixed :
    ∃ s, (LogCount.start blankDevice).run mixedCalls = .ok s ∧
      s.session.log = mixedCalls.foldl LogCall.after [] ∧ s.Aligned := by
  obtain ⟨s, run, log, aligned, _⟩ := logfs_tail_aligned blankDevice ⟨2, rfl⟩ (by decide)
    (fun _ => rfl) mixedCalls (by decide +kernel)
  exact ⟨s, run, log, aligned⟩

/-- An append that finds two bytes queued and no room drains them as a block of four. -/
theorem logfs_tail_skewed :
    ∃ s, (LogCount.start blankDevice).run
        [.append [1, 2], .append (List.replicate 127 3)] = .ok s ∧
      s.session.logfs.tailOffset = 8 ∧ s.drained = 6 ∧
      s.session.logfs.tailOffset + logfsWbAvail s.session.logfs = 131 ∧
      s.session.log.length = 129 ∧ ¬ s.Aligned := by
  have skewed : ((LogCount.start blankDevice).run
      [.append [1, 2], .append (List.replicate 127 3)]).toOption.map (fun s =>
        (s.session.logfs.tailOffset, s.drained,
          s.session.logfs.tailOffset + logfsWbAvail s.session.logfs, s.session.log.length)) =
      some (8, 6, 131, 129) := by decide +kernel
  cases run : (LogCount.start blankDevice).run
      [.append [1, 2], .append (List.replicate 127 3)] with
  | error e =>
    rw [run] at skewed
    cases skewed
  | ok s =>
    rw [run] at skewed
    simp only [Except.toOption, Option.map_some, Option.some.injEq, Prod.mk.injEq] at skewed
    obtain ⟨tail, drained, sum, log⟩ := skewed
    refine ⟨s, rfl, tail, drained, sum, log, fun aligned => ?_⟩
    have := aligned.drained
    omega

end OsProjects.KeyValue
