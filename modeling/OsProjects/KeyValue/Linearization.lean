import OsProjects.KeyValue.FlusherProtocol
import OsProjects.KeyValue.RetryLoop
import OsProjects.KeyValue.Volume

/-!
# The threads as one caller sees them

The flusher works on the buffers while the client waits, and a wait can end without a
signal. What the client gets is nevertheless what the functions of `Logfs` give it, which
make each pass at once: `ClientPc.Within` says for every program counter how far a call
has come, and no step of either thread leaves it. So every interleaving answers as the
sequential run of the same calls.
-/
namespace OsProjects.KeyValue
open OsProjects.Library

/-- The sizes are those of a handle on a working ring, and no mutex was left behind. -/
structure Logfs.Steady (lfs : Logfs) : Prop extends lfs.Shaped where
  divides : Divides64 lfs.writeBuffer.size
  block_lt : lfs.device.block < 2 ^ 31
  unlocked : lfs.locked = false

section
variable {lfs lfs' : Logfs} {buf : Bytes}

theorem Logfs.Steady.mode (h : lfs.Steady) (dontDequeueWb : Bool) :
    { lfs with dontDequeueWb := dontDequeueWb }.Steady :=
  ⟨h.toShaped.mode dontDequeueWb, h.divides, h.block_lt, h.unlocked⟩

theorem Logfs.Steady.pass (h : lfs.Steady) (pass : flusherPass lfs = .ok lfs') : lfs'.Steady := by
  have shaped := h.toShaped.pass pass
  have size := @flusherPass_ringSize lfs _ h.toShaped lfs.dontDequeueWb pass
  obtain ⟨_, wb, _, result⟩ := flusherPass_ok pass
  have kept : lfs'.device.block = lfs.device.block ∧ lfs'.locked = lfs.locked := by
    obtain rfl | ⟨device, geometry, rfl | ⟨len, rc, -, rfl⟩⟩ := result
    · exact ⟨rfl, rfl⟩
    · exact ⟨geometry.block, rfl⟩
    · exact ⟨geometry.block, rfl⟩
  exact ⟨shaped, by rw [size]; exact h.divides, by rw [kept.1]; exact h.block_lt,
    by rw [kept.2]; exact h.unlocked⟩

theorem Logfs.Steady.add (h : lfs.Steady) {wb : WriteBuffer}
    (add : (writeBufferAdd lfs.writeBuffer buf).2 = wb) :
    { lfs with writeBuffer := wb }.Steady := by
  obtain ⟨size, tail, head⟩ := writeBufferAdd_keeps buf h.head_lt
  rw [add] at size tail head
  have shaped : { lfs with writeBuffer := wb }.Shaped :=
    ⟨h.elemSize, size.trans h.ringSize, by simpa only [size] using head,
      by simpa only [size, tail] using h.tail_lt⟩
  exact ⟨shaped, by simpa only [size] using h.divides, h.block_lt, h.unlocked⟩

theorem readBlocks_locked {rand : Nat → Nat} {fuel off len : Nat} {data : Bytes}
    (ok : readBlocks rand fuel lfs off len = .ok (some data, lfs')) :
    lfs'.locked = lfs.locked := by
  induction fuel generalizing lfs off len data with
  | zero => cases ok
  | succ fuel ih =>
    simp only [readBlocks] at ok
    split at ok
    · cases ok
      rfl
    · split at ok
      · split at ok
        · cases ok
        · split at ok
          · cases ok
          · next rest _ more =>
            cases rest with
            | none => cases ok
            | some rest =>
              cases ok
              exact ih more
      · split at ok
        · cases ok
        · cases ok
        · split at ok
          · cases ok
          · split at ok
            · cases ok
            · next rest _ more =>
              cases rest with
              | none => cases ok
              | some rest =>
                cases ok
                have kept := ih more
                exact kept

theorem Logfs.Steady.blocks (h : lfs.Steady) {rand : Nat → Nat} {fuel off len : Nat} {data : Bytes}
    (ok : readBlocks rand fuel lfs off len = .ok (some data, lfs')) : lfs'.Steady := by
  obtain ⟨ring, _, _, geometry⟩ := readBlocks_frame ok
  exact ⟨h.toShaped.blocks ok, by rw [ring]; exact h.divides,
    by rw [geometry.block]; exact h.block_lt, by rw [readBlocks_locked ok]; exact h.unlocked⟩

theorem addWhenRoom_refused {fuel : Nat}
    (refused : ∀ wb, writeBufferAdd lfs.writeBuffer buf = (0, wb) → False) :
    addWhenRoom buf (fuel + 1) lfs =
      (flusherPass { lfs with dontDequeueWb := false }).bind (addWhenRoom buf fuel) := by
  rw [addWhenRoom]
  cases add : writeBufferAdd lfs.writeBuffer buf with
  | mk rv wb =>
    cases rv with
    | zero => exact absurd add (refused wb)
    | succ n => cases flusherPass { lfs with dontDequeueWb := false } <;> rfl

/-- A retry loop that ends does so in the passes that `logfs_append` is given here. -/
theorem Logfs.Steady.soon (h : lfs.Steady) {fuel n : Nat} (ends : addWhenRoom buf fuel lfs = .ok lfs')
    (enough : logfsWbAvail lfs ≤ lfs.device.block * n) : addWhenRoom buf (n + 1) lfs = .ok lfs' := by
  induction fuel generalizing lfs n with
  | zero => cases ends
  | succ fuel ih =>
    by_cases room : logfsWbAvail lfs + buf.length ≤ lfs.writeBuffer.size
    · obtain ⟨wb, add, _⟩ := writeBufferAdd_fits h.toShaped.holds
        (by rwa [Logfs.length_queued] : lfs.queued.length + buf.length ≤ lfs.writeBuffer.size)
      simp only [addWhenRoom, add] at ends ⊢
      exact ends
    · obtain empty | some_ := Nat.eq_zero_or_pos (logfsWbAvail lfs)
      · exact absurd ends (h.toShaped.rejects (by omega))
      · have retries : ∀ fuel, addWhenRoom buf (fuel + 1) lfs =
            (flusherPass { lfs with dontDequeueWb := false }).bind (addWhenRoom buf fuel) :=
          fun fuel => h.toShaped.retries (Nat.lt_of_not_le room)
        rw [retries] at ends ⊢
        cases pass : flusherPass { lfs with dontDequeueWb := false } with
        | error e => simp [pass, Except.bind] at ends
        | ok lfs₁ =>
          rw [pass] at ends
          obtain ⟨bytes, wb, dequeue, _, left⟩ := h.toShaped.dequeues h.divides h.block_lt some_
          obtain ⟨_, wb', dequeue', result⟩ := flusherPass_ok pass
          obtain ⟨_, rfl⟩ := Prod.mk.inj (Except.ok.inj (dequeue.symm.trans dequeue'))
          have ring : lfs₁.writeBuffer = wb ∧ lfs₁.device.block = lfs.device.block := by
            obtain rfl | ⟨device, geometry, rfl | ⟨len, rc, -, rfl⟩⟩ := result
            · exact ⟨rfl, rfl⟩
            · exact ⟨rfl, geometry.block⟩
            · exact ⟨rfl, geometry.block⟩
          cases n with
          | zero => omega
          | succ n =>
            refine ih ((h.mode false).pass pass) ends ?_
            rw [left _ ring.1, ring.2]
            rw [Nat.mul_succ] at enough
            omega

/-- The retry loop without a bound on its passes is the one of `logfs_append`. -/
theorem Logfs.Steady.adds (h : lfs.Steady) {fuel : Nat} (ends : addWhenRoom buf fuel lfs = .ok lfs') :
    addWhenRoom buf (wcacheBlocks + 2) lfs = .ok lfs' := by
  refine h.soon ends ?_
  have ringSize := h.ringSize
  have queued_lt := h.toShaped.queued_lt
  rw [Nat.mul_comm lfs.device.block, Nat.add_mul]
  omega

/-- More passes do not change what the retry loop ends with. -/
theorem addWhenRoom_more {fuel : Nat} (ends : addWhenRoom buf fuel lfs = .ok lfs') (more : Nat) :
    addWhenRoom buf (fuel + more) lfs = .ok lfs' := by
  induction fuel generalizing lfs with
  | zero => cases ends
  | succ fuel ih =>
    rw [Nat.add_right_comm]
    simp only [addWhenRoom] at ends ⊢
    split at ends
    · exact ends
    · split at ends
      · cases ends
      · exact ih ends

theorem Logfs.Steady.added (h : lfs.Steady) {fuel : Nat} (ends : addWhenRoom buf fuel lfs = .ok lfs') :
    lfs'.Steady := by
  induction fuel generalizing lfs with
  | zero => cases ends
  | succ fuel ih =>
    simp only [addWhenRoom] at ends
    split at ends
    · next add =>
      obtain rfl := Except.ok.inj ends
      exact h.add (by rw [add])
    · split at ends
      · cases ends
      · next pass => exact ih ((h.mode false).pass pass) ends

end

/-- What a call makes of the logfs, and what it answers. -/
def LogCall.Returns (b : Logfs) : LogCall → Option Bytes → Logfs → Prop
  | .append buf, reply, lfs => reply = some [] ∧ logfsAppend b buf = .ok lfs
  | .read off len rand, reply, lfs => logfsRead b rand off len = .ok (reply, lfs)

/-- The call ends the process. -/
def LogCall.Faults (b : Logfs) : LogCall → Prop
  | .append buf => ∃ e, logfsAppend b buf = .error e
  | .read off len rand => ∃ e, logfsRead b rand off len = .error e

section
variable (b : Logfs) (c : LogCall)

/-- The call `c` that found `b` is behind the wait that `Cont` follows. -/
def Cont.Done : Cont → Logfs → Prop
  | .finish, lfs => c.Returns b (some []) lfs ∧ ∃ buf, c = .append buf
  | .retry buf, lfs => c = .append buf ∧
      ∃ k, ∀ fuel, addWhenRoom buf (fuel + k) b = addWhenRoom buf fuel lfs
  | .read off len rand, lfs => c = .read off len rand ∧
      flusherPass { b with dontDequeueWb := true } = .ok lfs

/-- A pass will bring it there. -/
structure Cont.Asked (k : Cont) (lfs : Logfs) : Prop where
  done : ∀ lfs', flusherPass lfs = .ok lfs' → k.Done b c lfs'
  faults : ∀ e, flusherPass lfs = .error e → c.Faults b

/-- How far the call has come, by the program counter of the client and whether a pass is due. -/
def ClientPc.Within (due : Bool) (lfs : Logfs) : ClientPc → Prop
  | .lockAdd buf | .add buf => (Cont.retry buf).Done b c lfs
  | .test => ∃ buf fuel, c = .append buf ∧ addWhenRoom buf fuel b = .ok lfs
  | .unlockAdd => Cont.finish.Done b c lfs
  | .lockRaise k | .raise k | .unlockRaise k | .lockPost k | .post k =>
    k.Asked b c { lfs with dontDequeueWb := k.mode }
  | .signal k | .unlockPost k | .lockWait k | .check k | .waiting k | .woken k =>
    if due then k.Asked b c lfs else k.Done b c lfs
  | .unlockWait k => k.Done b c lfs
  | .lockRead off len rand | .copy off len rand => (Cont.read off len rand).Done b c lfs
  | _ => False

/-- How far a close has come. -/
def ClientPc.Closing (due : Bool) (lfs : Logfs) : ClientPc → Prop
  | .lockClose | .close => lfs = b
  | .signalClose | .unlockClose | .join =>
    if due then lfs = b else logfsClose b = .ok lfs.device
  | .closed => logfsClose b = .ok lfs.device
  | _ => False

end

/-- What the next step of the client asks of logfs. -/
def Threads.asks (s : Threads) : ClientCall → List LogCall
  | .call c =>
    match s.client with
    | .idle => [c]
    | _ => []
  | .close => []

/-- What it delivers to the caller. -/
def Threads.delivers (s : Threads) : List (Option Bytes) :=
  match s.client with
  | .copy off len rand =>
    match readBlocks rand (len + 1) s.lfs off len with
    | .ok (some data, _) => [some data]
    | _ => []
  | .unlockWait .finish => [some []]
  | _ => []

/-- The runs in which no read fails, with the calls made and the answers given so far. -/
inductive Trace (lfs : Logfs) : List LogCall → List (Option Bytes) → Threads → Prop where
  | start : Trace lfs [] [] (.start lfs)
  | client {calls : List LogCall} {replies : List (Option Bytes)} {s s' : Threads}
    (h : Trace lfs calls replies s) (call : ClientCall) (ok : clientStep call s = some (.ok s'))
    (works : s'.client ≠ .failed) : Trace lfs (calls ++ s.asks call) (replies ++ s.delivers) s'
  | flusher {calls : List LogCall} {replies : List (Option Bytes)} {s s' : Threads}
    (h : Trace lfs calls replies s) (ok : flusherStep s = some (.ok s')) :
    Trace lfs calls replies s'
  | wakeClient {calls : List LogCall} {replies : List (Option Bytes)} {s : Threads}
    (h : Trace lfs calls replies s) (c : Cont) (asleep : s.client = .waiting c) :
    Trace lfs calls replies { s with client := .woken c }
  | wakeFlusher {calls : List LogCall} {replies : List (Option Bytes)} {s : Threads}
    (h : Trace lfs calls replies s) (asleep : s.flusher = .waiting) :
    Trace lfs calls replies { s with flusher := .woken }

section
variable {lfs b : Logfs} {s s' : Threads} {g : Stage} {c : LogCall} {k : Cont} {calls : List LogCall}
  {replies : List (Option Bytes)} {pc : ClientPc}

theorem Reaches.works (h : Reaches lfs s) : s.client ≠ .failed := by
  cases h with
  | start => exact nofun
  | step _ _ works => exact works

/-- A step of the flusher that is no pass leaves the buffers alone, and the client too unless it wakes
it. -/
theorem flusherStep_cases (ok : flusherStep s = some (.ok s')) :
    (s.flusher = .pass ∧ s'.client = s.client ∧ s'.flushAvailable = false ∧
      flusherPass s.lfs = .ok s'.lfs) ∨
    (s'.flushAvailable = s.flushAvailable ∧ s'.lfs = s.lfs ∧
      (s'.client = s.client ∨ ∃ k, s.client = .waiting k ∧ s'.client = .woken k)) := by
  cases at_ : s.flusher <;> simp only [flusherStep, at_] at ok
  case waiting | returned => cases ok
  case woken => rw [(lockDo_ok ok).2]; exact Or.inr ⟨rfl, rfl, Or.inl rfl⟩
  case lockDone => rw [(lockDone_ok ok).2]; exact Or.inr ⟨rfl, rfl, Or.inl rfl⟩
  case signal =>
    rw [go_ok ok]
    refine Or.inr ⟨rfl, rfl, ?_⟩
    cases pc : s.client with
    | waiting k => exact Or.inr ⟨k, rfl, by simp [ClientPc.wake]⟩
    | _ => exact Or.inl (by simp [ClientPc.wake])
  case check | exitTest => split_ifs at ok <;> rw [go_ok ok] <;> exact Or.inr ⟨rfl, rfl, Or.inl rfl⟩
  case pass =>
    split at ok
    · cases ok
    · next pass =>
      rw [go_ok ok]
      exact Or.inl ⟨rfl, rfl, rfl, pass⟩
  all_goals rw [go_ok ok]; exact Or.inr ⟨rfl, rfl, Or.inl rfl⟩

theorem Trace.reaches (h : Trace lfs calls replies s) : Reaches lfs s := by
  induction h with
  | start => exact .start
  | client _ call ok works ih => exact ih.step (.client call ok) works
  | flusher _ ok ih =>
    refine ih.step (.flusher ok) ?_
    obtain ⟨_, same, _⟩ | ⟨_, _, same | ⟨k, _, woken⟩⟩ := flusherStep_cases ok
    · rw [same]
      exact ih.works
    · rw [same]
      exact ih.works
    · rw [woken]
      exact nofun
  | wakeClient _ c asleep ih => exact ih.step (.wakeClient c asleep) nofun
  | wakeFlusher _ asleep ih => exact ih.step (.wakeFlusher asleep) ih.works

theorem ClientPc.Within.busy {due : Bool} (h : pc.Within b c due lfs) : pc ≠ .idle := by
  rintro rfl
  exact h

theorem Threads.asks_busy (busy : s.client ≠ .idle) (call : ClientCall) : s.asks call = [] := by
  cases call with
  | close => rfl
  | call c => cases pc : s.client <;> first | exact absurd pc busy | simp only [Threads.asks, pc]

/-- The step of a client that is in a call: it goes on, or the call returns. -/
theorem Threads.In.within (i : s.In g) (base : b.Steady)
    (h : s.client.Within b c s.flushAvailable s.lfs) {call : ClientCall}
    (ok : clientStep call s = some (.ok s')) (works : s'.client ≠ .failed) :
    (s.delivers = [] ∧ s'.client.Within b c s'.flushAvailable s'.lfs) ∨
      ∃ data, s.delivers = [some data] ∧ (s'.client = .idle ∨ s'.client = .unlockRead) ∧
        c.Returns b (some data) s'.lfs := by
  have free : ¬ b.locked = true := by simp [base.unlocked]
  have allowed := i.client
  have available := i.available
  cases pc : s.client <;> rw [pc] at allowed h <;> simp only [clientStep, pc] at ok
  case lockAdd buf =>
    have silent : s.delivers = [] := by simp only [Threads.delivers, pc]
    obtain ⟨_, rfl⟩ := lockDo_ok ok
    exact Or.inl ⟨silent, h⟩
  case add buf =>
    have silent : s.delivers = [] := by simp only [Threads.delivers, pc]
    obtain ⟨rfl, k, same⟩ := h
    split at ok
    · next wb add =>
      obtain rfl := go_ok ok
      refine Or.inl ⟨silent, buf, 1 + k, rfl, ?_⟩
      rw [same]
      simp only [addWhenRoom, add]
    · next refused =>
      obtain rfl := go_ok ok
      have next : ∀ fuel, addWhenRoom buf (fuel + (k + 1)) b =
          (flusherPass { s.lfs with dontDequeueWb := false }).bind (addWhenRoom buf fuel) := by
        intro fuel
        rw [← addWhenRoom_refused refused, ← same, Nat.add_assoc, Nat.add_comm 1 k]
      refine Or.inl ⟨silent, fun lfs' pass => ⟨rfl, k + 1, fun fuel => ?_⟩,
        fun e pass => ?_⟩
      · change flusherPass { s.lfs with dontDequeueWb := false } = .ok lfs' at pass
        rw [next, pass]
        rfl
      · -- a loop that ends with fewer passes ends with these
        change flusherPass { s.lfs with dontDequeueWb := false } = .error e at pass
        cases added : addWhenRoom buf (wcacheBlocks + 2) b with
        | error f => exact ⟨f, by rw [logfsAppend, if_neg free, added]⟩
        | ok lfs' =>
          have more := addWhenRoom_more added (k + 1)
          rw [next, pass] at more
          cases more
  case test =>
    have silent : s.delivers = [] := by simp only [Threads.delivers, pc]
    obtain ⟨buf, fuel, rfl, added⟩ := h
    have appended : logfsAppend b buf = if s.lfs.device.block ≤ logfsWbAvail s.lfs then
        flusherPass { s.lfs with dontDequeueWb := false } else .ok s.lfs := by
      rw [logfsAppend, if_neg free, base.adds added]
    split_ifs at ok with full
    · obtain rfl := go_ok ok
      rw [if_pos full] at appended
      exact Or.inl ⟨silent,
        fun lfs' pass => ⟨⟨rfl, appended.trans pass⟩, buf, rfl⟩,
        fun e pass => ⟨e, appended.trans pass⟩⟩
    · obtain rfl := go_ok ok
      refine Or.inl ⟨silent, ⟨rfl, ?_⟩, buf, rfl⟩
      rw [appended, if_neg full]
  case unlockAdd =>
    have silent : s.delivers = [] := by simp only [Threads.delivers, pc]
    obtain rfl := go_ok ok
    obtain rfl := Stage.eq_quiet allowed (by simp) rfl
    refine Or.inl ⟨silent, ?_⟩
    have idle : s.flushAvailable = false := available
    simpa only [ClientPc.Within, idle, Bool.false_eq_true, if_false] using h
  case lockRaise k =>
    have silent : s.delivers = [] := by simp only [Threads.delivers, pc]
    obtain ⟨_, rfl⟩ := lockDone_ok ok
    exact Or.inl ⟨silent, h⟩
  case raise k =>
    have silent : s.delivers = [] := by simp only [Threads.delivers, pc]
    obtain rfl := go_ok ok
    exact Or.inl ⟨silent, h⟩
  case unlockRaise k =>
    have silent : s.delivers = [] := by simp only [Threads.delivers, pc]
    obtain rfl := go_ok ok
    refine Or.inl ⟨silent, ?_⟩
    cases k <;> exact h
  case lockPost k =>
    have silent : s.delivers = [] := by simp only [Threads.delivers, pc]
    obtain ⟨_, rfl⟩ := lockDo_ok ok
    exact Or.inl ⟨silent, h⟩
  case post k =>
    have silent : s.delivers = [] := by simp only [Threads.delivers, pc]
    obtain rfl := go_ok ok
    exact Or.inl ⟨silent, h⟩
  case signal k =>
    have silent : s.delivers = [] := by simp only [Threads.delivers, pc]
    obtain rfl := go_ok ok
    exact Or.inl ⟨silent, h⟩
  case unlockPost k =>
    have silent : s.delivers = [] := by simp only [Threads.delivers, pc]
    obtain rfl := go_ok ok
    exact Or.inl ⟨silent, h⟩
  case lockWait k =>
    have silent : s.delivers = [] := by simp only [Threads.delivers, pc]
    obtain ⟨_, rfl⟩ := lockDone_ok ok
    exact Or.inl ⟨silent, h⟩
  case check k =>
    have silent : s.delivers = [] := by simp only [Threads.delivers, pc]
    split_ifs at ok with raised
    · obtain rfl := go_ok ok
      exact Or.inl ⟨silent, h⟩
    · -- a lowered flag means that no pass is due
      obtain rfl := go_ok ok
      have stage := i.inProgress
      simp only [raised] at stage
      have idle : s.flushAvailable = false := by
        rw [available]
        cases g <;> first | rfl | (cases allowed; done) | cases stage
      refine Or.inl ⟨silent, ?_⟩
      simpa only [ClientPc.Within, idle, Bool.false_eq_true, if_false] using h
  case waiting k => cases ok
  case woken k =>
    have silent : s.delivers = [] := by simp only [Threads.delivers, pc]
    obtain ⟨_, rfl⟩ := lockDone_ok ok
    exact Or.inl ⟨silent, h⟩
  case unlockWait k =>
    obtain rfl := go_ok ok
    cases k with
    | finish =>
      exact Or.inr ⟨[], by simp only [Threads.delivers, pc], Or.inl rfl, h.1⟩
    | retry buf => exact Or.inl ⟨by simp only [Threads.delivers, pc], h⟩
    | read off len rand => exact Or.inl ⟨by simp only [Threads.delivers, pc], h⟩
  case lockRead off len rand =>
    have silent : s.delivers = [] := by simp only [Threads.delivers, pc]
    obtain ⟨_, rfl⟩ := lockDo_ok ok
    exact Or.inl ⟨silent, h⟩
  case copy off len rand =>
    obtain ⟨rfl, pass⟩ := h
    split at ok
    · cases ok
    · obtain rfl := go_ok ok
      exact absurd rfl works
    · next data lfs read =>
      obtain rfl := go_ok ok
      refine Or.inr ⟨data, by simp only [Threads.delivers, pc, read], Or.inr rfl, ?_⟩
      change logfsRead b rand off len = .ok (some data, lfs)
      rw [logfsRead, logfsReadWithFlush, if_neg free, if_pos rfl, pass]
      exact read
  all_goals exact absurd h id

/-- The step of a client that closes. -/
theorem Threads.In.closing (i : s.In g)
    (h : s.client.Closing b s.flushAvailable s.lfs) {call : ClientCall}
    (ok : clientStep call s = some (.ok s')) :
    s.asks call = [] ∧ s.delivers = [] ∧ s'.client.Closing b s'.flushAvailable s'.lfs := by
  have available := i.available
  have allowed := i.flusher
  refine ⟨Threads.asks_busy (fun idle => by rw [idle] at h; exact h) call, ?_, ?_⟩
  · unfold Threads.delivers
    split
    · next pc => rw [pc] at h; exact absurd h id
    · next pc => rw [pc] at h; exact absurd h id
    · rfl
  · cases pc : s.client <;> rw [pc] at h <;> simp only [clientStep, pc] at ok
    case lockClose =>
      obtain ⟨_, rfl⟩ := lockDo_ok ok
      exact h
    case close =>
      obtain rfl := go_ok ok
      exact h
    case signalClose =>
      obtain rfl := go_ok ok
      exact h
    case unlockClose =>
      obtain rfl := go_ok ok
      exact h
    case join =>
      -- the flusher returns after its last pass only
      split_ifs at ok with returned
      obtain rfl := go_ok ok
      rw [returned] at allowed
      have idle : s.flushAvailable = false := by
        rw [available]
        cases g <;> first | rfl | cases allowed
      simpa only [ClientPc.Closing, idle, Bool.false_eq_true, if_false] using h
    case closed => cases ok
    all_goals exact absurd h id

/-- A pass is due when the flusher makes it, and no mutex of the client is in its way. -/
theorem Threads.In.due (i : s.In g) (at_ : s.flusher = .pass) :
    s.flushAvailable = true ∧ s.client.holdsDo = false := by
  have doFlush := i.doFlush
  have flusher := i.flusher
  have available := i.available
  rw [at_] at doFlush flusher
  refine ⟨?_, doFlush.apart'⟩
  rw [available]
  cases g <;> first | rfl | cases flusher

end

/-- The calls without an answer: none, or the one that the client is in. -/
def Threads.Phase (s : Threads) (b : Logfs) : List LogCall → Prop
  | [] => (s.client = .idle ∨ s.client = .unlockRead) ∧ s.lfs = b ∨
      s.client.Closing b s.flushAvailable s.lfs
  | [c] => s.client.Within b c s.flushAvailable s.lfs
  | _ => False

/-- The answers are those of a sequential run of the answered calls. -/
structure Threads.Follows (s : Threads) (start : LogSession) (calls : List LogCall)
    (replies : List (Option Bytes)) : Prop where
  answered : ∃ done pending session, calls = done ++ pending ∧
    start.run done = .ok (replies, session) ∧ session.logfs.Steady ∧ s.Phase session.logfs pending

section
variable {lfs b : Logfs} {s s' : Threads} {g : Stage} {c : LogCall} {calls pending : List LogCall}
  {replies : List (Option Bytes)} {start session : LogSession} {data : Bytes}

/-- While a pass is made the client waits for it. -/
theorem ClientPc.Within.asked {pc : ClientPc} (h : pc.Within b c true lfs) (free : pc.holdsDo = false)
    (waits : g.client pc = true) (available : g.available = true) :
    ∃ k : Cont, k.Asked b c lfs ∧ ∀ lfs', k.Done b c lfs' → pc.Within b c false lfs' := by
  cases pc
  case lockWait k | check k | waiting k | woken k =>
    refine ⟨k, by simpa only [ClientPc.Within, if_true] using h, fun lfs' done => ?_⟩
    simpa only [ClientPc.Within, Bool.false_eq_true, if_false] using done
  all_goals first
    | exact absurd h id
    | (cases free; done)
    | (cases g <;> first | (cases waits; done) | cases available)

theorem ClientPc.Closing.joins {pc : ClientPc} (h : pc.Closing b true lfs) (free : pc.holdsDo = false)
    (waits : g.client pc = true) (available : g.available = true) : pc = .join ∧ lfs = b := by
  cases pc
  case join => exact ⟨rfl, by simpa only [ClientPc.Closing, if_true] using h⟩
  all_goals first
    | exact absurd h id
    | (cases free; done)
    | (cases g <;> first | (cases waits; done) | cases available)

theorem Threads.Phase.cases (h : s.Phase b pending) :
    (pending = [] ∧ (s.client = .idle ∨ s.client = .unlockRead) ∧ s.lfs = b) ∨
    (pending = [] ∧ s.client.Closing b s.flushAvailable s.lfs) ∨
    ∃ c, pending = [c] ∧ s.client.Within b c s.flushAvailable s.lfs := by
  match pending, h with
  | [], Or.inl settled => exact Or.inl ⟨rfl, settled⟩
  | [], Or.inr closing => exact Or.inr (Or.inl ⟨rfl, closing⟩)
  | [c], within => exact Or.inr (Or.inr ⟨c, rfl, within⟩)

/-- What a pass finds: the call that waits for it, or the close. -/
theorem Threads.Phase.awaits (i : s.In g) (at_ : s.flusher = .pass) (h : s.Phase b pending) :
    (∃ c k, pending = [c] ∧ Cont.Asked b c k s.lfs ∧
      ∀ lfs', k.Done b c lfs' → s.client.Within b c false lfs') ∨
    (pending = [] ∧ s.client = .join ∧ s.lfs = b) := by
  obtain ⟨due, free⟩ := i.due at_
  have available := i.available.symm.trans due
  have waits := i.client
  rcases h.cases with ⟨_, idle | unlock, _⟩ | ⟨rfl, closing⟩ | ⟨c, rfl, within⟩
  · rw [idle] at waits
    cases g <;> first | (cases waits; done) | cases available
  · rw [unlock] at free
    cases free
  · rw [due] at closing
    exact Or.inr ⟨rfl, closing.joins free waits available⟩
  · rw [due] at within
    obtain ⟨k, asked, done⟩ := within.asked free waits available
    exact Or.inl ⟨c, k, rfl, asked, done⟩

/-- A pass serves the pending call. -/
theorem Threads.Phase.pass (i : s.In g) (at_ : s.flusher = .pass) (base : b.Steady)
    (h : s.Phase b pending) (pass : flusherPass s.lfs = .ok s'.lfs) (client : s'.client = s.client)
    (served : s'.flushAvailable = false) : s'.Phase b pending := by
  have unlocked : ¬ b.locked = true := by simp [base.unlocked]
  obtain ⟨c, k, rfl, asked, done⟩ | ⟨rfl, joins, same⟩ := h.awaits i at_
  · change s'.client.Within b c s'.flushAvailable s'.lfs
    rw [client, served]
    exact done _ (asked.done _ pass)
  · refine Or.inr ?_
    rw [client, joins, served]
    simp only [ClientPc.Closing, Bool.false_eq_true, if_false]
    rw [logfsClose, if_neg unlocked, ← same, pass]

/-- The flusher ends the process where the pending call or the close does. -/
theorem Threads.Phase.flusher_faults (i : s.In g) (base : b.Steady) (h : s.Phase b pending) {f : Fault}
    (ends : flusherStep s = some (.error f)) :
    (∃ c, pending = [c] ∧ c.Faults b) ∨ (pending = [] ∧ ∃ e, logfsClose b = .error e) := by
  have unlocked : ¬ b.locked = true := by simp [base.unlocked]
  have pass : s.flusher = .pass ∧ flusherPass s.lfs = .error f := by
    cases at_ : s.flusher <;>
      simp only [flusherStep, at_, Threads.go, Threads.lockDo, Threads.lockDone] at ends
    case pass =>
      split at ends
      · next pass => exact ⟨rfl, by rw [pass]; cases ends; rfl⟩
      · cases ends
    all_goals first
      | cases ends
      | (split_ifs at ends <;> cases ends)
  obtain ⟨c, k, rfl, asked, _⟩ | ⟨rfl, _, same⟩ := h.awaits i pass.1
  · exact Or.inl ⟨c, rfl, asked.faults _ pass.2⟩
  · refine Or.inr ⟨rfl, f, ?_⟩
    rw [logfsClose, if_neg unlocked, ← same, pass.2]

/-- So does the client. -/
theorem Threads.Phase.client_faults (base : b.Steady) (h : s.Phase b pending) {call : ClientCall}
    {f : Fault} (ends : clientStep call s = some (.error f)) : ∃ c, pending = [c] ∧ c.Faults b := by
  have unlocked : ¬ b.locked = true := by simp [base.unlocked]
  have copy : ∃ off len rand, s.client = .copy off len rand ∧
      readBlocks rand (len + 1) s.lfs off len = .error f := by
    cases pc : s.client <;>
      simp only [clientStep, pc, Threads.go, Threads.lockDo, Threads.lockDone] at ends
    case copy off len rand =>
      split at ends
      · next read => exact ⟨off, len, rand, rfl, by rw [read]; cases ends; rfl⟩
      · cases ends
      · cases ends
    case add => split at ends <;> cases ends
    all_goals first
      | cases ends
      | (split_ifs at ends <;> cases ends)
  obtain ⟨off, len, rand, pc, read⟩ := copy
  rcases h.cases with ⟨_, settled, _⟩ | ⟨_, closing⟩ | ⟨c, rfl, within⟩
  · simp [pc] at settled
  · rw [pc] at closing
    exact absurd closing id
  · rw [pc] at within
    obtain ⟨rfl, pass⟩ := within
    refine ⟨_, rfl, f, ?_⟩
    rw [logfsRead, logfsReadWithFlush, if_neg unlocked, if_pos rfl, pass]
    exact read

/-- What does not touch the buffers changes nothing, a wake-up of the client included. -/
theorem Threads.Phase.same (h : s.Phase b pending)
    (available : s'.flushAvailable = s.flushAvailable) (lfs_eq : s'.lfs = s.lfs)
    (client : s'.client = s.client ∨ ∃ k, s.client = .waiting k ∧ s'.client = .woken k) :
    s'.Phase b pending := by
  rcases h.cases with ⟨rfl, settled, at_⟩ | ⟨rfl, closing⟩ | ⟨c, rfl, within⟩ <;>
    obtain same | ⟨k, asleep, woken⟩ := client
  · exact Or.inl ⟨by rwa [same], by rwa [lfs_eq]⟩
  · simp [asleep] at settled
  · exact Or.inr (by rwa [same, available, lfs_eq])
  · rw [asleep] at closing
    exact absurd closing id
  · change s'.client.Within b c s'.flushAvailable s'.lfs
    rwa [same, available, lfs_eq]
  · change s'.client.Within b c s'.flushAvailable s'.lfs
    rw [asleep] at within
    rwa [woken, available, lfs_eq]

theorem LogCall.Returns.step (h : c.Returns session.logfs (some data) lfs) :
    session.step c = .ok (some data, ⟨lfs, c.after session.log⟩) := by
  cases c with
  | append buf =>
    obtain ⟨reply, append⟩ := h
    simp only [LogSession.step, append, LogCall.after, reply]
  | read off len rand =>
    change logfsRead session.logfs rand off len = _ at h
    simp only [LogSession.step, h, LogCall.after]

theorem LogCall.Returns.steady (base : b.Steady) (h : c.Returns b (some data) lfs) : lfs.Steady := by
  have free : ¬ b.locked = true := by simp [base.unlocked]
  cases c with
  | append buf =>
    obtain ⟨_, append⟩ := h
    rw [logfsAppend, if_neg free] at append
    split at append
    · cases append
    · next added =>
      split_ifs at append
      · exact ((base.added added).mode false).pass append
      · obtain rfl := Except.ok.inj append
        exact base.added added
  | read off len rand =>
    change logfsRead b rand off len = _ at h
    rw [logfsRead, logfsReadWithFlush, if_neg free, if_pos rfl] at h
    split at h
    · cases h
    · next pass => exact ((base.mode true).pass pass).blocks h

theorem LogCall.Faults.step (h : c.Faults session.logfs) : ∃ e, session.step c = .error e := by
  cases c with
  | append buf =>
    obtain ⟨e, append⟩ := h
    exact ⟨e, by simp only [LogSession.step, append]⟩
  | read off len rand =>
    obtain ⟨e, read⟩ := h
    exact ⟨e, by simp only [LogSession.step, read]⟩

theorem LogSession.run_append (done rest : List LogCall) (start : LogSession) :
    start.run (done ++ rest) =
      match start.run done with
      | .error e => .error e
      | .ok (replies, session) =>
        (session.run rest).map fun r => (replies ++ r.1, r.2) := by
  induction done generalizing start with
  | nil =>
    simp only [List.nil_append, LogSession.run]
    cases start.run rest <;> rfl
  | cons d done ih =>
    simp only [List.cons_append, LogSession.run]
    cases start.step d with
    | error e => rfl
    | ok first =>
      obtain ⟨reply, s⟩ := first
      simp only [ih]
      cases s.run done with
      | error e => rfl
      | ok r =>
        obtain ⟨replies, session⟩ := r
        cases more : session.run rest <;> simp [Except.map, more]

theorem LogSession.run_snoc {done : List LogCall} {reply : Option Bytes} {session' : LogSession}
    (run : start.run done = .ok (replies, session)) (step : session.step c = .ok (reply, session')) :
    start.run (done ++ [c]) = .ok (replies ++ [reply], session') := by
  rw [LogSession.run_append, run]
  simp only [LogSession.run, step]
  rfl

/-- A settled client makes a call, starts to close, or gives the mutex of a read back. -/
theorem Threads.settled_step (base : s.lfs.Steady)
    (settled : s.client = .idle ∨ s.client = .unlockRead) {call : ClientCall} (ok : clientStep call s = some (.ok s')) :
    s.delivers = [] ∧ s'.Phase s.lfs (s.asks call) := by
  have free : ¬ s.lfs.locked = true := by simp [base.unlocked]
  obtain pc | pc := settled
  · simp only [clientStep, pc] at ok
    obtain rfl := go_ok ok
    refine ⟨by simp only [Threads.delivers, pc], ?_⟩
    cases call with
    | close =>
      exact Or.inr rfl
    | call c =>
      simp only [Threads.asks, pc]
      cases c with
      | append buf => exact ⟨rfl, 0, fun _ => rfl⟩
      | read off len rand =>
        refine ⟨fun lfs' pass => ⟨rfl, pass⟩, fun e pass => ⟨e, ?_⟩⟩
        change flusherPass { s.lfs with dontDequeueWb := true } = .error e at pass
        rw [logfsRead, logfsReadWithFlush, if_neg free, if_pos rfl, pass]
  · simp only [clientStep, pc] at ok
    obtain rfl := go_ok ok
    refine ⟨by simp only [Threads.delivers, pc], ?_⟩
    rw [Threads.asks_busy (by simp [pc])]
    exact Or.inl ⟨Or.inl rfl, rfl⟩

theorem Threads.Follows.client (h : s.Follows start calls replies) (i : s.In g) {call : ClientCall}
    (ok : clientStep call s = some (.ok s')) (works : s'.client ≠ .failed) :
    s'.Follows start (calls ++ s.asks call) (replies ++ s.delivers) := by
  obtain ⟨done, pending, session, rfl, run, base, phase⟩ := h
  rcases phase.cases with ⟨rfl, settled, lfs_eq⟩ | ⟨rfl, closing⟩ | ⟨c, rfl, within⟩
  · obtain ⟨silent, phase'⟩ := Threads.settled_step (lfs_eq ▸ base) settled ok
    simp only [silent, List.append_nil]
    exact ⟨done, _, session, rfl, run, base, lfs_eq ▸ phase'⟩
  · obtain ⟨none_, silent, closing'⟩ := i.closing closing ok
    simp only [none_, silent, List.append_nil]
    exact ⟨done, [], session, (List.append_nil _).symm, run, base, Or.inr closing'⟩
  · rw [Threads.asks_busy within.busy, List.append_nil]
    obtain ⟨silent, within'⟩ | ⟨data, delivers, settled, returns⟩ := i.within base within ok works
    · rw [silent, List.append_nil]
      exact ⟨done, [c], session, rfl, run, base, within'⟩
    · rw [delivers]
      exact ⟨done ++ [c], [], _, by simp, LogSession.run_snoc run returns.step, returns.steady base,
        Or.inl ⟨settled, rfl⟩⟩

theorem Trace.follows (steady : lfs.Steady) (h : Trace lfs calls replies s) (log : Bytes) :
    s.Follows ⟨lfs, log⟩ calls replies := by
  induction h with
  | start => exact ⟨[], [], _, rfl, rfl, steady, Or.inl ⟨Or.inl rfl, rfl⟩⟩
  | client h call ok works ih =>
    obtain ⟨g, i⟩ := h.reaches.stage
    exact ih.client i ok works
  | flusher h ok ih =>
    obtain ⟨g, i⟩ := h.reaches.stage
    obtain ⟨done, pending, session, split, run, base, phase⟩ := ih
    refine ⟨done, pending, session, split, run, base, ?_⟩
    obtain ⟨at_, client, served, pass⟩ | ⟨available, lfs_eq, client⟩ := flusherStep_cases ok
    · exact phase.pass i at_ base pass client served
    · exact phase.same available lfs_eq client
  | wakeClient h c asleep ih =>
    obtain ⟨done, pending, session, split, run, base, phase⟩ := ih
    exact ⟨done, pending, session, split, run, base, phase.same rfl rfl (Or.inr ⟨c, asleep, rfl⟩)⟩
  | wakeFlusher h asleep ih =>
    obtain ⟨done, pending, session, split, run, base, phase⟩ := ih
    exact ⟨done, pending, session, split, run, base, phase.same rfl rfl (Or.inl rfl)⟩

theorem Threads.Phase.length_le (h : s.Phase b pending) : pending.length ≤ 1 := by
  rcases h.cases with ⟨rfl, _⟩ | ⟨rfl, _⟩ | ⟨c, rfl, _⟩
  · exact Nat.zero_le 1
  · exact Nat.zero_le 1
  · exact Nat.le_refl 1

theorem Threads.Phase.idle (h : s.Phase b pending) (idle : s.client = .idle) :
    pending = [] ∧ s.lfs = b := by
  rcases h.cases with ⟨rfl, _, same⟩ | ⟨_, closing⟩ | ⟨c, _, within⟩
  · exact ⟨rfl, same⟩
  · rw [idle] at closing
    exact absurd closing id
  · exact absurd idle within.busy

theorem Threads.Phase.closed (h : s.Phase b pending) (closed : s.client = .closed) :
    pending = [] ∧ logfsClose b = .ok s.lfs.device := by
  rcases h.cases with ⟨_, settled, _⟩ | ⟨rfl, closing⟩ | ⟨c, _, within⟩
  · simp [closed] at settled
  · rw [closed] at closing
    exact ⟨rfl, closing⟩
  · rw [closed] at within
    exact absurd within id

/-- A handle between two calls. -/
theorem Logfs.Rep.steady {log : Bytes} (h : lfs.Rep log) : lfs.Steady :=
  ⟨h.shaped, h.divides, h.block_lt, h.unlocked⟩

end

/-- In every state of every interleaving of the client and the flusher, the answers so far are those
of the sequential run of the answered calls, all calls but the one in progress. Between two calls
the logfs is that of this run, and after the close the device is; and a step that ends the process
is one of a call, or of a close, that ends it in the sequential run. -/
theorem flusher_linearizes {lfs : Logfs} (steady : lfs.Steady) {calls : List LogCall}
    {replies : List (Option Bytes)} {s : Threads} (trace : Trace lfs calls replies s) :
    ∃ done pending session, calls = done ++ pending ∧ pending.length ≤ 1 ∧
      (⟨lfs, []⟩ : LogSession).run done = .ok (replies, session) ∧
      (s.client = .idle → pending = [] ∧ s.lfs = session.logfs) ∧
      (s.client = .closed → pending = [] ∧ logfsClose session.logfs = .ok s.lfs.device) ∧
      ∀ (t : Turn) f, t.attempt s = some (.error f) →
        (∃ e, (⟨lfs, []⟩ : LogSession).run calls = .error e) ∨
          (pending = [] ∧ ∃ e, logfsClose session.logfs = .error e) := by
  obtain ⟨g, i⟩ := trace.reaches.stage
  obtain ⟨done, pending, session, rfl, run, base, phase⟩ := trace.follows steady []
  have faults : ∀ c, c.Faults session.logfs →
      ∃ e, (⟨lfs, []⟩ : LogSession).run (done ++ [c]) = .error e := by
    intro c ends
    obtain ⟨e, step⟩ := ends.step
    refine ⟨e, ?_⟩
    rw [LogSession.run_append, run]
    simp only [LogSession.run, step]
    rfl
  refine ⟨done, pending, session, rfl, phase.length_le, run, phase.idle, phase.closed, ?_⟩
  rintro (call | _) f ends
  · obtain ⟨c, rfl, faulty⟩ := phase.client_faults base ends
    exact Or.inl (faults c faulty)
  · obtain ⟨c, rfl, faulty⟩ | closing := phase.flusher_faults i base ends
    · exact Or.inl (faults c faulty)
    · exact Or.inr closing

/-- What the turns ask, what they are answered, and where they lead. -/
def converse : List Turn → Threads → Option (List LogCall × List (Option Bytes) × Threads)
  | [], s => some ([], [], s)
  | t :: ts, s =>
    match t, t.attempt s with
    | .client call, some (.ok next) =>
      if next.client.hasFailed then none
      else (converse ts next).map fun r => (s.asks call ++ r.1, s.delivers ++ r.2.1, r.2.2)
    | .flusher, some (.ok next) => converse ts next
    | _, _ => none

theorem converse_trace {lfs : Logfs} (turns : List Turn) {calls calls' : List LogCall}
    {replies replies' : List (Option Bytes)} {s s' : Threads} (h : Trace lfs calls replies s)
    (run : converse turns s = some (calls', replies', s')) :
    Trace lfs (calls ++ calls') (replies ++ replies') s' := by
  induction turns generalizing s calls replies calls' replies' with
  | nil =>
    cases run
    simpa using h
  | cons t ts ih =>
    simp only [converse] at run
    split at run
    · next call next ok =>
      split_ifs at run with failed
      obtain ⟨⟨calls₁, replies₁, s₁⟩, rest, same⟩ := Option.map_eq_some_iff.mp run
      cases same
      have works : next.client ≠ .failed := fun pc => failed (by rw [pc]; rfl)
      rw [← List.append_assoc, ← List.append_assoc]
      exact ih (h.client call ok works) rest
    · next ok => exact ih (h.flusher ok) run
    · cases run

/-- An append of a block with its flush, and a read of two of its bytes. -/
def readBackTurns : List Turn :=
  List.replicate 12 (.client (.call (.append [1, 2, 3, 4]))) ++ List.replicate 9 .flusher ++
    List.replicate 13 (.client (.call (.read 1 2 fun _ => 0))) ++ List.replicate 9 .flusher ++
    List.replicate 6 (.client .close)

theorem flusher_linearizes_read :
    ∃ calls s, Trace (logfsOpen blankDevice) calls [some [], some [2, 3]] s ∧
      ∃ done pending session, calls = done ++ pending ∧ pending.length ≤ 1 ∧
        (⟨logfsOpen blankDevice, []⟩ : LogSession).run done =
          .ok ([some [], some [2, 3]], session) ∧
        (s.client = .idle → pending = [] ∧ s.lfs = session.logfs) ∧
        (s.client = .closed → pending = [] ∧ logfsClose session.logfs = .ok s.lfs.device) ∧
        ∀ (t : Turn) f, t.attempt s = some (.error f) →
          (∃ e, (⟨logfsOpen blankDevice, []⟩ : LogSession).run calls = .error e) ∨
            (pending = [] ∧ ∃ e, logfsClose session.logfs = .error e) := by
  have steady : (logfsOpen blankDevice).Steady :=
    (logfsOpen_rep ⟨2, rfl⟩ (by decide) fun _ => rfl).steady
  have talk : (converse readBackTurns (.start (logfsOpen blankDevice))).map (fun r => r.2.1) =
      some [some [], some [2, 3]] := by decide +kernel
  obtain ⟨⟨calls, replies, s⟩, run, same⟩ := Option.map_eq_some_iff.mp talk
  cases same
  have trace := converse_trace readBackTurns Trace.start run
  exact ⟨_, _, trace, flusher_linearizes steady trace⟩

end OsProjects.KeyValue
