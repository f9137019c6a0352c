import OsProjects.KeyValue.Linearization

/-!
# Every call returns

A potential counts the steps that the two threads have left before the client is idle and
the flusher asleep: each step uses one up, a call adds at most 985 of them, most of them
for the passes of a retry loop that has to empty the ring, and a wake-up without a signal
adds two. So no schedule holds a call up for ever, as long as what is appended fits the
empty ring.
-/
namespace OsProjects.KeyValue
open OsProjects.Library

/-- The blocks of the queue. -/
def Logfs.blocks (lfs : Logfs) : Nat :=
  if logfsWbAvail lfs = 0 then 0 else (logfsWbAvail lfs - 1) / lfs.device.block + 1

/-- What a client has left when it leaves the wait. -/
def Cont.left (due : Bool) (lfs : Logfs) : Cont → Nat
  | .finish => 0
  | .read .. => 3
  | .retry _ => 24 + 30 * (lfs.blocks - if due then 1 else 0)

def ClientPc.left (raised due : Bool) (lfs : Logfs) : ClientPc → Nat
  | .idle | .failed | .closed => 0
  | .lockAdd _ => 24 + 30 * lfs.blocks
  | .add _ => 23 + 30 * lfs.blocks
  | .test => 22
  | .unlockAdd => 5
  | .lockRaise k => 21 + k.left true lfs
  | .raise k => 20 + k.left true lfs
  | .unlockRaise k => 19 + k.left true lfs
  | .lockPost k => 18 + k.left true lfs
  | .post k => 17 + k.left true lfs
  | .signal k => 7 + k.left due lfs
  | .unlockPost k => 6 + k.left due lfs
  | .lockWait k | .woken k => (if raised then 5 else 3) + k.left due lfs
  | .check k => (if raised then 4 else 2) + k.left due lfs
  | .waiting k => 3 + k.left due lfs
  | .unlockWait k => 1 + k.left false lfs
  | .lockRead .. => 3
  | .copy .. => 2
  | .unlockRead => 1
  | .lockClose => 17
  | .close => 16
  | .signalClose => 4
  | .unlockClose => 3
  | .join => 1

def FlusherPc.left (available : Bool) : FlusherPc → Nat
  | .waiting => if available then 9 else 0
  | .woken => if available then 9 else 2
  | .check => if available then 8 else 1
  | .pass => 7
  | .exitTest => 6
  | .lockDone => 5
  | .clear => 4
  | .signal => 3
  | .unlockDone => 2
  | .returned => 0

/-- The steps of a close, while it is still to come. -/
def ClientPc.reserve : ClientPc → Nat
  | .lockClose | .close | .signalClose | .unlockClose | .join | .closed => 0
  | _ => 18

def Threads.left (s : Threads) : Nat :=
  s.client.left s.flushInProgress s.flushAvailable s.lfs + s.flusher.left s.flushAvailable +
    s.client.reserve

/-- What is to be appended fits the empty ring. -/
def LogCall.Fits (size : Nat) : LogCall → Prop
  | .append buf => buf.length ≤ size
  | .read .. => True

instance (size : Nat) : DecidablePred (LogCall.Fits size)
  | .append _ => inferInstanceAs (Decidable (_ ≤ _))
  | .read .. => inferInstanceAs (Decidable True)

def Cont.Fits (size : Nat) : Cont → Prop
  | .retry buf => buf.length ≤ size
  | _ => True

/-- A retry has found something queued. -/
def Cont.Drains (lfs : Logfs) : Cont → Prop
  | .retry _ => 0 < logfsWbAvail lfs
  | _ => True

def ClientPc.Sound (size : Nat) (due : Bool) (lfs : Logfs) : ClientPc → Prop
  | .lockAdd buf | .add buf => buf.length ≤ size
  | .lockRaise k | .raise k | .unlockRaise k | .lockPost k | .post k => k.Fits size ∧ k.Drains lfs
  | .signal k | .unlockPost k | .lockWait k | .check k | .waiting k | .woken k =>
    k.Fits size ∧ (due = true → lfs.dontDequeueWb = k.mode ∧ k.Drains lfs)
  | .unlockWait k => k.Fits size
  | _ => True

structure Threads.Sound (s : Threads) (size : Nat) : Prop where
  steady : s.lfs.Steady
  ring : s.lfs.writeBuffer.size = size
  client : s.client.Sound size s.flushAvailable s.lfs

/-- The runs in which no read fails, with the calls made, the steps of the threads, and the wake-ups
without a signal. -/
inductive Course (lfs : Logfs) : List LogCall → Nat → Nat → Threads → Prop where
  | start : Course lfs [] 0 0 (.start lfs)
  | client {calls : List LogCall} {steps wakes : Nat} {s s' : Threads}
    (h : Course lfs calls steps wakes s) (call : ClientCall)
    (ok : clientStep call s = some (.ok s')) (works : s'.client ≠ .failed) :
    Course lfs (calls ++ s.asks call) (steps + 1) wakes s'
  | flusher {calls : List LogCall} {steps wakes : Nat} {s s' : Threads}
    (h : Course lfs calls steps wakes s) (ok : flusherStep s = some (.ok s')) :
    Course lfs calls (steps + 1) wakes s'
  | wakeClient {calls : List LogCall} {steps wakes : Nat} {s : Threads}
    (h : Course lfs calls steps wakes s) (c : Cont) (asleep : s.client = .waiting c) :
    Course lfs calls steps (wakes + 1) { s with client := .woken c }
  | wakeFlusher {calls : List LogCall} {steps wakes : Nat} {s : Threads}
    (h : Course lfs calls steps wakes s) (asleep : s.flusher = .waiting) :
    Course lfs calls steps (wakes + 1) { s with flusher := .woken }

section
variable {lfs lfs' : Logfs} {s s' : Threads} {g : Stage} {k : Cont} {size steps wakes : Nat}
  {calls : List LogCall}

theorem Course.reaches (h : Course lfs calls steps wakes s) : Reaches lfs s := by
  induction h with
  | start => exact .start
  | client _ call ok works ih => exact ih.step (.client call ok) works
  | flusher _ ok ih =>
    refine ih.step (.flusher ok) ?_
    obtain ⟨_, same, _⟩ | ⟨_, _, same | ⟨k, _, woken⟩⟩ := flusherStep_cases ok
    · rw [same]
      exact ih.works
    · rw [same]
      exact ih.works
    · rw [woken]
      exact nofun
  | wakeClient _ c asleep ih => exact ih.step (.wakeClient c asleep) nofun
  | wakeFlusher _ asleep ih => exact ih.step (.wakeFlusher asleep) ih.works

theorem Logfs.Steady.blocks_le (h : lfs.Steady) : lfs.blocks ≤ wcacheBlocks := by
  have queued_lt := h.toShaped.queued_lt
  have ringSize := h.ringSize
  unfold Logfs.blocks
  split_ifs with empty
  · exact Nat.zero_le _
  · refine Nat.div_lt_of_lt_mul ?_
    rw [Nat.mul_comm, ← ringSize]
    omega

theorem Logfs.blocks_pos (some_ : 0 < logfsWbAvail lfs) : 0 < lfs.blocks := by
  rw [Logfs.blocks, if_neg (Nat.ne_of_gt some_)]
  exact Nat.succ_pos _

/-- Bytes that fit the empty ring are refused by a queue only. -/
theorem Logfs.Steady.refuses (h : lfs.Steady) {buf : Bytes} (fits : buf.length ≤ lfs.writeBuffer.size)
    (refused : ∀ wb, writeBufferAdd lfs.writeBuffer buf = (0, wb) → False) :
    0 < logfsWbAvail lfs := by
  by_contra empty
  obtain ⟨wb, add, _⟩ := writeBufferAdd_fits h.toShaped.holds
    (by rw [Logfs.length_queued]; omega : lfs.queued.length + buf.length ≤ lfs.writeBuffer.size)
  exact refused wb add

/-- A drain takes a block out of the queue. -/
theorem Logfs.Steady.drained (h : lfs.Steady) (drains : lfs.dontDequeueWb = false)
    (some_ : 0 < logfsWbAvail lfs) (pass : flusherPass lfs = .ok lfs') :
    lfs'.blocks + 1 ≤ lfs.blocks := by
  have block_pos := lfs.device.block_pos
  obtain ⟨bytes, wb, dequeue, _, left⟩ := h.toShaped.dequeues h.divides h.block_lt some_
  obtain ⟨_, wb', dequeue', result⟩ := flusherPass_ok pass
  rw [drains] at dequeue'
  obtain ⟨_, rfl⟩ := Prod.mk.inj (Except.ok.inj (dequeue.symm.trans dequeue'))
  have ring : lfs'.writeBuffer = wb ∧ lfs'.device.block = lfs.device.block := by
    obtain rfl | ⟨device, geometry, rfl | ⟨len, rc, -, rfl⟩⟩ := result
    · exact ⟨rfl, rfl⟩
    · exact ⟨rfl, geometry.block⟩
    · exact ⟨rfl, geometry.block⟩
  rw [Logfs.blocks, Logfs.blocks, left _ ring.1, ring.2, if_neg (by omega : logfsWbAvail lfs ≠ 0)]
  split_ifs with empty
  · rw [Nat.zero_add]
    exact Nat.le_add_left 1 _
  · have split : logfsWbAvail lfs - 1 = logfsWbAvail lfs - lfs.device.block - 1 + lfs.device.block := by
      omega
    rw [split, Nat.add_div_right _ block_pos]

/-- Every step of the client uses one up of the steps left, but for those that a call adds. -/
theorem Threads.In.client_left (i : s.In g) (sound : s.Sound size) {call : ClientCall}
    (ok : clientStep call s = some (.ok s')) (works : s'.client ≠ .failed) :
    s'.left + 1 ≤ s.left + 985 * (s.asks call).length := by
  have allowed := i.client
  have awake := i.flusher
  have available := i.available
  have inProgress := i.inProgress
  have pending := sound.client
  have blocks_le := sound.steady.blocks_le
  simp only [wcacheBlocks] at blocks_le
  cases pc : s.client <;> rw [pc] at allowed pending <;> simp only [clientStep, pc] at ok
  case idle =>
    obtain rfl := go_ok ok
    rcases call with (buf | _) | _ <;>
      simp [Threads.left, Threads.asks, pc, ClientCall.start, ClientPc.left, ClientPc.reserve,
        Cont.left] <;> omega
  case lockAdd buf =>
    obtain ⟨_, rfl⟩ := lockDo_ok ok
    simp only [Threads.left, pc, ClientPc.left, ClientPc.reserve]
    omega
  case add buf =>
    split at ok
    · obtain rfl := go_ok ok
      simp only [Threads.left, pc, ClientPc.left, ClientPc.reserve]
      omega
    · next refused =>
      obtain rfl := go_ok ok
      have some_ := Logfs.blocks_pos (sound.steady.refuses (by rw [sound.ring]; exact pending) refused)
      simp only [Threads.left, pc, ClientPc.left, ClientPc.reserve, Cont.left, if_true]
      omega
  case test =>
    split_ifs at ok <;> obtain rfl := go_ok ok <;>
      simp only [Threads.left, pc, ClientPc.left, ClientPc.reserve, Cont.left] <;> omega
  case unlockAdd =>
    obtain rfl := go_ok ok
    obtain rfl := Stage.eq_quiet allowed (by simp) rfl
    have lowered : s.flushInProgress = false := inProgress
    simp only [Threads.left, pc, ClientPc.left, ClientPc.reserve, Cont.left, lowered,
      Bool.false_eq_true, if_false]
    omega
  case lockRaise k =>
    obtain ⟨_, rfl⟩ := lockDone_ok ok
    simp only [Threads.left, pc, ClientPc.left, ClientPc.reserve]
    omega
  case raise k =>
    obtain rfl := go_ok ok
    simp only [Threads.left, pc, ClientPc.left, ClientPc.reserve]
    omega
  case unlockRaise k =>
    obtain rfl := go_ok ok
    cases k <;> simp only [Threads.left, pc, ClientPc.left, ClientPc.reserve, Cont.posting] <;> omega
  case lockPost k =>
    obtain ⟨_, rfl⟩ := lockDo_ok ok
    simp only [Threads.left, pc, ClientPc.left, ClientPc.reserve]
    omega
  case post k =>
    -- the pass that is due from here on is the flusher's work
    obtain rfl := go_ok ok
    have raised : g = .raised := by cases g <;> first | rfl | cases allowed
    subst raised
    have idle : s.flushAvailable = false := available
    have later : s.flusher.left true ≤ s.flusher.left false + 9 := by
      cases s.flusher <;> decide
    have same : k.left true { s.lfs with dontDequeueWb := k.mode } = k.left true s.lfs := by
      cases k <;> rfl
    simp only [Threads.left, pc, ClientPc.left, ClientPc.reserve, idle, same]
    omega
  case signal k =>
    obtain rfl := go_ok ok
    have due : s.flushAvailable = true := by
      rw [available]
      cases g <;> first | rfl | cases allowed
    have woken : s.flusher.wake.left true = s.flusher.left true := by
      cases s.flusher <;> rfl
    simp only [Threads.left, pc, ClientPc.left, ClientPc.reserve, due, woken]
    omega
  case unlockPost k =>
    obtain rfl := go_ok ok
    simp only [Threads.left, pc, ClientPc.left, ClientPc.reserve]
    split_ifs <;> omega
  case lockWait k =>
    obtain ⟨_, rfl⟩ := lockDone_ok ok
    simp only [Threads.left, pc, ClientPc.left, ClientPc.reserve]
    split_ifs <;> omega
  case check k =>
    split_ifs at ok with raised
    · obtain rfl := go_ok ok
      simp only [Threads.left, pc, ClientPc.left, ClientPc.reserve, raised, if_true]
      omega
    · obtain rfl := go_ok ok
      simp only [raised] at inProgress
      have idle : s.flushAvailable = false := by
        rw [available]
        cases g <;> first | rfl | (cases allowed; done) | cases inProgress
      simp only [Threads.left, pc, ClientPc.left, ClientPc.reserve, raised, idle,
        Bool.false_eq_true, if_false]
      omega
  case waiting k => cases ok
  case woken k =>
    obtain ⟨_, rfl⟩ := lockDone_ok ok
    simp only [Threads.left, pc, ClientPc.left, ClientPc.reserve]
    split_ifs <;> omega
  case unlockWait k =>
    obtain rfl := go_ok ok
    cases k <;> simp [Threads.left, pc, ClientPc.left, ClientPc.reserve, Cont.left, Cont.next] <;>
      omega
  case lockRead off len rand =>
    obtain ⟨_, rfl⟩ := lockDo_ok ok
    simp only [Threads.left, pc, ClientPc.left, ClientPc.reserve]
    omega
  case copy off len rand =>
    split at ok
    · cases ok
    · obtain rfl := go_ok ok
      exact absurd rfl works
    · obtain rfl := go_ok ok
      simp only [Threads.left, pc, ClientPc.left, ClientPc.reserve]
      omega
  case unlockRead =>
    obtain rfl := go_ok ok
    simp only [Threads.left, pc, ClientPc.left, ClientPc.reserve]
    omega
  case failed => cases g <;> cases allowed
  case lockClose =>
    obtain ⟨_, rfl⟩ := lockDo_ok ok
    simp only [Threads.left, pc, ClientPc.left, ClientPc.reserve]
    omega
  case close =>
    obtain rfl := go_ok ok
    have later : s.flusher.left true ≤ s.flusher.left s.flushAvailable + 9 := by
      cases s.flusher <;> cases s.flushAvailable <;> decide
    simp only [Threads.left, pc, ClientPc.left, ClientPc.reserve]
    omega
  case signalClose =>
    obtain rfl := go_ok ok
    have due : s.flushAvailable = true := by
      rw [available]
      cases g <;> first | rfl | cases allowed
    have woken : s.flusher.wake.left true = s.flusher.left true := by
      cases s.flusher <;> rfl
    simp only [Threads.left, pc, ClientPc.left, ClientPc.reserve, due, woken]
    omega
  case unlockClose =>
    obtain rfl := go_ok ok
    simp only [Threads.left, pc, ClientPc.left, ClientPc.reserve]
    omega
  case join =>
    split_ifs at ok
    obtain rfl := go_ok ok
    simp only [Threads.left, pc, ClientPc.left, ClientPc.reserve]
    omega
  case closed => cases ok

/-- A pass in the mode that was asked for brings nothing back. -/
theorem Cont.left_pass (steady : s.lfs.Steady) (mode : s.lfs.dontDequeueWb = k.mode)
    (drains : k.Drains s.lfs) (pass : flusherPass s.lfs = .ok lfs') :
    k.left false lfs' ≤ k.left true s.lfs := by
  cases k with
  | finish => exact Nat.le_refl _
  | read => exact Nat.le_refl _
  | retry buf =>
    have := steady.drained mode drains pass
    simp only [Cont.left, Bool.false_eq_true, if_false, if_true]
    omega

/-- Every step of the flusher uses one up. -/
theorem Threads.In.flusher_left (i : s.In g) (sound : s.Sound size)
    (ok : flusherStep s = some (.ok s')) : s'.left + 1 ≤ s.left := by
  have allowed := i.flusher
  have available := i.available
  have inProgress := i.inProgress
  cases at_ : s.flusher <;> rw [at_] at allowed <;> simp only [flusherStep, at_] at ok
  case waiting | returned => cases ok
  case woken =>
    obtain ⟨_, rfl⟩ := lockDo_ok ok
    simp only [Threads.left, at_, FlusherPc.left]
    split_ifs <;> omega
  case check =>
    split_ifs at ok with idle posted
    · obtain rfl := go_ok ok
      simp only [Threads.left, at_, FlusherPc.left, idle.2]
      simp
    · obtain rfl := go_ok ok
      simp only [Threads.left, at_, FlusherPc.left, posted, if_true]
      omega
    · have up : g.exits = true := by
        rw [← i.exits]
        simp_all
      rw [available] at posted
      cases g <;> first | (cases up; done) | (cases allowed; done) | exact absurd rfl posted
  case pass =>
    split at ok
    · cases ok
    · next lfs' pass =>
      obtain rfl := go_ok ok
      have due : s.flushAvailable = true := by
        rw [available]
        cases g <;> first | rfl | cases allowed
      have doFlush := i.doFlush
      rw [at_] at doFlush
      have free := doFlush.apart'
      have client := i.client
      have pending := sound.client
      -- whoever waits for the pass comes no further back by it
      have later : s.client.left s.flushInProgress false lfs' ≤
          s.client.left s.flushInProgress true s.lfs := by
        rw [due] at pending
        cases pc : s.client <;> rw [pc] at client free pending
        case lockWait k | check k | waiting k | woken k =>
          obtain ⟨mode, drains⟩ := pending.2 rfl
          exact Nat.add_le_add_left (Cont.left_pass sound.steady mode drains pass) _
        case join => exact Nat.le_refl _
        all_goals cases g <;> first | (cases client; done) | (cases allowed; done) | cases free
      simp only [Threads.left, at_, FlusherPc.left, due]
      omega
  case exitTest =>
    split_ifs at ok <;> obtain rfl := go_ok ok <;>
      simp only [Threads.left, at_, FlusherPc.left] <;> omega
  case lockDone =>
    obtain ⟨_, rfl⟩ := lockDone_ok ok
    simp only [Threads.left, at_, FlusherPc.left]
    omega
  case clear =>
    obtain rfl := go_ok ok
    have lowered : s.client.left false s.flushAvailable s.lfs ≤
        s.client.left s.flushInProgress s.flushAvailable s.lfs := by
      cases s.client <;> simp only [ClientPc.left, Bool.false_eq_true, if_false, Nat.le_refl] <;>
        split_ifs <;> omega
    simp only [Threads.left, at_, FlusherPc.left]
    omega
  case signal =>
    obtain rfl := go_ok ok
    have lowered : s.flushInProgress = false := by
      rw [inProgress]
      cases g <;> first | rfl | cases allowed
    have woken : s.client.wake.left false s.flushAvailable s.lfs =
        s.client.left false s.flushAvailable s.lfs ∧ s.client.wake.reserve = s.client.reserve := by
      cases s.client <;> simp [ClientPc.wake, ClientPc.left, ClientPc.reserve]
    simp only [Threads.left, at_, FlusherPc.left, lowered, woken]
    omega
  case unlockDone =>
    obtain rfl := go_ok ok
    have idle : s.flushAvailable = false := by
      rw [available]
      cases g <;> first | rfl | cases allowed
    simp only [Threads.left, at_, FlusherPc.left, idle, Bool.false_eq_true, if_false]
    omega

/-- A spurious wake-up of the client costs the test of the flag once more. -/
theorem Threads.left_wakeClient (asleep : s.client = .waiting k) :
    ({ s with client := .woken k } : Threads).left ≤ s.left + 2 := by
  simp only [Threads.left, asleep, ClientPc.left, ClientPc.reserve]
  split_ifs <;> omega

theorem Threads.left_wakeFlusher (asleep : s.flusher = .waiting) :
    ({ s with flusher := .woken } : Threads).left ≤ s.left + 2 := by
  simp only [Threads.left, asleep, FlusherPc.left]
  split_ifs <;> omega

theorem Threads.sound_start (steady : lfs.Steady) :
    (Threads.start lfs).Sound lfs.writeBuffer.size :=
  ⟨steady, rfl, trivial⟩

/-- What the client owes to its own tests it keeps true, as long as the call it makes fits. -/
theorem Threads.In.client_sound (i : s.In g) (sound : s.Sound size) {call : ClientCall}
    (fits : ∀ c ∈ s.asks call, c.Fits size)
    (ok : clientStep call s = some (.ok s')) (works : s'.client ≠ .failed) : s'.Sound size := by
  obtain ⟨steady, ring, pending⟩ := sound
  have allowed := i.client
  have available := i.available
  cases pc : s.client <;> rw [pc] at allowed pending <;> simp only [clientStep, pc] at ok
  case idle =>
    obtain rfl := go_ok ok
    refine ⟨steady, ring, ?_⟩
    rcases call with (buf | _) | _
    · exact fits (.append buf) (by simp [Threads.asks, pc])
    · exact ⟨trivial, trivial⟩
    · trivial
  case lockAdd buf =>
    obtain ⟨_, rfl⟩ := lockDo_ok ok
    exact ⟨steady, ring, pending⟩
  case add buf =>
    split at ok
    · next wb add =>
      obtain rfl := go_ok ok
      have size_eq := (writeBufferAdd_keeps buf steady.head_lt).1
      rw [add] at size_eq
      exact ⟨steady.add (by rw [add]), size_eq.trans ring, trivial⟩
    · next refused =>
      obtain rfl := go_ok ok
      exact ⟨steady, ring, pending, steady.refuses (by rw [ring]; exact pending) refused⟩
  case test =>
    split_ifs at ok <;> obtain rfl := go_ok ok
    · exact ⟨steady, ring, trivial, trivial⟩
    · exact ⟨steady, ring, trivial⟩
  case unlockAdd =>
    obtain rfl := go_ok ok
    obtain rfl := Stage.eq_quiet allowed (by simp) rfl
    have idle : s.flushAvailable = false := available
    exact ⟨steady, ring, trivial, fun due => by simp [idle] at due⟩
  case lockRaise k =>
    obtain ⟨_, rfl⟩ := lockDone_ok ok
    exact ⟨steady, ring, pending⟩
  case raise k =>
    obtain rfl := go_ok ok
    exact ⟨steady, ring, pending⟩
  case unlockRaise k =>
    obtain rfl := go_ok ok
    refine ⟨steady, ring, ?_⟩
    cases k <;> exact pending
  case lockPost k =>
    obtain ⟨_, rfl⟩ := lockDo_ok ok
    exact ⟨steady, ring, pending⟩
  case post k =>
    obtain rfl := go_ok ok
    refine ⟨steady.mode k.mode, ring, pending.1, fun _ => ⟨rfl, ?_⟩⟩
    cases k <;> exact pending.2
  case signal k =>
    obtain rfl := go_ok ok
    exact ⟨steady, ring, pending⟩
  case unlockPost k =>
    obtain rfl := go_ok ok
    exact ⟨steady, ring, pending⟩
  case lockWait k =>
    obtain ⟨_, rfl⟩ := lockDone_ok ok
    exact ⟨steady, ring, pending⟩
  case check k =>
    split_ifs at ok <;> obtain rfl := go_ok ok
    · exact ⟨steady, ring, pending⟩
    · exact ⟨steady, ring, pending.1⟩
  case waiting k => cases ok
  case woken k =>
    obtain ⟨_, rfl⟩ := lockDone_ok ok
    exact ⟨steady, ring, pending⟩
  case unlockWait k =>
    obtain rfl := go_ok ok
    refine ⟨steady, ring, ?_⟩
    cases k <;> exact pending
  case lockRead off len rand =>
    obtain ⟨_, rfl⟩ := lockDo_ok ok
    exact ⟨steady, ring, trivial⟩
  case copy off len rand =>
    split at ok
    · cases ok
    · obtain rfl := go_ok ok
      exact absurd rfl works
    · next read =>
      obtain rfl := go_ok ok
      refine ⟨steady.blocks read, ?_, trivial⟩
      rw [(readBlocks_frame read).1]
      exact ring
  case lockClose =>
    obtain ⟨_, rfl⟩ := lockDo_ok ok
    exact ⟨steady, ring, trivial⟩
  case join =>
    split_ifs at ok
    obtain rfl := go_ok ok
    exact ⟨steady, ring, trivial⟩
  case closed => cases ok
  all_goals
    obtain rfl := go_ok ok
    exact ⟨steady, ring, trivial⟩

theorem Threads.In.flusher_sound (i : s.In g) (sound : s.Sound size)
    (ok : flusherStep s = some (.ok s')) : s'.Sound size := by
  obtain ⟨steady, ring, pending⟩ := sound
  obtain ⟨at_, client, served, pass⟩ | ⟨available, lfs_eq, client⟩ := flusherStep_cases ok
  · -- the client of a pass waits or joins, and after it nothing is due
    have due := i.available.symm.trans (i.due at_).1
    have waits := i.client
    refine ⟨steady.pass pass, ?_, ?_⟩
    · exact (@flusherPass_ringSize s.lfs _ steady.toShaped s.lfs.dontDequeueWb pass).trans ring
    · rw [client, served]
      cases pc : s.client <;> rw [pc] at pending waits
      case signal | unlockPost | lockWait | check | waiting | woken => exact ⟨pending.1, nofun⟩
      all_goals first
        | trivial
        | (cases g <;> first | (cases waits; done) | cases due)
  · rw [← lfs_eq] at steady ring pending
    rw [← available] at pending
    obtain same | ⟨k, asleep, woken⟩ := client
    · exact ⟨steady, ring, by rw [same]; exact pending⟩
    · rw [asleep] at pending
      exact ⟨steady, ring, by rw [woken]; exact pending⟩

/-- The steps made and those left are paid for by the calls and the wake-ups. -/
theorem Course.spent (steady : lfs.Steady) (h : Course lfs calls steps wakes s)
    (fits : ∀ c ∈ calls, c.Fits lfs.writeBuffer.size) :
    s.Sound lfs.writeBuffer.size ∧ steps + s.left ≤ 985 * calls.length + 2 * wakes + 18 := by
  induction h with
  | start => exact ⟨Threads.sound_start steady, Nat.le_refl _⟩
  | @client calls _ _ s _ h call ok works ih =>
    obtain ⟨g, i⟩ := h.reaches.stage
    obtain ⟨sound, paid⟩ := ih fun c made => fits c (List.mem_append_left _ made)
    have used := i.client_left sound ok works
    refine ⟨i.client_sound sound (fun c made => fits c (List.mem_append_right _ made)) ok works,
      ?_⟩
    rw [List.length_append]
    omega
  | flusher h ok ih =>
    obtain ⟨g, i⟩ := h.reaches.stage
    obtain ⟨sound, paid⟩ := ih fits
    have used := i.flusher_left sound ok
    exact ⟨i.flusher_sound sound ok, by omega⟩
  | wakeClient h k asleep ih =>
    obtain ⟨⟨steady, ring, pending⟩, paid⟩ := ih fits
    have cost := Threads.left_wakeClient asleep
    rw [asleep] at pending
    exact ⟨⟨steady, ring, pending⟩, by omega⟩
  | wakeFlusher h asleep ih =>
    obtain ⟨⟨steady, ring, pending⟩, paid⟩ := ih fits
    have cost := Threads.left_wakeFlusher asleep
    exact ⟨⟨steady, ring, pending⟩, by omega⟩

end

/-- However the client and the flusher are scheduled, a run makes a bounded number of steps for each
call, each wake-up without a signal, and the close; and as long as a call or the close is under way,
one of the threads has a step to make. So every call that is made returns. -/
theorem calls_return {lfs : Logfs} (steady : lfs.Steady) {calls : List LogCall} {steps wakes : Nat}
    {s : Threads} (course : Course lfs calls steps wakes s)
    (fits : ∀ c ∈ calls, c.Fits lfs.writeBuffer.size) :
    steps ≤ 985 * calls.length + 2 * wakes + 18 ∧
      (s.client = .idle ∨ s.client = .closed ∨ ∃ t : Turn, t.attempt s ≠ none) := by
  obtain ⟨sound, paid⟩ := course.spent steady fits
  obtain ⟨g, i⟩ := course.reaches.stage
  refine ⟨by omega, ?_⟩
  by_contra held
  simp only [not_or, not_exists, not_not] at held
  obtain ⟨-, running, stuck⟩ := held
  exact running (i.progress (fun call => stuck (.client call)) (stuck .flusher)).1

theorem converse_course {lfs : Logfs} (turns : List Turn) {calls calls' : List LogCall}
    {replies : List (Option Bytes)} {steps wakes : Nat} {s s' : Threads}
    (h : Course lfs calls steps wakes s) (run : converse turns s = some (calls', replies, s')) :
    Course lfs (calls ++ calls') (steps + turns.length) wakes s' := by
  induction turns generalizing s calls steps calls' replies with
  | nil =>
    cases run
    simpa using h
  | cons t ts ih =>
    rw [List.length_cons, Nat.add_comm ts.length, ← Nat.add_assoc]
    simp only [converse] at run
    split at run
    · next call next ok =>
      split_ifs at run with failed
      obtain ⟨⟨calls₁, replies₁, s₁⟩, rest, same⟩ := Option.map_eq_some_iff.mp run
      cases same
      have works : next.client ≠ .failed := fun pc => failed (by rw [pc]; rfl)
      rw [← List.append_assoc]
      exact ih (h.client call ok works) rest
    · next ok => exact ih (h.flusher ok) run
    · cases run

/-- An append, a read and the close make 49 steps. -/
theorem calls_return_read :
    ∃ calls s, Course (logfsOpen blankDevice) calls 49 0 s ∧
      49 ≤ 985 * calls.length + 2 * 0 + 18 ∧
      (s.client = .idle ∨ s.client = .closed ∨ ∃ t : Turn, t.attempt s ≠ none) := by
  have steady : (logfsOpen blankDevice).Steady :=
    (logfsOpen_rep ⟨2, rfl⟩ (by decide) fun _ => rfl).steady
  have talk : (converse readBackTurns (.start (logfsOpen blankDevice))).map (fun r =>
      decide (∀ c ∈ r.1, c.Fits (logfsOpen blankDevice).writeBuffer.size)) = some true := by
    decide +kernel
  obtain ⟨⟨calls, replies, s⟩, run, fits⟩ := Option.map_eq_some_iff.mp talk
  have course := converse_course readBackTurns Course.start run
  exact ⟨calls, s, course, calls_return steady course (of_decide_eq_true fits)⟩

end OsProjects.KeyValue
