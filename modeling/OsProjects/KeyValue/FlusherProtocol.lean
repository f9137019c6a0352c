import OsProjects.Library.Steps
import OsProjects.KeyValue.FlusherThread

/-!
# The requests to the flusher

The two threads pass through the stages of a request: it is raised, posted, served by one
pass and cleared. The invariant fixes for each stage where the threads can be, what the
flags are and what the history holds since the client last left a wait. A mutex is held
exactly by the thread whose program counter says so.
-/
namespace OsProjects.KeyValue
open OsProjects.Library

def ClientPc.holdsDo : ClientPc → Bool
  | .add _ | .test | .unlockAdd | .post _ | .signal _ | .unlockPost _ => true
  | .lockRaise c | .raise c | .unlockRaise c => !c.mode
  | .copy .. | .unlockRead | .failed | .close | .signalClose | .unlockClose => true
  | _ => false

def ClientPc.holdsDone : ClientPc → Bool
  | .raise _ | .unlockRaise _ | .check _ | .unlockWait _ => true
  | _ => false

def FlusherPc.holdsDo : FlusherPc → Bool
  | .waiting | .woken => false
  | _ => true

def FlusherPc.holdsDone : FlusherPc → Bool
  | .clear | .signal | .unlockDone => true
  | _ => false

/-- The client is in a block that touches the write buffer, the tail offset or the read cache. -/
def ClientPc.touches : ClientPc → Bool
  | .add _ | .test | .copy .. => true
  | _ => false

def FlusherPc.touches : FlusherPc → Bool
  | .pass => true
  | _ => false

/-- The events since the client last left a wait. -/
def since (h : List SyncEvent) : List SyncEvent :=
  h.foldl (fun rest e => if e = .leave then [] else rest ++ [e]) []

/-- The client leaves a wait when its request, if it made one, was served by one pass in its mode,
and the flusher makes a pass for a request that was not served. -/
def Served (h : List SyncEvent) : SyncEvent → Prop
  | .post _ | .close => since h = []
  | .pass m => since h = [.post m] ∨ since h = [.close]
  | .leave => since h = [] ∨ ∃ m, since h = [.post m, .pass m]

inductive Stage where
  | quiet
  | raised
  | posted (m : Bool)
  | served (m : Bool)
  | cleared (m : Bool)
  | closing
  | closed (m : Bool)

def Stage.available : Stage → Bool
  | .posted _ | .closing => true
  | _ => false

def Stage.inProgress : Stage → Bool
  | .raised | .posted _ | .served _ => true
  | _ => false

def Stage.exits : Stage → Bool
  | .closing | .closed _ => true
  | _ => false

def Stage.events : Stage → List SyncEvent
  | .quiet | .raised => []
  | .posted m => [.post m]
  | .served m | .cleared m => [.post m, .pass m]
  | .closing => [.close]
  | .closed m => [.close, .pass m]

def Stage.flusher : Stage → FlusherPc → Bool
  | .quiet, .waiting | .quiet, .woken | .quiet, .check | .quiet, .signal | .quiet, .unlockDone => true
  | .raised, .waiting | .raised, .woken | .raised, .check => true
  | .posted _, .waiting | .posted _, .woken | .posted _, .check | .posted _, .pass => true
  | .served _, .exitTest | .served _, .lockDone | .served _, .clear => true
  | .cleared _, .waiting | .cleared _, .woken | .cleared _, .check => true
  | .cleared _, .signal | .cleared _, .unlockDone => true
  | .closing, .waiting | .closing, .woken | .closing, .check | .closing, .pass => true
  | .closed _, .exitTest | .closed _, .returned => true
  | _, _ => false

def Stage.client : Stage → ClientPc → Bool
  | .quiet, .idle | .quiet, .lockAdd _ | .quiet, .add _ | .quiet, .test | .quiet, .unlockAdd => true
  | .quiet, .lockRaise _ | .quiet, .raise _ | .quiet, .lockWait _ | .quiet, .check _ => true
  | .quiet, .unlockWait _ | .quiet, .lockRead .. | .quiet, .copy .. | .quiet, .unlockRead => true
  | .quiet, .lockClose | .quiet, .close => true
  | .raised, .unlockRaise _ | .raised, .lockPost _ | .raised, .post _ => true
  | .posted _, .signal _ | .posted _, .unlockPost _ | .posted _, .lockWait _ => true
  | .posted _, .check _ | .posted _, .waiting _ | .posted _, .woken _ => true
  | .served _, .lockWait _ | .served _, .check _ | .served _, .waiting _ | .served _, .woken _ => true
  | .cleared _, .lockWait _ | .cleared _, .check _ | .cleared _, .waiting _ => true
  | .cleared _, .woken _ => true
  | .closing, .signalClose | .closing, .unlockClose | .closing, .join => true
  | .closed _, .join | .closed _, .closed => true
  | _, _ => false

/-- The client is about to signal `do_flush_cv`. -/
def ClientPc.signals : ClientPc → Bool
  | .signal _ | .signalClose => true
  | _ => false

/-- A mutex is held by the threads that should hold it. -/
structure Held (m : Option Tid) (client flusher : Bool) : Prop where
  client : m = some .client ↔ client = true
  flusher : m = some .flusher ↔ flusher = true

/-- The state of the threads in a stage. -/
structure Threads.In (s : Threads) (g : Stage) : Prop where
  client : g.client s.client = true
  flusher : g.flusher s.flusher = true
  available : s.flushAvailable = g.available
  inProgress : s.flushInProgress = g.inProgress
  exits : s.exitFlusher = g.exits
  mode : ∀ m, g = .posted m → s.lfs.dontDequeueWb = m
  -- no signal is lost
  wakeFlusher : s.flusher = .waiting → g.available = true → s.client.signals = true
  wakeClient : ∀ c, s.client = .waiting c → g.inProgress = false → s.flusher = .signal
  doFlush : Held s.doFlushM s.client.holdsDo s.flusher.holdsDo
  doneFlush : Held s.doneFlushM s.client.holdsDone s.flusher.holdsDone
  events : since s.history = g.events
  served : Steps Served s.history

section
variable {s s' next : Threads} {g : Stage} {h : List SyncEvent} {e : SyncEvent} {t : Tid}
  {m : Option Tid} {c f : Bool} {pc : ClientPc} {fpc : FlusherPc}

theorem since_concat : since (h ++ [e]) = if e = .leave then [] else since h ++ [e] := by
  simp [since, List.foldl_append]

theorem Held.lockClient (held : Held none c f) : Held (some .client) true f := by
  obtain ⟨_, flusher⟩ := held
  exact ⟨by simp, by simpa using flusher⟩

theorem Held.lockFlusher (held : Held none c f) : Held (some .flusher) c true := by
  obtain ⟨client, _⟩ := held
  exact ⟨by simpa using client, by simp⟩

theorem Held.apart (held : Held m true f) : f = false := by
  obtain ⟨client, flusher⟩ := held
  rw [client.mpr rfl] at flusher
  simpa using flusher

theorem Held.apart' (held : Held m c true) : c = false := by
  cases c with
  | false => rfl
  | true => cases held.apart

theorem Held.unlockClient (held : Held m true f) : Held none false f := by
  rw [held.apart]
  exact ⟨by simp, by simp⟩

theorem Held.unlockFlusher (held : Held m c true) : Held none c false := by
  rw [held.apart']
  exact ⟨by simp, by simp⟩

theorem go_ok (ok : next.go = some (.ok s')) : s' = next := by
  simpa [Threads.go, eq_comm] using ok

theorem lockDo_ok (ok : s.lockDo t next = some (.ok s')) :
    s.doFlushM = none ∧ s' = { next with doFlushM := some t } := by
  unfold Threads.lockDo at ok
  split_ifs at ok with free
  exact ⟨free, go_ok ok⟩

theorem lockDone_ok (ok : s.lockDone t next = some (.ok s')) :
    s.doneFlushM = none ∧ s' = { next with doneFlushM := some t } := by
  unfold Threads.lockDone at ok
  split_ifs at ok with free
  exact ⟨free, go_ok ok⟩

/-- The client moves on within a stage. -/
theorem Threads.In.moveClient (i : s.In g) {old : ClientPc} {doM doneM : Option Tid} {lfs : Logfs}
    (client : g.client pc = true) (at_ : s.client = old) (quiet : old.signals = false)
    (waits : ∀ c, pc = .waiting c → g.inProgress = true)
    (lfs_eq : g = .quiet ∨ lfs = s.lfs) (doFlush : Held doM pc.holdsDo s.flusher.holdsDo)
    (doneFlush : Held doneM pc.holdsDone s.flusher.holdsDone) :
    { s with client := pc, doFlushM := doM, doneFlushM := doneM, lfs := lfs }.In g where
  client := client
  flusher := i.flusher
  available := i.available
  inProgress := i.inProgress
  exits := i.exits
  mode m posted := by
    rcases lfs_eq with rfl | rfl
    · cases posted
    · exact i.mode m posted
  wakeFlusher asleep posted := by simp [← at_, i.wakeFlusher asleep posted] at quiet
  wakeClient c same lowered := by simp [waits c same] at lowered
  doFlush := doFlush
  doneFlush := doneFlush
  events := i.events
  served := i.served

/-- The flusher moves on within a stage. -/
theorem Threads.In.moveFlusher (i : s.In g) {doM doneM : Option Tid}
    (flusher : g.flusher fpc = true)
    (asleep : fpc = .waiting → g.available = true → s.client.signals = true)
    (wakes : s.flusher = .signal → fpc = .signal)
    (doFlush : Held doM s.client.holdsDo fpc.holdsDo)
    (doneFlush : Held doneM s.client.holdsDone fpc.holdsDone) :
    { s with flusher := fpc, doFlushM := doM, doneFlushM := doneM }.In g where
  client := i.client
  flusher := flusher
  available := i.available
  inProgress := i.inProgress
  exits := i.exits
  mode := i.mode
  wakeFlusher := asleep
  wakeClient c same lowered := wakes (i.wakeClient c same lowered)
  doFlush := doFlush
  doneFlush := doneFlush
  events := i.events
  served := i.served

/-- Outside of a wait and of a request the stage is quiet. -/
theorem Stage.eq_quiet (client : g.client pc = true) (never : ∀ c, pc ≠ .lockWait c ∧ pc ≠ .check c)
    (quiet : Stage.quiet.client pc = true) : g = .quiet := by
  cases g with
  | quiet => rfl
  | _ =>
    cases pc <;> first
      | exact absurd rfl (never _).1
      | exact absurd rfl (never _).2
      | (cases client; done)
      | cases quiet

/-- A wait may go on in the stage in which it was entered. -/
theorem Stage.client_wait {c : Cont} (client : g.client pc = true)
    (wait : pc = .lockWait c ∨ pc = .woken c) : g.client (.check c) = true := by
  rcases wait with rfl | rfl <;> cases g <;> first | rfl | cases client

theorem Threads.In.raise (i : s.In .quiet) {c : Cont} (pc : s.client = .raise c) :
    { s with flushInProgress := true, client := .unlockRaise c }.In .raised := by
  have doFlush := i.doFlush
  have doneFlush := i.doneFlush
  have flusher := i.flusher
  rw [pc] at doFlush doneFlush
  have free := doneFlush.apart
  constructor
  case flusher =>
    show Stage.raised.flusher s.flusher = true
    generalize s.flusher = fpc at flusher free ⊢
    cases fpc <;> first | rfl | (cases flusher; done) | cases free
  case doFlush => exact doFlush
  case doneFlush => exact doneFlush
  case events => exact i.events
  case served => exact i.served
  case exits => exact i.exits
  case available => exact i.available
  case wakeFlusher => exact fun _ => nofun
  all_goals first | rfl | nofun

theorem Threads.In.post (i : s.In .raised) {c : Cont} (pc : s.client = .post c) :
    { s with
      flushAvailable := true
      lfs := { s.lfs with dontDequeueWb := c.mode }
      client := .signal c
      history := s.history ++ [SyncEvent.post c.mode] }.In (.posted c.mode) := by
  have doFlush := i.doFlush
  have doneFlush := i.doneFlush
  have flusher := i.flusher
  rw [pc] at doFlush doneFlush
  have none_ : since s.history = [] := i.events
  constructor
  case flusher =>
    show (Stage.posted c.mode).flusher s.flusher = true
    generalize s.flusher = fpc at flusher ⊢
    cases fpc <;> first | rfl | cases flusher
  case doFlush => exact doFlush
  case doneFlush => exact doneFlush
  case events => rw [since_concat, none_]; rfl
  case served => exact steps_append.mpr ⟨i.served, none_⟩
  case exits => exact i.exits
  case inProgress => exact i.inProgress
  case mode =>
    intro m same
    cases same
    rfl
  case wakeFlusher => exact fun _ _ => rfl
  all_goals first | rfl | nofun

/-- A signal finds the flusher asleep or already awake. -/
theorem Threads.In.wake (i : s.In g) (asleep : g.flusher .waiting = true → g.flusher .woken = true)
    (client : g.client pc = true) (waits : ∀ c, pc ≠ .waiting c)
    (doFlush : Held s.doFlushM pc.holdsDo s.flusher.holdsDo)
    (doneFlush : Held s.doneFlushM pc.holdsDone s.flusher.holdsDone) :
    { s with flusher := s.flusher.wake, client := pc }.In g := by
  have same : s.flusher.wake.holdsDo = s.flusher.holdsDo ∧
      s.flusher.wake.holdsDone = s.flusher.holdsDone := by
    cases s.flusher <;> exact ⟨rfl, rfl⟩
  have flusher := i.flusher
  constructor
  case client => exact client
  case flusher =>
    show g.flusher s.flusher.wake = true
    cases at_ : s.flusher <;> rw [at_] at flusher
    case waiting => exact asleep flusher
    all_goals exact flusher
  case wakeFlusher =>
    intro woken
    have awake : s.flusher.wake ≠ .waiting := by cases s.flusher <;> simp [FlusherPc.wake]
    exact absurd woken awake
  case wakeClient => exact fun c same => absurd same (waits c)
  case doFlush => rw [same.1]; exact doFlush
  case doneFlush => rw [same.2]; exact doneFlush
  case available => exact i.available
  case inProgress => exact i.inProgress
  case exits => exact i.exits
  case mode => exact i.mode
  case events => exact i.events
  case served => exact i.served

theorem Threads.In.leave (i : s.In g) {c : Cont} (pc : s.client = .check c)
    (lowered : s.flushInProgress = false) :
    { s with client := .unlockWait c, history := s.history ++ [SyncEvent.leave] }.In .quiet := by
  have doFlush := i.doFlush
  have doneFlush := i.doneFlush
  have flusher := i.flusher
  have events := i.events
  have allowed := i.client
  have stage := i.inProgress
  rw [pc] at doFlush doneFlush allowed
  rw [lowered] at stage
  have done_ : g = .quiet ∨ ∃ m, g = .cleared m := by
    cases g with
    | quiet => exact Or.inl rfl
    | cleared m => exact Or.inr ⟨m, rfl⟩
    | _ => first | (cases allowed; done) | cases stage
  constructor
  case client => rfl
  case flusher =>
    show Stage.quiet.flusher s.flusher = true
    generalize s.flusher = fpc at flusher ⊢
    rcases done_ with rfl | ⟨m, rfl⟩ <;> cases fpc <;> first | rfl | cases flusher
  case available => rw [i.available]; rcases done_ with rfl | ⟨m, rfl⟩ <;> rfl
  case inProgress => exact lowered
  case exits => rw [i.exits]; rcases done_ with rfl | ⟨m, rfl⟩ <;> rfl
  case doFlush => exact doFlush
  case doneFlush => exact doneFlush
  case events => rw [since_concat]; rfl
  case served =>
    refine steps_append.mpr ⟨i.served, ?_⟩
    rcases done_ with rfl | ⟨m, rfl⟩
    · exact Or.inl events
    · exact Or.inr ⟨m, events⟩
  case wakeFlusher => exact fun _ => nofun
  all_goals nofun

theorem Threads.In.close (i : s.In .quiet) (pc : s.client = .close) :
    { s with
      flushAvailable := true
      exitFlusher := true
      client := .signalClose
      history := s.history ++ [SyncEvent.close] }.In .closing := by
  have doFlush := i.doFlush
  have doneFlush := i.doneFlush
  have flusher := i.flusher
  rw [pc] at doFlush doneFlush
  have free := doFlush.apart
  have none_ : since s.history = [] := i.events
  constructor
  case flusher =>
    show Stage.closing.flusher s.flusher = true
    generalize s.flusher = fpc at flusher free ⊢
    cases fpc <;> first | rfl | (cases flusher; done) | cases free
  case doFlush => exact doFlush
  case doneFlush => exact doneFlush
  case events => rw [since_concat, none_]; rfl
  case served => exact steps_append.mpr ⟨i.served, none_⟩
  case inProgress => exact i.inProgress
  case wakeFlusher => exact fun _ _ => rfl
  all_goals first | rfl | nofun

theorem Threads.In.client_step (i : s.In g) (call : ClientCall)
    (ok : clientStep call s = some (.ok s')) (works : s'.client ≠ .failed) : ∃ g', s'.In g' := by
  have allowed := i.client
  have doFlush := i.doFlush
  have doneFlush := i.doneFlush
  cases pc : s.client <;> rw [pc] at allowed doFlush doneFlush <;> simp only [clientStep, pc] at ok
  case idle =>
    obtain rfl := go_ok ok
    obtain rfl := Stage.eq_quiet allowed (by simp) rfl
    refine ⟨.quiet, i.moveClient ?_ pc rfl ?_ (Or.inr rfl) ?_ ?_⟩ <;>
      rcases call with (_ | _) | _ <;>
        first | rfl | exact doFlush | exact doneFlush | simp [ClientCall.start]
  case lockAdd buf =>
    obtain ⟨free, rfl⟩ := lockDo_ok ok
    obtain rfl := Stage.eq_quiet allowed (by simp) rfl
    rw [free] at doFlush
    exact ⟨.quiet, i.moveClient rfl pc rfl (by simp) (Or.inr rfl) doFlush.lockClient doneFlush⟩
  case add buf =>
    obtain rfl := Stage.eq_quiet allowed (by simp) rfl
    split at ok
    · obtain rfl := go_ok ok
      exact ⟨.quiet, i.moveClient rfl pc rfl (by simp) (Or.inl rfl) doFlush doneFlush⟩
    · obtain rfl := go_ok ok
      exact ⟨.quiet, i.moveClient rfl pc rfl (by simp) (Or.inr rfl) doFlush doneFlush⟩
  case test =>
    obtain rfl := Stage.eq_quiet allowed (by simp) rfl
    split_ifs at ok
    · obtain rfl := go_ok ok
      exact ⟨.quiet, i.moveClient rfl pc rfl (by simp) (Or.inr rfl) doFlush doneFlush⟩
    · obtain rfl := go_ok ok
      exact ⟨.quiet, i.moveClient rfl pc rfl (by simp) (Or.inr rfl) doFlush doneFlush⟩
  case unlockAdd =>
    obtain rfl := go_ok ok
    obtain rfl := Stage.eq_quiet allowed (by simp) rfl
    exact ⟨.quiet, i.moveClient rfl pc rfl (by simp) (Or.inr rfl) doFlush.unlockClient doneFlush⟩
  case lockRaise c =>
    obtain ⟨free, rfl⟩ := lockDone_ok ok
    obtain rfl := Stage.eq_quiet allowed (by simp) rfl
    rw [free] at doneFlush
    exact ⟨.quiet, i.moveClient rfl pc rfl (by simp) (Or.inr rfl) doFlush doneFlush.lockClient⟩
  case raise c =>
    obtain rfl := go_ok ok
    obtain rfl := Stage.eq_quiet allowed (by simp) rfl
    exact ⟨.raised, i.raise pc⟩
  case unlockRaise c =>
    obtain rfl := go_ok ok
    refine ⟨g, i.moveClient ?_ pc rfl ?_ (Or.inr rfl) ?_ ?_⟩
    · cases c <;> cases g <;> first | rfl | cases allowed
    · cases c <;> simp [Cont.posting]
    · cases c <;> exact doFlush
    · cases c <;> exact doneFlush.unlockClient
  case lockPost c =>
    obtain ⟨free, rfl⟩ := lockDo_ok ok
    rw [free] at doFlush
    refine ⟨g, i.moveClient ?_ pc rfl (by simp) (Or.inr rfl) doFlush.lockClient doneFlush⟩
    cases g <;> first | rfl | cases allowed
  case post c =>
    obtain rfl := go_ok ok
    have raised : g = .raised := by cases g <;> first | rfl | cases allowed
    subst raised
    exact ⟨_, i.post pc⟩
  case signal c =>
    obtain rfl := go_ok ok
    refine ⟨g, i.wake ?_ ?_ (by simp) doFlush doneFlush⟩
    · cases g <;> exact id
    · cases g <;> first | rfl | cases allowed
  case unlockPost c =>
    obtain rfl := go_ok ok
    refine ⟨g, i.moveClient ?_ pc rfl (by simp) (Or.inr rfl) doFlush.unlockClient doneFlush⟩
    cases g <;> first | rfl | cases allowed
  case lockWait c =>
    obtain ⟨free, rfl⟩ := lockDone_ok ok
    rw [free] at doneFlush
    exact ⟨g, i.moveClient (Stage.client_wait allowed (Or.inl rfl)) pc rfl (by simp) (Or.inr rfl)
      doFlush doneFlush.lockClient⟩
  case check c =>
    split_ifs at ok with raised
    · obtain rfl := go_ok ok
      have raised : g.inProgress = true := i.inProgress.symm.trans raised
      refine ⟨g, i.moveClient ?_ pc rfl (fun _ _ => raised) (Or.inr rfl) doFlush
        doneFlush.unlockClient⟩
      cases g <;> first | rfl | (cases raised; done) | cases allowed
    · obtain rfl := go_ok ok
      exact ⟨.quiet, i.leave pc (by simpa using raised)⟩
  case waiting c => cases ok
  case woken c =>
    obtain ⟨free, rfl⟩ := lockDone_ok ok
    rw [free] at doneFlush
    exact ⟨g, i.moveClient (Stage.client_wait allowed (Or.inr rfl)) pc rfl (by simp) (Or.inr rfl)
      doFlush doneFlush.lockClient⟩
  case unlockWait c =>
    obtain rfl := go_ok ok
    obtain rfl := Stage.eq_quiet allowed (by simp) rfl
    refine ⟨.quiet, i.moveClient ?_ pc rfl ?_ (Or.inr rfl) ?_ ?_⟩ <;> cases c <;>
      first | rfl | exact doFlush | exact doneFlush.unlockClient | simp [Cont.next]
  case lockRead off len rand =>
    obtain ⟨free, rfl⟩ := lockDo_ok ok
    obtain rfl := Stage.eq_quiet allowed (by simp) rfl
    rw [free] at doFlush
    exact ⟨.quiet, i.moveClient rfl pc rfl (by simp) (Or.inr rfl) doFlush.lockClient doneFlush⟩
  case copy off len rand =>
    obtain rfl := Stage.eq_quiet allowed (by simp) rfl
    split at ok
    · cases ok
    · obtain rfl := go_ok ok
      exact absurd rfl works
    · rename_i data lfs read
      obtain rfl := go_ok ok
      exact ⟨.quiet, i.moveClient rfl pc rfl (by simp) (Or.inl rfl) doFlush doneFlush⟩
  case unlockRead =>
    obtain rfl := go_ok ok
    obtain rfl := Stage.eq_quiet allowed (by simp) rfl
    exact ⟨.quiet, i.moveClient rfl pc rfl (by simp) (Or.inr rfl) doFlush.unlockClient doneFlush⟩
  case failed => cases g <;> cases allowed
  case lockClose =>
    obtain ⟨free, rfl⟩ := lockDo_ok ok
    obtain rfl := Stage.eq_quiet allowed (by simp) rfl
    rw [free] at doFlush
    exact ⟨.quiet, i.moveClient rfl pc rfl (by simp) (Or.inr rfl) doFlush.lockClient doneFlush⟩
  case close =>
    obtain rfl := go_ok ok
    obtain rfl := Stage.eq_quiet allowed (by simp) rfl
    exact ⟨_, i.close pc⟩
  case signalClose =>
    obtain rfl := go_ok ok
    refine ⟨g, i.wake ?_ ?_ (by simp) doFlush doneFlush⟩
    · cases g <;> exact id
    · cases g <;> first | rfl | cases allowed
  case unlockClose =>
    obtain rfl := go_ok ok
    refine ⟨g, i.moveClient ?_ pc rfl (by simp) (Or.inr rfl) doFlush.unlockClient doneFlush⟩
    cases g <;> first | rfl | cases allowed
  case join =>
    split_ifs at ok with returned
    obtain rfl := go_ok ok
    have flusher := i.flusher
    rw [returned] at flusher
    refine ⟨g, i.moveClient ?_ pc rfl (by simp) (Or.inr rfl) doFlush doneFlush⟩
    cases g <;> first | rfl | cases flusher
  case closed => cases ok

theorem Threads.In.pass (i : s.In g) (at_ : s.flusher = .pass) (lfs : Logfs) :
    ∃ g', { s with
      lfs := lfs
      flushAvailable := false
      flusher := .exitTest
      history := s.history ++ [SyncEvent.pass s.lfs.dontDequeueWb] }.In g' := by
  have doFlush := i.doFlush
  have doneFlush := i.doneFlush
  have flusher := i.flusher
  have client := i.client
  have events := i.events
  rw [at_] at doFlush doneFlush flusher
  have free := doFlush.apart'
  have busy : (∃ m, g = .posted m) ∨ g = .closing := by
    cases g with
    | posted m => exact Or.inl ⟨m, rfl⟩
    | closing => exact Or.inr rfl
    | _ => cases flusher
  rcases busy with ⟨m, rfl⟩ | rfl
  · refine ⟨.served m, ?_⟩
    have mode := i.mode m rfl
    constructor
    case client =>
      show (Stage.served m).client s.client = true
      generalize s.client = pc at client free ⊢
      cases pc <;> first | rfl | (cases client; done) | cases free
    case doFlush => exact doFlush
    case doneFlush => exact doneFlush
    case events => rw [since_concat, mode, events]; rfl
    case served => exact steps_append.mpr ⟨i.served, Or.inl (by rw [mode]; exact events)⟩
    case inProgress => exact i.inProgress
    case exits => exact i.exits
    case wakeClient => exact fun _ _ => nofun
    all_goals first | rfl | nofun
  · refine ⟨.closed s.lfs.dontDequeueWb, ?_⟩
    constructor
    case client =>
      show (Stage.closed _).client s.client = true
      generalize s.client = pc at client free ⊢
      cases pc <;> first | rfl | (cases client; done) | cases free
    case doFlush => exact doFlush
    case doneFlush => exact doneFlush
    case events => rw [since_concat, events]; rfl
    case served => exact steps_append.mpr ⟨i.served, Or.inr events⟩
    case inProgress => exact i.inProgress
    case exits => exact i.exits
    case wakeClient =>
      intro c pc
      rw [pc] at client
      cases client
    all_goals first | rfl | nofun

theorem Threads.In.clear {m : Bool} (i : s.In (.served m)) (at_ : s.flusher = .clear) :
    { s with flushInProgress := false, flusher := .signal }.In (.cleared m) := by
  have doFlush := i.doFlush
  have doneFlush := i.doneFlush
  have client := i.client
  rw [at_] at doFlush doneFlush
  constructor
  case client =>
    show (Stage.cleared m).client s.client = true
    generalize s.client = pc at client ⊢
    cases pc <;> first | rfl | cases client
  case doFlush => exact doFlush
  case doneFlush => exact doneFlush
  case available => exact i.available
  case exits => exact i.exits
  case events => exact i.events
  case served => exact i.served
  case wakeClient => exact fun _ _ _ => rfl
  all_goals first | rfl | nofun

theorem Threads.In.signalDone (i : s.In g) (at_ : s.flusher = .signal) :
    { s with client := s.client.wake, flusher := .unlockDone }.In g := by
  have doFlush := i.doFlush
  have doneFlush := i.doneFlush
  have flusher := i.flusher
  have client := i.client
  rw [at_] at doFlush doneFlush flusher
  have same : s.client.wake.holdsDo = s.client.holdsDo ∧
      s.client.wake.holdsDone = s.client.holdsDone := by
    cases s.client <;> exact ⟨rfl, rfl⟩
  constructor
  case client =>
    show g.client s.client.wake = true
    cases pc : s.client <;> rw [pc] at client
    case waiting c => cases g <;> first | rfl | cases client
    all_goals exact client
  case flusher => cases g <;> first | rfl | cases flusher
  case wakeFlusher => simp
  case wakeClient =>
    intro c woken
    have awake : ∀ c, s.client.wake ≠ .waiting c := by
      intro c
      cases s.client <;> simp [ClientPc.wake]
    exact absurd woken (awake c)
  case doFlush => rw [same.1]; exact doFlush
  case doneFlush => rw [same.2]; exact doneFlush
  case available => exact i.available
  case inProgress => exact i.inProgress
  case exits => exact i.exits
  case mode => exact i.mode
  case events => exact i.events
  case served => exact i.served

theorem Threads.In.flusher_step (i : s.In g) (ok : flusherStep s = some (.ok s')) :
    ∃ g', s'.In g' := by
  have allowed := i.flusher
  have doFlush := i.doFlush
  have doneFlush := i.doneFlush
  cases at_ : s.flusher <;> rw [at_] at allowed doFlush doneFlush <;>
    simp only [flusherStep, at_] at ok
  case waiting => cases ok
  case woken =>
    obtain ⟨free, rfl⟩ := lockDo_ok ok
    rw [free] at doFlush
    refine ⟨g, i.moveFlusher ?_ (by simp) (by simp [at_]) doFlush.lockFlusher doneFlush⟩
    cases g <;> first | rfl | cases allowed
  case check =>
    have available := i.available
    have exits := i.exits
    split_ifs at ok with idle posted
    · obtain rfl := go_ok ok
      have lowered : g.available ≠ true := by rw [← available]; exact idle.2
      refine ⟨g, i.moveFlusher ?_ (fun _ up => absurd up lowered) (by simp [at_])
        doFlush.unlockFlusher doneFlush⟩
      cases g <;> first | rfl | cases allowed
    · obtain rfl := go_ok ok
      rw [posted] at available
      refine ⟨g, i.moveFlusher ?_ (by simp) (by simp [at_]) doFlush doneFlush⟩
      cases g <;> first | rfl | cases available
    · have leaving : g.exits = true ∧ g.available = false := by
        rw [← exits, ← available]
        simp_all
      obtain ⟨up, down⟩ := leaving
      cases g <;> first | (cases up; done) | (cases down; done) | cases allowed
  case pass =>
    split at ok
    · cases ok
    · rename_i lfs _
      obtain rfl := go_ok ok
      exact i.pass at_ lfs
  case exitTest =>
    have exits := i.exits
    split_ifs at ok with leaving
    · obtain rfl := go_ok ok
      rw [leaving] at exits
      refine ⟨g, i.moveFlusher ?_ (by simp) (by simp [at_]) doFlush doneFlush⟩
      cases g <;> first | rfl | (cases exits; done) | cases allowed
    · obtain rfl := go_ok ok
      rw [Bool.not_eq_true] at leaving
      rw [leaving] at exits
      refine ⟨g, i.moveFlusher ?_ (by simp) (by simp [at_]) doFlush doneFlush⟩
      cases g <;> first | rfl | (cases exits; done) | cases allowed
  case lockDone =>
    obtain ⟨free, rfl⟩ := lockDone_ok ok
    rw [free] at doneFlush
    refine ⟨g, i.moveFlusher ?_ (by simp) (by simp [at_]) doFlush doneFlush.lockFlusher⟩
    cases g <;> first | rfl | cases allowed
  case clear =>
    obtain rfl := go_ok ok
    have raised : ∃ m, g = .served m := by
      cases g <;> first | exact ⟨_, rfl⟩ | cases allowed
    obtain ⟨m, rfl⟩ := raised
    exact ⟨.cleared m, i.clear at_⟩
  case signal =>
    obtain rfl := go_ok ok
    exact ⟨g, i.signalDone at_⟩
  case unlockDone =>
    obtain rfl := go_ok ok
    refine ⟨g, i.moveFlusher ?_ (by simp) (by simp [at_]) doFlush doneFlush.unlockFlusher⟩
    cases g <;> first | rfl | cases allowed
  case returned => cases ok

theorem Threads.In.step (i : s.In g) (step : ThreadStep s s') (works : s'.client ≠ .failed) :
    ∃ g', s'.In g' := by
  have client := i.client
  have flusher := i.flusher
  have doFlush := i.doFlush
  have doneFlush := i.doneFlush
  cases step with
  | client call ok => exact i.client_step call ok works
  | flusher ok => exact i.flusher_step ok
  | wakeClient c pc =>
    rw [pc] at client doFlush doneFlush
    refine ⟨g, i.moveClient ?_ pc rfl (by simp) (Or.inr rfl) doFlush doneFlush⟩
    cases g <;> first | rfl | cases client
  | wakeFlusher at_ =>
    rw [at_] at flusher doFlush doneFlush
    refine ⟨g, i.moveFlusher ?_ (by simp) (by simp [at_]) doFlush doneFlush⟩
    cases g <;> first | rfl | cases flusher

theorem start_in (lfs : Logfs) : (Threads.start lfs).In .quiet := by
  constructor
  case served => exact Steps.nil
  case doFlush => exact ⟨by simp [Threads.start, ClientPc.holdsDo], by
    simp [Threads.start, FlusherPc.holdsDo]⟩
  case doneFlush => exact ⟨by simp [Threads.start, ClientPc.holdsDone], by
    simp [Threads.start, FlusherPc.holdsDone]⟩
  case wakeFlusher => exact fun _ => nofun
  all_goals first | rfl | nofun

theorem Reaches.stage {lfs : Logfs} (reaches : Reaches lfs s) : ∃ g, s.In g := by
  induction reaches with
  | start => exact ⟨.quiet, start_in lfs⟩
  | step _ step works ih =>
    obtain ⟨g, i⟩ := ih
    exact i.step step works

/-- A mutex that the client does not hold and that is not free is held by the flusher. -/
theorem Held.of_client (held : Held m false f) (taken : m ≠ none) : f = true := by
  cases owner : m with
  | none => exact absurd owner taken
  | some t =>
    cases t with
    | client => exact absurd (held.client.mp owner) (by simp)
    | flusher => exact held.flusher.mp owner

theorem go_ne_none : s.go ≠ none := by simp [Threads.go]

theorem lockDo_none (stuck : s.lockDo t next = none) : s.doFlushM ≠ none := by
  unfold Threads.lockDo at stuck
  split_ifs at stuck with free
  · exact absurd stuck go_ne_none
  · exact free

theorem lockDone_none (stuck : s.lockDone t next = none) : s.doneFlushM ≠ none := by
  unfold Threads.lockDone at stuck
  split_ifs at stuck with free
  · exact absurd stuck go_ne_none
  · exact free

/-- What the client waits for. -/
inductive ClientPc.Stuck (s : Threads) : ClientPc → Prop where
  | doFlush {pc : ClientPc} : s.doFlushM ≠ none → pc.holdsDo = false → pc.holdsDone = false →
      (∀ m, (Stage.closed m).client pc = false) → Stuck s pc
  | doneFlush {pc : ClientPc} : s.doneFlushM ≠ none → pc.holdsDone = false → Stuck s pc
  | waiting (c : Cont) : Stuck s (.waiting c)
  | join : s.flusher ≠ .returned → Stuck s .join
  | closed : Stuck s .closed

inductive FlusherPc.Stuck (s : Threads) : FlusherPc → Prop where
  | waiting : Stuck s .waiting
  | woken : s.doFlushM ≠ none → Stuck s .woken
  | lockDone : s.doneFlushM ≠ none → Stuck s .lockDone
  | returned : Stuck s .returned

theorem client_stuck {call : ClientCall} (stuck : clientStep call s = none) :
    s.client.Stuck s := by
  cases pc : s.client <;> simp only [clientStep, pc] at stuck
  case lockAdd => exact .doFlush (lockDo_none stuck) rfl rfl fun _ => rfl
  case lockPost => exact .doFlush (lockDo_none stuck) rfl rfl fun _ => rfl
  case lockRead => exact .doFlush (lockDo_none stuck) rfl rfl fun _ => rfl
  case lockClose => exact .doFlush (lockDo_none stuck) rfl rfl fun _ => rfl
  case lockRaise => exact .doneFlush (lockDone_none stuck) rfl
  case lockWait => exact .doneFlush (lockDone_none stuck) rfl
  case woken => exact .doneFlush (lockDone_none stuck) rfl
  case waiting c => exact .waiting c
  case join =>
    split_ifs at stuck with returned
    · exact absurd stuck go_ne_none
    · exact .join returned
  case closed => exact .closed
  case add => split at stuck <;> exact absurd stuck go_ne_none
  case test => split_ifs at stuck <;> exact absurd stuck go_ne_none
  case check => split_ifs at stuck <;> exact absurd stuck go_ne_none
  case copy =>
    split at stuck
    · cases stuck
    · exact absurd stuck go_ne_none
    · exact absurd stuck go_ne_none
  all_goals exact absurd stuck go_ne_none

theorem flusher_stuck (stuck : flusherStep s = none) : s.flusher.Stuck s := by
  cases at_ : s.flusher <;> simp only [flusherStep, at_] at stuck
  case waiting => exact .waiting
  case woken => exact .woken (lockDo_none stuck)
  case lockDone => exact .lockDone (lockDone_none stuck)
  case returned => exact .returned
  case check => split_ifs at stuck <;> exact absurd stuck go_ne_none
  case exitTest => split_ifs at stuck <;> exact absurd stuck go_ne_none
  case pass =>
    split at stuck
    · cases stuck
    · exact absurd stuck go_ne_none
  all_goals exact absurd stuck go_ne_none

/-- A stuck flusher holds no mutex, unless it has returned. -/
theorem FlusherPc.Stuck.holds (stuck : fpc.Stuck s)
    (doneFlush : Held s.doneFlushM false fpc.holdsDone) :
    fpc.holdsDone = false ∧ (fpc.holdsDo = true → fpc = .returned) := by
  cases stuck with
  | waiting => exact ⟨rfl, nofun⟩
  | woken => exact ⟨rfl, nofun⟩
  | lockDone taken => exact absurd (doneFlush.of_client taken) (by simp [FlusherPc.holdsDone])
  | returned => exact ⟨rfl, fun _ => rfl⟩

/-- A thread that has to wait finds the other one able to go on, until both are done. -/
theorem Threads.In.progress (i : s.In g) (client : ∀ call, clientStep call s = none)
    (flusher : flusherStep s = none) : s.client = .closed ∧ s.flusher = .returned := by
  have stuck := client_stuck (client .close)
  have stuck' := flusher_stuck flusher
  have doFlush := i.doFlush
  have doneFlush := i.doneFlush
  have allowed := i.client
  have allowed' := i.flusher
  have wakeFlusher := i.wakeFlusher
  have wakeClient := i.wakeClient
  generalize s.client = pc at *
  cases stuck with
  | doFlush taken free freeDone open_ =>
    rw [free] at doFlush
    rw [freeDone] at doneFlush
    -- only the flusher that has returned keeps the mutex, and then the client is in its close
    have returned := (stuck'.holds doneFlush).2 (doFlush.of_client taken)
    rw [returned] at allowed'
    cases g with
    | closed m =>
      rw [open_ m] at allowed
      cases allowed
    | _ => cases allowed'
  | doneFlush taken free =>
    rw [free] at doneFlush
    have holds := doneFlush.of_client taken
    rw [(stuck'.holds doneFlush).1] at holds
    cases holds
  | waiting c =>
    generalize s.flusher = fpc at *
    cases stuck' with
    | waiting =>
      cases g with
      | posted m => cases wakeFlusher rfl rfl
      | cleared m => cases wakeClient c rfl rfl
      | served m => cases allowed'
      | _ => cases allowed
    | woken taken => cases doFlush.of_client taken
    | lockDone taken => cases doneFlush.of_client taken
    | returned =>
      cases g with
      | closed m => cases allowed
      | _ => cases allowed'
  | join running =>
    generalize s.flusher = fpc at *
    cases stuck' with
    | waiting =>
      cases g with
      | closing => cases wakeFlusher rfl rfl
      | closed m => cases allowed'
      | _ => cases allowed
    | woken taken => cases doFlush.of_client taken
    | lockDone taken => cases doneFlush.of_client taken
    | returned => exact absurd rfl running
  | closed =>
    refine ⟨rfl, ?_⟩
    generalize s.flusher = fpc at *
    cases stuck' with
    | returned => rfl
    | _ =>
      cases g with
      | closed m => cases allowed'
      | _ => cases allowed

theorem since_append {rest : List SyncEvent} (stays : .leave ∉ rest) :
    since (h ++ rest) = since h ++ rest := by
  induction rest using List.reverseRecOn with
  | nil => simp
  | append_singleton rest e ih =>
    simp only [List.mem_append, List.mem_singleton, not_or] at stays
    rw [← List.append_assoc, since_concat, if_neg (Ne.symm stays.2), ih stays.1, List.append_assoc]

theorem since_suffix (h : List SyncEvent) : ∃ earlier, h = earlier ++ since h := by
  induction h using List.reverseRecOn with
  | nil => exact ⟨[], rfl⟩
  | append_singleton h e ih =>
    obtain ⟨earlier, eq⟩ := ih
    rw [since_concat]
    split_ifs
    · exact ⟨h ++ [e], by simp⟩
    · refine ⟨earlier, ?_⟩
      rw [← List.append_assoc, ← eq]

end

/-- Between a request and the leaving of the wait that follows there is one pass in the mode of
the request, and a pass follows a request or the call of `logfs_close`. -/
structure Orderly (h : List SyncEvent) : Prop where
  served : ∀ before m between after, h = before ++ .post m :: (between ++ .leave :: after) →
    .leave ∉ between → between = [.pass m]
  asked : ∀ before m after, h = before ++ .pass m :: after →
    ∃ earlier, before = earlier ++ [.post m] ∨ before = earlier ++ [.close]

theorem orderly_of_served {h : List SyncEvent} (steps : Steps Served h) : Orderly h := by
  constructor
  · intro before m between after split stays
    have here : since (before ++ .post m :: between) = since before ++ .post m :: between :=
      since_append (by simp [stays])
    have leave := steps (before ++ .post m :: between) .leave after (by simp [split])
    simp only [Served, here] at leave
    rcases leave with empty | ⟨m', eq⟩
    · simp at empty
    · rcases List.append_eq_cons_iff.mp eq with ⟨_, eq⟩ | ⟨rest, _, eq⟩
      · obtain ⟨same, rfl⟩ := List.cons.inj eq
        cases same
        rfl
      · have := List.append_eq_singleton_iff.mp eq.symm
        simp at this
  · intro before m after split
    have pass := steps before (.pass m) after split
    obtain ⟨earlier, eq⟩ := since_suffix before
    rcases pass with asked | asked
    · exact ⟨earlier, Or.inl (by rw [← asked]; exact eq)⟩
    · exact ⟨earlier, Or.inr (by rw [← asked]; exact eq)⟩

/-- In every state of a run without failing reads the requests so far were served in order, at most
one thread touches the buffers, and one of the threads can go on unless both are done. -/
theorem flusher_protocol {lfs : Logfs} {s : Threads} (reaches : Reaches lfs s) :
    Orderly s.history ∧ ¬ (s.client.touches = true ∧ s.flusher.touches = true) ∧
      ((∀ call, clientStep call s = none) → flusherStep s = none →
        s.client = .closed ∧ s.flusher = .returned) := by
  obtain ⟨g, i⟩ := reaches.stage
  refine ⟨orderly_of_served i.served, ?_, i.progress⟩
  rintro ⟨client, flusher⟩
  have doFlush := i.doFlush
  have holds : s.client.holdsDo = true := by
    cases pc : s.client <;> simp_all [ClientPc.touches, ClientPc.holdsDo]
  have holds' : s.flusher.holdsDo = true := by
    cases at_ : s.flusher <;> simp_all [FlusherPc.touches, FlusherPc.holdsDo]
  rw [holds, holds'] at doFlush
  cases doFlush.apart

/-- Which thread goes on. -/
inductive Turn where
  | client (call : ClientCall)
  | flusher

def Turn.attempt (s : Threads) : Turn → Attempt
  | .client call => clientStep call s
  | .flusher => flusherStep s

def ClientPc.hasFailed : ClientPc → Bool
  | .failed => true
  | _ => false

def follow : List Turn → Threads → Option Threads
  | [], s => some s
  | t :: ts, s =>
    match t.attempt s with
    | some (.ok s) => if s.client.hasFailed then none else follow ts s
    | _ => none

theorem follow_reaches {lfs : Logfs} (turns : List Turn) {s s' : Threads} (reaches : Reaches lfs s)
    (run : follow turns s = some s') : Reaches lfs s' := by
  induction turns generalizing s with
  | nil =>
    obtain rfl := Option.some.inj run
    exact reaches
  | cons t turns ih =>
    simp only [follow] at run
    split at run
    · rename_i s₁ ok
      split_ifs at run with failed
      refine ih (reaches.step ?_ ?_) run
      · cases t with
        | client call => exact .client call ok
        | flusher => exact .flusher ok
      · intro same
        rw [same] at failed
        exact failed rfl
    · cases run

/-- An append of a block, its flush, and the wait for it. -/
def appendTurns : List Turn :=
  List.replicate 12 (.client (.call (.append [1, 2, 3, 4]))) ++ List.replicate 9 .flusher ++
    List.replicate 3 (.client .close)

theorem flusher_protocol_append :
    ∃ s, follow appendTurns (.start (logfsOpen blankDevice)) = some s ∧
      s.history = [.post false, .pass false, .leave] ∧ Orderly s.history := by
  have run : (follow appendTurns (.start (logfsOpen blankDevice))).map Threads.history =
      some [.post false, .pass false, .leave] := by decide +kernel
  obtain ⟨s, follows, history⟩ := Option.map_eq_some_iff.mp run
  exact ⟨s, follows, history, (flusher_protocol (follow_reaches _ .start follows)).1⟩

end OsProjects.KeyValue
