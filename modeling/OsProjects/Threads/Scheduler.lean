import Mathlib.Data.List.Basic

/-!
# The thread scheduler (`scheduler.c`)

Threads are kept in a list that new threads enter at its head. `longjmp` switches control,
so a run is a sequence of control points: the scheduler looks for a thread and enters or
resumes it, and the thread creates others until it yields or its function returns. What
the running thread does is up to its behaviour, which may depend on all that happened
before. A pointer to a thread is the number of threads created before it.
-/
namespace OsProjects.Threads

/-- `STATUS_` is `fresh`. -/
inductive Status where
  | fresh
  | running
  | sleeping
  | terminated
  deriving DecidableEq, Repr

structure Thread where
  status : Status
  next : Option Nat
  deriving DecidableEq, Repr

structure State where
  threads : List Thread
  head : Option Nat
  curr : Option Nat
  deriving DecidableEq, Repr

inductive Fault where
  | segv
  | hang
  deriving DecidableEq, Repr

/-- The loop of `thread_candidate`. A walk over more pointers than there are goes on forever. -/
def candidateLoop (s : State) (ref : Option Nat) : Nat → Option Nat → Except Fault (Option Nat)
  | 0, _ => .error .hang
  | fuel + 1, current =>
    match current.or s.head with
    | none => .error .segv
    | some p =>
      match s.threads[p]? with
      | none => .error .segv
      | some t =>
        if t.status = .fresh ∨ t.status = .sleeping then .ok (some p)
        else if t.next = ref then .ok none
        else candidateLoop s ref fuel t.next

def threadCandidate (s : State) : Except Fault (Option Nat) :=
  match s.curr with
  | none => candidateLoop s s.head (s.threads.length + 1) s.head
  | some c =>
    match s.threads[c]? with
    | none => .error .segv
    | some t => candidateLoop s t.next (s.threads.length + 1) t.next

def State.setStatus (s : State) (p : Nat) (status : Status) : State :=
  { s with threads := s.threads.modify p fun t => { t with status := status } }

inductive Event where
  | create (p : Nat)
  | enter (p : Nat)
  | resume (p : Nat)
  | yield (p : Nat)
  | exit (p : Nat)
  deriving DecidableEq, Repr

/-- The switch that `schedule` makes, or nothing where it returns. -/
def schedule (s : State) : Except Fault (Option (Event × State)) :=
  match threadCandidate s with
  | .error f => .error f
  | .ok none => .ok none
  | .ok (some p) =>
    let s := { s with curr := some p }
    match s.threads[p]? with
    | none => .error .segv
    | some t =>
      if t.status = .fresh then .ok (some (.enter p, s.setStatus p .running))
      else if t.status = .sleeping then .ok (some (.resume p, s.setStatus p .running))
      else .ok none

def schedulerCreate (s : State) : State :=
  { s with threads := s.threads ++ [⟨.fresh, s.head⟩], head := some s.threads.length }

/-- What a thread does next: calls `scheduler_create`, calls `scheduler_yield`, or returns. -/
inductive Action where
  | create
  | yield
  | exit
  deriving DecidableEq, Repr

abbrev Behaviour := List Event → Action

/-- Where control is: at `setjmp` in `scheduler_execute`, in the current thread, or at the call of
`destroy`. -/
inductive Control where
  | scheduler
  | thread
  | destroy
  deriving DecidableEq, Repr

structure Machine where
  state : State
  control : Control
  history : List Event
  deriving DecidableEq, Repr

/-- An action of the thread `p`. -/
def act (m : Machine) (p : Nat) : Action → Machine
  | .create =>
    ⟨schedulerCreate m.state, .thread, m.history ++ [.create m.state.threads.length]⟩
  | .yield => ⟨m.state.setStatus p .sleeping, .scheduler, m.history ++ [.yield p]⟩
  | .exit => ⟨m.state.setStatus p .terminated, .scheduler, m.history ++ [.exit p]⟩

def step (b : Behaviour) (m : Machine) : Except Fault Machine :=
  match m.control with
  | .scheduler =>
    match schedule m.state with
    | .error f => .error f
    | .ok none => .ok { m with control := .destroy }
    | .ok (some (e, s)) => .ok ⟨s, .thread, m.history ++ [e]⟩
  | .thread =>
    match m.state.curr with
    | none => .error .segv
    | some p => .ok (act m p (b m.history))
  | .destroy => .ok m

/-- The call of `scheduler_execute` after `k` calls of `scheduler_create`. -/
def start : Nat → Machine
  | 0 => ⟨⟨[], none, none⟩, .scheduler, []⟩
  | k + 1 =>
    let m := start k
    ⟨schedulerCreate m.state, .scheduler, m.history ++ [.create m.state.threads.length]⟩

/-- The machine after `n` switches and actions. -/
def execute (b : Behaviour) (k : Nat) : Nat → Except Fault Machine
  | 0 => .ok (start k)
  | n + 1 =>
    match execute b k n with
    | .error f => .error f
    | .ok m => step b m

end OsProjects.Threads
