import OsProjects.Library.Steps
import OsProjects.Threads.Candidate

/-!
# The scheduler under SIGALRM

Here `scheduler.c` is taken statement by statement, since a signal may come between any two of them.
`alarm(1)` makes one signal pending; while it is pending it may be delivered in `scheduler_execute`,
`schedule`, `thread_candidate` or a thread, and the handler then yields for the current thread. A
context that `setjmp` saved is the point where control goes on. Threads run on stacks of their own;
a context on the stack of `scheduler_execute` is lost when control jumps back to `state.ctx`.
-/
namespace OsProjects.Threads

/-- Where control is: the statement that comes next. `user p` stands for all points of the function
of `p` outside of its calls, and `handler q` for a handler that interrupted `q` and is back from
`scheduler_yield`. -/
inductive Point where
  | setjmp
  | signal
  | alarm
  | schedule
  | walk (ref current : Option Nat)
  | candidate (thread : Option Nat)
  | test
  | start
  | stack
  | call
  | user (p : Nat)
  /-- In `scheduler_create`, with the thread made, before `new_thread->next = state.head`. -/
  | create (p : Nat)
  /-- Before `state.head = new_thread`, with what `new_thread->next` is. -/
  | link (p : Nat) (next : Option Nat)
  /-- In `scheduler_yield`, behind `setjmp`. -/
  | yield (p : Nat)
  /-- Before its `longjmp`. -/
  | asleep (p : Nat)
  | finish
  | leave
  | wake
  | jump
  | handler (interrupted : Point)
  | destroy
  deriving DecidableEq, Repr

/-- The points on the stack of a thread. -/
def Point.ownStack : Point → Bool
  | .call | .user _ | .create _ | .link _ _ | .yield _ | .asleep _ | .finish | .leave => true
  | .handler q => q.ownStack
  | _ => false

/-- The thread whose function or call of `scheduler_create` is being executed. In `scheduler_yield`
the thread is being suspended. -/
def Point.function : Point → Option Nat
  | .user p | .create p | .link p _ => some p
  | .handler q => q.function
  | _ => none

def Point.interruptible : Point → Bool
  | .handler _ => false
  | _ => true

inductive Trap where
  | segv
  | undefined
  deriving DecidableEq, Repr

/-- `returned` tells whether the call of `scheduler_yield` that saved the context of a thread has
returned, and `entered` lists the threads whose functions were called. -/
structure Process where
  state : State
  ctx : Nat → Option Point
  returned : Nat → Bool
  pending : Bool
  point : Point
  entered : List Nat

/-- `state.head = new_thread`, with what `new_thread->next` is. -/
def State.push (s : State) (next : Option Nat) : State :=
  { s with threads := s.threads ++ [⟨.fresh, next⟩], head := some s.threads.length }

/-- An assignment to the status of the current thread. -/
def Process.setStatus (m : Process) (status : Status) (point : Point) : Except Trap Process :=
  match m.state.curr with
  | none => .error .segv
  | some c => .ok { m with state := m.state.setStatus c status, point := point }

/-- The `setjmp` of `scheduler_yield`; `back` is where the call returns to when the thread is
resumed. -/
def Process.save (m : Process) (back point : Point) : Except Trap Process :=
  match m.state.curr with
  | none => .error .segv
  | some c =>
    .ok { m with
      ctx := Function.update m.ctx c (some back)
      returned := Function.update m.returned c false
      point := point }

/-- The handler keeps its own signal off, so its call of `scheduler_yield` is one step. -/
def signalHandler (m : Process) : Except Trap Process := do
  let m ← { m with pending := false }.save (.handler m.point) m.point
  m.setStatus .sleeping .signal

/-- The next statement; in a thread, its next call. -/
def Process.proceed (m : Process) (a : Action) : Except Trap Process :=
  match m.point with
  -- scheduler_execute
  | .setjmp => .ok { m with point := .signal }
  | .signal => .ok { m with point := .alarm }
  | .alarm => .ok { m with pending := true, point := .schedule }
  -- thread_candidate
  | .schedule =>
    match m.state.curr with
    | none => .ok { m with point := .walk m.state.head m.state.head }
    | some c =>
      match m.state.threads[c]? with
      | none => .error .segv
      | some t => .ok { m with point := .walk t.next t.next }
  | .walk ref current =>
    match current.or m.state.head with
    | none => .error .segv
    | some p =>
      match m.state.threads[p]? with
      | none => .error .segv
      | some t =>
        if t.status = .fresh ∨ t.status = .sleeping then .ok { m with point := .candidate (some p) }
        else if t.next = ref then .ok { m with point := .candidate none }
        else .ok { m with point := .walk ref t.next }
  -- schedule
  | .candidate none => .ok { m with point := .destroy }
  | .candidate (some p) => .ok { m with state := { m.state with curr := some p }, point := .test }
  | .test =>
    match m.state.curr.bind m.state.status with
    | none => .error .segv
    | some status =>
      if status = .fresh then .ok { m with point := .start }
      else if status = .sleeping then .ok { m with point := .wake }
      else .ok { m with point := .destroy }
  | .start => m.setStatus .running .stack
  | .stack => .ok { m with point := .call }
  | .call =>
    match m.state.curr with
    | none => .error .segv
    | some p => .ok { m with entered := m.entered ++ [p], point := .user p }
  | .user p =>
    match a with
    | .create => .ok { m with point := .create p }
    | .yield => m.save (.user p) (.yield p)
    | .exit => .ok { m with point := .finish }
  -- scheduler_create
  | .create p => .ok { m with point := .link p m.state.head }
  | .link p next => .ok { m with state := m.state.push next, point := .user p }
  -- scheduler_yield
  | .yield p => m.setStatus .sleeping (.asleep p)
  | .asleep _ => .ok { m with point := .signal }
  | .finish => m.setStatus .terminated .leave
  | .leave => .ok { m with point := .signal }
  | .wake => m.setStatus .running .jump
  | .jump =>
    match m.state.curr with
    | none => .error .segv
    | some p =>
      match m.ctx p with
      | none => .error .undefined
      | some q =>
        if q.ownStack && !m.returned p then
          .ok { m with returned := Function.update m.returned p true, point := q }
        else .error .undefined
  -- signal_handler after scheduler_yield
  | .handler q => .ok { m with pending := false, point := q }
  | .destroy => .ok m

/-- What happens next: the pending signal is delivered, or control goes on. -/
inductive Choice where
  | deliver
  | proceed (a : Action)
  deriving DecidableEq, Repr

def Process.next (m : Process) : Choice → Except Trap Process
  | .deliver => if m.pending && m.point.interruptible then signalHandler m else .ok m
  | .proceed a => m.proceed a

def Process.run (m : Process) : List Choice → Except Trap Process
  | [] => .ok m
  | c :: cs =>
    match m.next c with
    | .error t => .error t
    | .ok m' => m'.run cs

/-- The call of `scheduler_execute` after `k` calls of `scheduler_create`. -/
def boot (k : Nat) : Process := ⟨(start k).state, fun _ => none, fun _ => false, false, .setjmp, []⟩

/-- Each signal that is delivered interrupts the function of a thread or its call of
`scheduler_create`. -/
def InUserCode (k : Nat) (cs : List Choice) : Prop :=
  Library.Steps (fun before c => c = .deliver → ∀ m, (boot k).run before = .ok m →
    m.pending = true → m.point.interruptible = true → ∃ p, m.point.function = some p) cs

/-- A new thread is put before the head that it has read, so none was created in between. -/
def KeepsHead (k : Nat) (cs : List Choice) : Prop :=
  Library.Steps (fun before c => c ≠ .deliver → ∀ m, (boot k).run before = .ok m →
    ∀ p next, m.point = .link p next → next = m.state.head) cs

/-- What a step may do to the statuses. -/
structure Orderly (m m' : Process) : Prop where
  terminated : ∀ p, m.state.status p = some .terminated → m'.state.status p = some .terminated
  sleeping : ∀ p, m'.state.status p = some .sleeping → m.state.status p = some .sleeping ∨
    m.state.status p = some .running ∧ (m.point.function = some p ∨ m.point = .yield p)

/-- Each function is entered once, and a thread is suspended only inside of its function, where its
context is good for one return. -/
structure Sound (m : Process) : Prop where
  once : ∀ p, m.entered.count p ≤ 1
  suspended : ∀ p, m.state.status p = some .sleeping → m.entered.count p = 1 ∧
    m.returned p = false ∧ ∃ q, m.ctx p = some q ∧ q.function = some p
  executing : ∀ p, m.point.function = some p →
    m.state.status p = some .running ∧ m.entered.count p = 1
  ended : m.point = .destroy → ∀ p status, m.state.status p = some status →
    status = .terminated ∧ m.entered.count p = 1

/-- The last suspension of the thread was by the handler. -/
def Process.preempted (m : Process) (p : Nat) : Bool :=
  match m.ctx p with
  | some (.handler _) => true
  | _ => false

section
variable {m m' m₁ : Process} {c : Choice} {cs : List Choice} {q : Point} {p r : Nat}
  {status : Status}

theorem setStatus_of_curr (curr : m.state.curr = some p) :
    m.setStatus status q = .ok { m with state := m.state.setStatus p status, point := q } := by
  simp only [Process.setStatus, curr]

@[simp] theorem length_push {s : State} {next : Option Nat} :
    (s.push next).threads.length = s.threads.length + 1 := by
  simp [State.push]

/-- What stands in `next` makes no difference to the statuses. -/
theorem status_push {s : State} {next : Option Nat} : (s.push next).status p =
    if p = s.threads.length then some .fresh else s.status p := by
  rw [← status_schedulerCreate]
  simp only [State.status, State.push, schedulerCreate, ← List.getElem?_map, List.map_append,
    List.map_singleton]

theorem save_of_curr (curr : m.state.curr = some p) {back : Point} :
    m.save back q = .ok { m with
      ctx := Function.update m.ctx p (some back)
      returned := Function.update m.returned p false
      point := q } := by
  simp only [Process.save, curr]

theorem signalHandler_of_curr (curr : m.state.curr = some p) :
    signalHandler m = .ok { m with
      state := m.state.setStatus p .sleeping
      ctx := Function.update m.ctx p (some (.handler m.point))
      returned := Function.update m.returned p false
      pending := false
      point := .signal } := by
  simp only [signalHandler, Process.save, Process.setStatus, curr, bind, Except.bind]

theorem run_concat : m.run (cs ++ [c]) = .ok m' ↔ ∃ m₁, m.run cs = .ok m₁ ∧ m₁.next c = .ok m' := by
  induction cs generalizing m with
  | nil =>
    cases step : m.next c <;> simp [Process.run, step]
  | cons d cs ih =>
    cases step : m.next d with
    | error t => simp [Process.run, step]
    | ok m₂ => simp [Process.run, step, ih]

end

end OsProjects.Threads
