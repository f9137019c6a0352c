import OsProjects.Threads.Alarm

/-!
# Runs under SIGALRM

As long as signals come only while a thread executes its own function, a step keeps what `Held`
says: the number of entries and the saved context of a thread go with its status, the current thread
is the only one that may be running, and the alarm is armed between `alarm(1)` and the jump into a
thread. So statuses change as they should; but whether the alarm is still armed when control is in a
thread depends on how that thread was suspended before. That each thread gets its turns needs the list
as well: `Listed` is kept while a new thread is put before the head that is there.
-/
namespace OsProjects.Threads

/-- The points between the assignment of `STATUS_RUNNING` and the next one. -/
def Point.busy : Point → Bool
  | .stack | .call | .user _ | .create _ | .link _ _ | .yield _ | .finish | .jump | .handler _ => true
  | _ => false

/-- The points between `alarm(1)` and the thread. -/
def Point.armed : Point → Bool
  | .schedule | .walk _ _ | .candidate _ | .test | .start | .stack | .call | .wake | .jump => true
  | _ => false

/-- The context of the thread is good for one return, into its function or into a handler that has
interrupted it there. -/
structure Process.Saved (m : Process) (p : Nat) : Prop where
  returned : m.returned p = false
  ctx : m.ctx p = some (.user p) ∨
    ∃ q : Point, q.function = some p ∧ q.interruptible = true ∧ m.ctx p = some (.handler q)

/-- What goes with the status of the thread `p`. -/
def Process.Entry (m : Process) (p : Nat) : Option Status → Prop
  | none | some .fresh => m.entered.count p = 0 ∧ m.ctx p = none
  | some .running => m.state.curr = some p ∧ m.point.busy = true ∧ m.entered.count p ≤ 1
  | some .sleeping => m.entered.count p = 1 ∧ m.Saved p
  | some .terminated => m.entered.count p = 1

/-- The current thread has the status `status` and its function was called `n` times. -/
structure Process.Turn (m : Process) (p : Nat) (status : Status) (n : Nat) : Prop where
  curr : m.state.curr = some p
  status : m.state.status p = some status
  count : m.entered.count p = n

/-- A thread executes its function. -/
structure Process.Inside (m : Process) (p : Nat) : Prop where
  turn : m.Turn p .running 1
  pending : m.pending = !m.preempted p

def Process.At (m : Process) : Point → Prop
  | .candidate (some p) => m.state.Waits p
  | .test => ∃ p, m.state.curr = some p ∧ m.state.Waits p
  | .start => ∃ p, m.Turn p .fresh 0 ∧ m.ctx p = none
  | .stack | .call => ∃ p, m.Turn p .running 0 ∧ m.ctx p = none
  | .user p | .create p | .link p _ => m.Inside p
  | .yield p => m.Turn p .running 1 ∧ m.Saved p
  | .finish => ∃ p, m.Turn p .running 1
  | .wake => ∃ p, m.Turn p .sleeping 1
  | .jump => ∃ p, m.Turn p .running 1 ∧ m.Saved p
  | .handler q => ∃ p, q.function = some p ∧ q.interruptible = true ∧ m.Turn p .running 1 ∧
      m.preempted p = true
  | .setjmp | .signal | .alarm | .schedule | .walk _ _ | .candidate none | .asleep _ | .leave
  | .destroy => True

structure Held (m : Process) : Prop where
  curr : ∀ c, m.state.curr = some c → c < m.state.threads.length
  idle : m.state.curr = none → ∀ p status, m.state.status p = some status → status = .fresh
  entry : ∀ p, m.Entry p (m.state.status p)
  armed : m.point.armed = true → m.pending = true
  at_ : m.At m.point

/-- Where the walk over the list has come to. -/
def Process.Walks (m : Process) : Point → Prop
  | .walk ref current => ∃ fuel, candidateLoop m.state ref fuel current = threadCandidate m.state
  | .candidate thread => threadCandidate m.state = .ok thread
  | .destroy => ∀ p status, m.state.status p = some status → status = .terminated
  | _ => True

/-- All threads stand in the list. -/
structure Listed (m : Process) : Prop where
  linked : m.state.Linked
  walks : m.Walks m.point

section
variable {m m' : Process} {c : Choice} {cs : List Choice} {q : Point} {p r n k : Nat}
  {status : Status} {thread : Option Nat} {s : State} {b : Bool}

theorem FindsFirst.none_waits (finds : FindsFirst s) (linked : s.Linked)
    (ok : threadCandidate s = .ok none) : ¬ s.Waits p := by
  intro waits
  have found := List.find?_eq_none.mp (Except.ok.inj (finds.symm.trans ok))
  have lt : p < s.threads.length := waits.elim status_lt status_lt
  have mem : p ∈ s.list := by
    rw [list_eq linked]
    simpa using lt
  have mem : p ∈ s.circle := by
    unfold State.circle
    cases s.curr with
    | none => exact mem
    | some c => exact List.mem_rotate.mpr mem
  simpa [waits] using found p mem

theorem Listed.finds (l : Listed m) (h : Held m) (pos : 0 < m.state.threads.length) :
    FindsFirst m.state := by
  cases curr : m.state.curr with
  | some c => exact findsFirst_walk l.linked curr (h.curr c curr)
  | none => exact findsFirst_head l.linked curr pos (h.idle curr)

theorem threadCandidate_pos (linked : s.Linked) (curr : ∀ c, s.curr = some c → c < s.threads.length)
    (ok : threadCandidate s = .ok thread) : 0 < s.threads.length := by
  by_contra not_pos
  have empty : s.threads = [] := List.eq_nil_of_length_eq_zero (by omega)
  have head : s.head = none := by rw [linked.head, empty]; rfl
  have none_ : s.curr = none := by
    cases eq : s.curr with
    | none => rfl
    | some c =>
      have := curr c eq
      omega
  simp [threadCandidate, none_, head, candidateLoop] at ok

theorem Orderly.of_threads (same : m'.state.threads = m.state.threads) : Orderly m m' := by
  have same : ∀ p, m'.state.status p = m.state.status p := fun p => by
    rw [State.status, State.status, same]
  exact ⟨fun p has => by rw [same, has], fun p has => Or.inl (by rw [← same, has])⟩

/-- A step that is not about `p`. -/
theorem Process.Entry.frame {status : Option Status} (entry : m.Entry p status)
    (count : m'.entered.count p = m.entered.count p) (ctx : m'.ctx p = m.ctx p)
    (returned : m'.returned p = m.returned p)
    (run : status = some .running → m'.state.curr = some p ∧ m'.point.busy = true) :
    m'.Entry p status := by
  cases status with
  | none => exact ⟨count.trans entry.1, ctx.trans entry.2⟩
  | some status =>
    cases status with
    | fresh => exact ⟨count.trans entry.1, ctx.trans entry.2⟩
    | running => exact ⟨(run rfl).1, (run rfl).2, count.trans_le entry.2.2⟩
    | sleeping =>
      obtain ⟨once, saved⟩ := entry
      exact ⟨count.trans once, returned.trans saved.returned, by rw [ctx]; exact saved.ctx⟩
    | terminated => exact count.trans entry

/-- Control moves and the threads stay as they are. -/
theorem Held.move (h : Held m) (busy : m.point.busy = true → q.busy = true)
    (armed : q.armed = true → b = true)
    (at_ : { m with pending := b, point := q }.At q) : Held { m with pending := b, point := q } := by
  refine ⟨h.curr, h.idle, fun p => (h.entry p).frame rfl rfl rfl fun running => ?_, armed, at_⟩
  have entry := h.entry p
  rw [show m.state.status p = some .running from running] at entry
  exact ⟨entry.1, busy entry.2.1⟩

theorem Held.at_point (h : Held m) (point : m.point = q) : m.At q := point ▸ h.at_

/-- A thread that executes its function has the turn. -/
theorem Held.inside (h : Held m) (function : m.point.function = some p)
    (outside : m.point.interruptible = true) : m.Inside p := by
  have at_ := h.at_
  cases point : m.point with
  | user r | create r | link r _ =>
    rw [point] at at_ function
    obtain rfl := Option.some.inj function
    exact at_
  | handler q => simp [point, Point.interruptible] at outside
  | _ => simp [point, Point.function] at function

/-- Only the current thread may be running. -/
theorem Held.running (h : Held m) (running : m.state.status r = some .running) :
    m.state.curr = some r ∧ m.point.busy = true := by
  have entry := h.entry r
  rw [running] at entry
  exact ⟨entry.1, entry.2.1⟩

/-- An assignment to the status of the current thread. -/
theorem Held.assign (h : Held m) (curr : m.state.curr = some p) {ctx : Nat → Option Point}
    {returned : Nat → Bool} (frame : ∀ r, r ≠ p → ctx r = m.ctx r ∧ returned r = m.returned r)
    (armed : q.armed = true → b = true)
    (entry : (⟨m.state.setStatus p status, ctx, returned, b, q, m.entered⟩ : Process).Entry p
      (some status))
    (at_ : (⟨m.state.setStatus p status, ctx, returned, b, q, m.entered⟩ : Process).At q) :
    Held ⟨m.state.setStatus p status, ctx, returned, b, q, m.entered⟩ := by
  have lt := h.curr p curr
  refine ⟨fun c eq => by simpa using h.curr c eq, ?_, fun r => ?_, armed, at_⟩
  · simp [State.setStatus, curr]
  · simp only [status_setStatus lt]
    split_ifs with same
    · exact same ▸ entry
    · obtain ⟨ctx, returned⟩ := frame r same
      refine (h.entry r).frame rfl ctx returned fun running => ?_
      have := (h.running running).1
      exact absurd (Option.some.inj (this.symm.trans curr)) same

theorem Orderly.assign (lt : p < m.state.threads.length) {old : Status}
    (has : m.state.status p = some old) (open_ : old ≠ .terminated)
    (sleep : status = .sleeping →
      old = .running ∧ (m.point.function = some p ∨ m.point = .yield p))
    (eq : m'.state = m.state.setStatus p status) : Orderly m m' := by
  have status_eq : ∀ r, m'.state.status r = if r = p then some status else m.state.status r :=
    fun r => by rw [eq, status_setStatus lt]
  constructor
  · intro r terminated
    rw [status_eq, if_neg, terminated]
    rintro rfl
    exact open_ (Option.some.inj (has.symm.trans terminated))
  · intro r sleeping
    rw [status_eq] at sleeping
    split_ifs at sleeping with same
    · subst same
      obtain ⟨rfl, here⟩ := sleep (Option.some.inj sleeping)
      exact Or.inr ⟨has, here⟩
    · exact Or.inl sleeping

/-- A turn goes on while the threads stay as they are. -/
theorem Process.Turn.move (turn : m.Turn p status n) :
    { m with pending := b, point := q }.Turn p status n :=
  ⟨turn.curr, turn.status, turn.count⟩

theorem Process.Turn.assign (turn : m.Turn p status n) (lt : p < m.state.threads.length)
    {new : Status} {ctx : Nat → Option Point} {returned : Nat → Bool} :
    (⟨m.state.setStatus p new, ctx, returned, b, q, m.entered⟩ : Process).Turn p new n :=
  ⟨turn.curr, by simp [status_setStatus lt], turn.count⟩

theorem Process.Saved.move (saved : m.Saved p) (ctx : m'.ctx = m.ctx)
    (returned : m'.returned = m.returned) : m'.Saved p :=
  ⟨by rw [returned]; exact saved.returned, by rw [ctx]; exact saved.ctx⟩

/-- What a step comes to. -/
structure Process.Step (m m' : Process) : Prop where
  held : Held m'
  orderly : Orderly m m'

theorem Held.step_move (h : Held m) (busy : m.point.busy = true → q.busy = true)
    (armed : q.armed = true → b = true)
    (at_ : { m with pending := b, point := q }.At q) : m.Step { m with pending := b, point := q } :=
  ⟨h.move busy armed at_, .of_threads rfl⟩

theorem Held.schedule (h : Held m) (point : m.point = .schedule) {a : Action}
    (ok : m.proceed a = .ok m') : m.Step m' := by
  have pending : m.pending = true := h.armed (by rw [point]; rfl)
  have start : ∀ ref, m.Step { m with point := .walk ref ref } := fun ref =>
    h.step_move (b := m.pending) (by simp [point, Point.busy]) (fun _ => pending) trivial
  simp only [Process.proceed, point] at ok
  cases curr : m.state.curr with
  | none =>
    simp only [curr, Except.ok.injEq] at ok
    exact ok ▸ start _
  | some c =>
    cases mem : m.state.threads[c]? with
    | none => simp [curr, mem] at ok
    | some t =>
      simp only [curr, mem, Except.ok.injEq] at ok
      exact ok ▸ start _

theorem Held.walk (h : Held m) {ref current : Option Nat} (point : m.point = .walk ref current)
    {a : Action} (ok : m.proceed a = .ok m') : m.Step m' := by
  have pending : m.pending = true := h.armed (by rw [point]; rfl)
  have move : ∀ q : Point, { m with pending := m.pending, point := q }.At q →
      m.Step { m with pending := m.pending, point := q } := fun q at_ =>
    h.step_move (by simp [point, Point.busy]) (fun _ => pending) at_
  simp only [Process.proceed, point] at ok
  cases at_ : current.or m.state.head with
  | none => simp [at_] at ok
  | some p =>
    cases mem : m.state.threads[p]? with
    | none => simp [at_, mem] at ok
    | some t =>
      simp only [at_, mem] at ok
      split_ifs at ok with waits last
      · rw [← Except.ok.inj ok]
        have status : m.state.status p = some t.status := by rw [State.status, mem]; rfl
        exact move _ (waits.imp (fun fresh => status.trans (congrArg some fresh))
          fun sleeping => status.trans (congrArg some sleeping))
      · exact Except.ok.inj ok ▸ move _ trivial
      · exact Except.ok.inj ok ▸ move _ trivial

theorem Held.candidate (h : Held m) (point : m.point = .candidate thread) {a : Action}
    (ok : m.proceed a = .ok m') : m.Step m' := by
  have pending : m.pending = true := h.armed (by rw [point]; rfl)
  cases thread with
  | none =>
    simp only [Process.proceed, point, Except.ok.injEq] at ok
    exact ok ▸ h.step_move (b := m.pending) (by simp [point, Point.busy]) (fun _ => pending) trivial
  | some p =>
    have waits : m.state.Waits p := h.at_point point
    simp only [Process.proceed, point, Except.ok.injEq] at ok
    subst ok
    refine ⟨⟨?_, by simp, fun r => ?_, fun _ => pending, ⟨p, rfl, waits⟩⟩, .of_threads rfl⟩
    · intro c same
      obtain rfl := Option.some.inj same
      exact waits.elim status_lt status_lt
    · refine (h.entry r).frame rfl rfl rfl fun running => ?_
      have := (h.running running).2
      simp [point, Point.busy] at this

/-- A statement that assigns a status to the current thread. -/
theorem Held.step_assign (h : Held m) {old : Status} (turn : m.Turn p old n)
    (open_ : old ≠ .terminated)
    (sleep : status = .sleeping →
      old = .running ∧ (m.point.function = some p ∨ m.point = .yield p))
    (armed : q.armed = true → m.pending = true)
    (entry : (⟨m.state.setStatus p status, m.ctx, m.returned, m.pending, q, m.entered⟩ :
      Process).Entry p (some status))
    (at_ : (⟨m.state.setStatus p status, m.ctx, m.returned, m.pending, q, m.entered⟩ :
      Process).At q)
    (ok : m.setStatus status q = .ok m') : m.Step m' := by
  rw [setStatus_of_curr turn.curr] at ok
  rw [← Except.ok.inj ok]
  exact ⟨h.assign turn.curr (fun _ _ => ⟨rfl, rfl⟩) armed entry at_,
    .assign (h.curr p turn.curr) turn.status open_ sleep rfl⟩

theorem Held.test (h : Held m) (point : m.point = .test) {a : Action}
    (ok : m.proceed a = .ok m') : m.Step m' := by
  have pending : m.pending = true := h.armed (by rw [point]; rfl)
  obtain ⟨p, curr, waits⟩ : ∃ p, m.state.curr = some p ∧ m.state.Waits p := h.at_point point
  have entry := h.entry p
  rcases waits with fresh | sleeping
  · rw [fresh] at entry
    simp only [Process.proceed, point, curr, Option.bind_some, fresh, if_true, Except.ok.injEq] at ok
    subst ok
    exact h.step_move (b := m.pending) (by simp [point, Point.busy]) (fun _ => pending)
      ⟨p, ⟨curr, fresh, entry.1⟩, entry.2⟩
  · rw [sleeping] at entry
    simp only [Process.proceed, point, curr, Option.bind_some, sleeping, reduceCtorEq, if_true,
      if_false, Except.ok.injEq] at ok
    subst ok
    exact h.step_move (b := m.pending) (by simp [point, Point.busy]) (fun _ => pending)
      ⟨p, curr, sleeping, entry.1⟩

theorem Held.start (h : Held m) (point : m.point = .start) {a : Action}
    (ok : m.proceed a = .ok m') : m.Step m' := by
  have pending : m.pending = true := h.armed (by rw [point]; rfl)
  obtain ⟨p, turn, blank⟩ : ∃ p, m.Turn p .fresh 0 ∧ m.ctx p = none := h.at_point point
  have lt := h.curr p turn.curr
  simp only [Process.proceed, point] at ok
  refine h.step_assign turn (by simp) (by simp) (fun _ => pending) ?_ ?_ ok
  · exact ⟨turn.curr, rfl, turn.count.trans_le (Nat.zero_le 1)⟩
  · exact ⟨p, turn.assign lt, blank⟩

theorem Held.wake (h : Held m) (point : m.point = .wake) {a : Action}
    (ok : m.proceed a = .ok m') : m.Step m' := by
  have pending : m.pending = true := h.armed (by rw [point]; rfl)
  obtain ⟨p, turn⟩ : ∃ p, m.Turn p .sleeping 1 := h.at_point point
  have lt := h.curr p turn.curr
  have entry := h.entry p
  rw [turn.status] at entry
  simp only [Process.proceed, point] at ok
  refine h.step_assign turn (by simp) (by simp) (fun _ => pending) ?_ ?_ ok
  · exact ⟨turn.curr, rfl, turn.count.le⟩
  · exact ⟨p, turn.assign lt, entry.2.move rfl rfl⟩

theorem Held.finish (h : Held m) (point : m.point = .finish) {a : Action}
    (ok : m.proceed a = .ok m') : m.Step m' := by
  obtain ⟨p, turn⟩ : ∃ p, m.Turn p .running 1 := h.at_point point
  simp only [Process.proceed, point] at ok
  refine h.step_assign turn (by simp) (by simp) (by simp [Point.armed]) ?_ ?_ ok
  · exact turn.count
  · exact trivial

theorem Held.stack (h : Held m) (point : m.point = .stack) {a : Action}
    (ok : m.proceed a = .ok m') : m.Step m' := by
  have pending : m.pending = true := h.armed (by rw [point]; rfl)
  obtain ⟨p, turn, blank⟩ : ∃ p, m.Turn p .running 0 ∧ m.ctx p = none := h.at_point point
  simp only [Process.proceed, point, Except.ok.injEq] at ok
  subst ok
  exact h.step_move (b := m.pending) (fun _ => rfl) (fun _ => pending) ⟨p, turn.move, blank⟩

theorem Held.call (h : Held m) (point : m.point = .call) {a : Action}
    (ok : m.proceed a = .ok m') : m.Step m' := by
  have pending : m.pending = true := h.armed (by rw [point]; rfl)
  obtain ⟨p, turn, blank⟩ : ∃ p, m.Turn p .running 0 ∧ m.ctx p = none := h.at_point point
  simp only [Process.proceed, point, turn.curr, Except.ok.injEq] at ok
  subst ok
  have count : (m.entered ++ [p]).count p = 1 := by
    rw [List.count_append, turn.count, List.count_singleton_self]
  refine ⟨⟨h.curr, h.idle, fun r => ?_, by simp [Point.armed],
    ⟨⟨turn.curr, turn.status, count⟩, ?_⟩⟩, .of_threads rfl⟩
  · by_cases same : r = p
    · subst same
      rw [show m.state.status r = some .running from turn.status]
      exact ⟨turn.curr, rfl, count.le⟩
    · refine (h.entry r).frame ?_ rfl rfl fun running => ⟨(h.running running).1, rfl⟩
      simp [List.count_append, Ne.symm same]
  · simp [Process.preempted, blank, pending]

/-- A thread is resumed once by each context. -/
theorem Held.jump (h : Held m) (point : m.point = .jump) :
    ∃ m', (∀ a, m.proceed a = .ok m') ∧ m.Step m' ∧ m'.state = m.state ∧ m'.Walks m'.point := by
  have pending : m.pending = true := h.armed (by rw [point]; rfl)
  obtain ⟨p, turn, saved⟩ : ∃ p, m.Turn p .running 1 ∧ m.Saved p := h.at_point point
  have entries : ∀ q : Point, q.busy = true → ∀ r,
      ({ m with returned := Function.update m.returned p true, point := q } : Process).Entry r
        (m.state.status r) := by
    intro q busy r
    by_cases same : r = p
    · subst same
      rw [turn.status]
      exact ⟨turn.curr, busy, turn.count.le⟩
    · refine (h.entry r).frame rfl rfl (Function.update_of_ne same _ _) fun running => ?_
      exact ⟨(h.running running).1, busy⟩
  have turn' : ∀ q, ({ m with returned := Function.update m.returned p true, point := q } :
      Process).Turn p .running 1 := fun q => ⟨turn.curr, turn.status, turn.count⟩
  rcases saved.ctx with ctx | ⟨q, function, outside, ctx⟩
  · refine ⟨{ m with returned := Function.update m.returned p true, point := .user p },
      fun a => ?_, ⟨⟨h.curr, h.idle, entries (.user p) rfl, by simp [Point.armed], turn' _, ?_⟩,
      .of_threads rfl⟩, rfl, trivial⟩
    · simp only [Process.proceed, point, turn.curr, ctx, saved.returned, Point.ownStack,
        Bool.not_false, Bool.and_self, if_true]
    · simp [Process.preempted, ctx, pending]
  · have own : (Point.handler q).ownStack = true := by
      cases q with
      | user | create | link => rfl
      | handler => cases outside
      | _ => cases function
    refine ⟨{ m with returned := Function.update m.returned p true, point := .handler q },
      fun a => ?_, ⟨⟨h.curr, h.idle, entries (.handler q) rfl, by simp [Point.armed],
      ⟨p, function, outside, turn' _, ?_⟩⟩, .of_threads rfl⟩, rfl, trivial⟩
    · simp only [Process.proceed, point, turn.curr, ctx, saved.returned, own,
        Bool.not_false, Bool.and_self, if_true]
    · simp [Process.preempted, ctx]

/-- The handler goes back to the thread without an alarm. -/
theorem Held.handler (h : Held m) (point : m.point = .handler q) {a : Action}
    (ok : m.proceed a = .ok m') : m.Step m' := by
  obtain ⟨p, function, outside, turn, preempted⟩ : ∃ p, q.function = some p ∧
      q.interruptible = true ∧ m.Turn p .running 1 ∧ m.preempted p = true := h.at_point point
  simp only [Process.proceed, point, Except.ok.injEq] at ok
  subst ok
  have inside : ({ m with pending := false, point := q } : Process).Inside p := by
    refine ⟨turn.move, ?_⟩
    rw [show ({ m with pending := false, point := q } : Process).preempted p = m.preempted p
      from rfl, preempted]
    rfl
  cases q with
  | user r | create r | link r _ =>
    obtain rfl := Option.some.inj function
    exact h.step_move (b := false) (fun _ => rfl) (by simp [Point.armed]) inside
  | handler => cases outside
  | _ => cases function

/-- A thread is suspended in its function by the handler. -/
theorem Held.suspend (h : Held m) (function : m.point.function = some p)
    (outside : m.point.interruptible = true) :
    ∃ m', signalHandler m = .ok m' ∧ m.Step m' ∧ m'.point = .signal ∧
      m'.state = m.state.setStatus p .sleeping := by
  obtain ⟨turn, _⟩ := h.inside function outside
  have lt := h.curr p turn.curr
  refine ⟨_, signalHandler_of_curr turn.curr, ⟨h.assign turn.curr (fun r ne => ?_) ?_ ?_ trivial,
    .assign lt turn.status (by simp) (fun _ => ⟨rfl, Or.inl function⟩) rfl⟩, rfl, rfl⟩
  · exact ⟨Function.update_of_ne ne _ _, Function.update_of_ne ne _ _⟩
  · simp [Point.armed]
  · exact ⟨turn.count, by simp, Or.inr ⟨m.point, function, outside, by simp⟩⟩

/-- `setjmp` in `scheduler_yield`. -/
theorem Held.save (h : Held m) (point : m.point = .user p)
    (ok : m.save (.user p) (.yield p) = .ok m') : m.Step m' := by
  obtain ⟨turn, _⟩ : m.Inside p := h.at_point point
  rw [save_of_curr turn.curr] at ok
  rw [← Except.ok.inj ok]
  refine ⟨⟨h.curr, h.idle, fun r => ?_, by simp [Point.armed], ⟨turn.curr, turn.status, turn.count⟩,
    by simp, Or.inl (by simp)⟩, .of_threads rfl⟩
  by_cases same : r = p
  · subst same
    rw [show m.state.status r = some .running from turn.status]
    exact ⟨turn.curr, rfl, turn.count.le⟩
  · exact (h.entry r).frame rfl (Function.update_of_ne same _ _) (Function.update_of_ne same _ _)
      fun running => ⟨(h.running running).1, rfl⟩

theorem Held.user (h : Held m) (point : m.point = .user p) {a : Action}
    (ok : m.proceed a = .ok m') : m.Step m' := by
  have inside : m.Inside p := h.at_point point
  cases a with
  | create =>
    simp only [Process.proceed, point, Except.ok.injEq] at ok
    exact ok ▸ h.step_move (b := m.pending) (fun _ => rfl) (by simp [Point.armed])
      ⟨inside.turn.move, inside.pending⟩
  | yield =>
    simp only [Process.proceed, point] at ok
    exact h.save point ok
  | exit =>
    simp only [Process.proceed, point, Except.ok.injEq] at ok
    exact ok ▸ h.step_move (b := m.pending) (fun _ => rfl) (by simp [Point.armed])
      ⟨p, inside.turn.move⟩

/-- `state.head = new_thread`: the new thread is fresh and no other changes. -/
theorem Held.link (h : Held m) {next : Option Nat} (point : m.point = .link p next) :
    m.Step { m with state := m.state.push next, point := .user p } := by
  obtain ⟨turn, pending⟩ : m.Inside p := h.at_point point
  have lt := h.curr p turn.curr
  have old : ∀ r, r ≠ m.state.threads.length →
      (m.state.push next).status r = m.state.status r := fun r ne => by
    rw [status_push, if_neg ne]
  have new : (m.state.push next).status m.state.threads.length = some .fresh := by
    rw [status_push, if_pos rfl]
  constructor
  · refine ⟨fun c eq => ?_, fun none_ => ?_, fun r => ?_, by simp [Point.armed],
      ⟨turn.curr, (old p (Nat.ne_of_lt lt)).trans turn.status, turn.count⟩, pending⟩
    · exact Nat.lt_of_lt_of_eq (Nat.lt_succ_of_lt (h.curr c eq)) length_push.symm
    · exact absurd (turn.curr.symm.trans none_) (by simp)
    · by_cases same : r = m.state.threads.length
      · subst same
        have entry := h.entry m.state.threads.length
        rw [State.status, List.getElem?_eq_none le_rfl] at entry
        rw [show (m.state.push next).status m.state.threads.length = some .fresh from new]
        exact entry
      · rw [show (m.state.push next).status r = m.state.status r from old r same]
        exact (h.entry r).frame rfl rfl rfl fun running => ⟨(h.running running).1, rfl⟩
  · constructor
    · intro r has
      exact (old r (Nat.ne_of_lt (status_lt has))).trans has
    · intro r has
      by_cases same : r = m.state.threads.length
      · subst same
        simp [new] at has
      · exact Or.inl ((old r same).symm.trans has)

theorem Held.proceed (h : Held m) {a : Action} (ok : m.proceed a = .ok m') : m.Step m' := by
  have idle : ∀ q b, m.point.busy = false → (q.armed = true → b = true) →
      { m with pending := b, point := q }.At q → m.Step { m with pending := b, point := q } :=
    fun q b not_busy armed at_ => h.step_move (by simp [not_busy]) armed at_
  cases point : m.point with
  | setjmp =>
    simp only [Process.proceed, point, Except.ok.injEq] at ok
    exact ok ▸ idle .signal m.pending (by rw [point]; rfl) (by simp [Point.armed]) trivial
  | signal =>
    simp only [Process.proceed, point, Except.ok.injEq] at ok
    exact ok ▸ idle .alarm m.pending (by rw [point]; rfl) (by simp [Point.armed]) trivial
  | alarm =>
    simp only [Process.proceed, point, Except.ok.injEq] at ok
    exact ok ▸ idle .schedule true (by rw [point]; rfl) (fun _ => rfl) trivial
  | schedule => exact h.schedule point ok
  | walk ref current => exact h.walk point ok
  | candidate thread => exact h.candidate point ok
  | test => exact h.test point ok
  | start => exact h.start point ok
  | stack => exact h.stack point ok
  | call => exact h.call point ok
  | user p => exact h.user point ok
  | create p =>
    have inside : m.Inside p := h.at_point point
    simp only [Process.proceed, point, Except.ok.injEq] at ok
    exact ok ▸ h.step_move (b := m.pending) (fun _ => rfl) (by simp [Point.armed])
      ⟨inside.turn.move, inside.pending⟩
  | link p next =>
    simp only [Process.proceed, point, Except.ok.injEq] at ok
    exact ok ▸ h.link point
  | yield p =>
    obtain ⟨turn, saved⟩ : m.Turn p .running 1 ∧ m.Saved p := h.at_point point
    simp only [Process.proceed, point] at ok
    refine h.step_assign turn (by simp) (fun _ => ⟨rfl, Or.inr point⟩) (by simp [Point.armed])
      ?_ ?_ ok
    · exact ⟨turn.count, saved.move rfl rfl⟩
    · exact trivial
  | asleep p =>
    simp only [Process.proceed, point, Except.ok.injEq] at ok
    exact ok ▸ idle .signal m.pending (by rw [point]; rfl) (by simp [Point.armed]) trivial
  | finish => exact h.finish point ok
  | leave =>
    simp only [Process.proceed, point, Except.ok.injEq] at ok
    exact ok ▸ idle .signal m.pending (by rw [point]; rfl) (by simp [Point.armed]) trivial
  | wake => exact h.wake point ok
  | jump =>
    obtain ⟨m₁, runs, step, _⟩ := h.jump point
    exact Except.ok.inj ((runs a).symm.trans ok) ▸ step
  | handler q => exact h.handler point ok
  | destroy =>
    simp only [Process.proceed, point, Except.ok.injEq] at ok
    exact ok ▸ ⟨h, .of_threads rfl⟩

theorem Held.next (h : Held m) (inside : c = .deliver → m.pending = true →
      m.point.interruptible = true → ∃ p, m.point.function = some p)
    (ok : m.next c = .ok m') : m.Step m' := by
  cases c with
  | proceed a => exact h.proceed ok
  | deliver =>
    simp only [Process.next, Bool.and_eq_true] at ok
    split_ifs at ok with delivered
    · obtain ⟨p, function⟩ := inside rfl delivered.1 delivered.2
      obtain ⟨m₁, runs, step, _⟩ := h.suspend function delivered.2
      exact Except.ok.inj (runs.symm.trans ok) ▸ step
    · exact Except.ok.inj ok ▸ ⟨h, .of_threads rfl⟩

theorem State.Linked.of_same {s' : State} (h : s.Linked) (threads : s'.threads = s.threads)
    (head : s'.head = s.head) : s'.Linked := by
  refine ⟨fun p t mem => h.next p t (threads ▸ mem), ?_⟩
  rw [head, threads]
  exact h.head

/-- An assignment of a status keeps the list, and is no part of the walk. -/
theorem Listed.assign (l : Listed m) (ok : m.setStatus status q = .ok m')
    (walks : ∀ m' : Process, m'.Walks q) : Listed m' := by
  cases curr : m.state.curr with
  | none => simp [Process.setStatus, curr] at ok
  | some c =>
    rw [setStatus_of_curr curr] at ok
    exact Except.ok.inj ok ▸ ⟨l.linked.setStatus, walks _⟩

theorem Listed.walk (l : Listed m) (h : Held m) {ref current : Option Nat}
    (point : m.point = .walk ref current) {a : Action} (ok : m.proceed a = .ok m') : Listed m' := by
  have walks := l.walks
  rw [point] at walks
  obtain ⟨fuel, loop⟩ := walks
  simp only [Process.proceed, point] at ok
  cases at_ : current.or m.state.head with
  | none => simp [at_] at ok
  | some p =>
    cases mem : m.state.threads[p]? with
    | none => simp [at_, mem] at ok
    | some t =>
      have pos : 0 < m.state.threads.length :=
        Nat.lt_of_le_of_lt (Nat.zero_le p) (List.getElem?_eq_some_iff.mp mem).1
      cases fuel with
      | zero => exact absurd (loop.trans (l.finds h pos)) (by simp [candidateLoop])
      | succ fuel =>
        simp only [candidateLoop, at_, mem] at loop ok
        split_ifs at loop ok with waits last
        · exact Except.ok.inj ok ▸ ⟨l.linked, loop.symm⟩
        · exact Except.ok.inj ok ▸ ⟨l.linked, loop.symm⟩
        · exact Except.ok.inj ok ▸ ⟨l.linked, fuel, loop⟩

/-- Where the walk finds nobody all threads have terminated. -/
theorem Listed.candidate (l : Listed m) (h : Held m) (point : m.point = .candidate thread)
    {a : Action} (ok : m.proceed a = .ok m') : Listed m' := by
  have found := l.walks
  rw [point] at found
  have pos := threadCandidate_pos l.linked h.curr found
  cases thread with
  | none =>
    simp only [Process.proceed, point, Except.ok.injEq] at ok
    refine ok ▸ ⟨l.linked, fun p status has => ?_⟩
    have none_ : ¬ m.state.Waits p := (l.finds h pos).none_waits l.linked found
    have entry := h.entry p
    rw [show m.state.status p = some status from has] at entry
    cases status with
    | fresh => exact absurd (Or.inl has) none_
    | running => simp [Process.Entry, point, Point.busy] at entry
    | sleeping => exact absurd (Or.inr has) none_
    | terminated => rfl
  | some p =>
    simp only [Process.proceed, point, Except.ok.injEq] at ok
    exact ok ▸ ⟨l.linked.of_same rfl rfl, trivial⟩

theorem Listed.proceed (l : Listed m) (h : Held m) {a : Action}
    (keeps : ∀ p next, m.point = .link p next → next = m.state.head)
    (ok : m.proceed a = .ok m') : Listed m' := by
  cases point : m.point with
  | walk ref current => exact l.walk h point ok
  | candidate thread => exact l.candidate h point ok
  | schedule =>
    simp only [Process.proceed, point] at ok
    cases curr : m.state.curr with
    | none =>
      simp only [curr, Except.ok.injEq] at ok
      refine ok ▸ ⟨l.linked, m.state.threads.length + 1, ?_⟩
      simp only [threadCandidate, curr]
    | some c =>
      cases mem : m.state.threads[c]? with
      | none => simp [curr, mem] at ok
      | some t =>
        simp only [curr, mem, Except.ok.injEq] at ok
        refine ok ▸ ⟨l.linked, m.state.threads.length + 1, ?_⟩
        simp only [threadCandidate, curr, mem]
  | test =>
    obtain ⟨p, curr, waits⟩ : ∃ p, m.state.curr = some p ∧ m.state.Waits p := h.at_point point
    simp only [Process.proceed, point, curr, Option.bind_some] at ok
    rcases waits with has | has
    · simp only [has, if_true, Except.ok.injEq] at ok
      exact ok ▸ ⟨l.linked, trivial⟩
    · simp only [has, reduceCtorEq, if_true, if_false, Except.ok.injEq] at ok
      exact ok ▸ ⟨l.linked, trivial⟩
  | start | yield _ | finish | wake =>
    simp only [Process.proceed, point] at ok
    exact l.assign ok fun _ => trivial
  | call =>
    simp only [Process.proceed, point] at ok
    cases curr : m.state.curr with
    | none => simp [curr] at ok
    | some p =>
      simp only [curr, Except.ok.injEq] at ok
      exact ok ▸ ⟨l.linked, trivial⟩
  | user p =>
    cases a with
    | create | exit =>
      simp only [Process.proceed, point, Except.ok.injEq] at ok
      exact ok ▸ ⟨l.linked, trivial⟩
    | yield =>
      have inside : m.Inside p := h.at_point point
      simp only [Process.proceed, point, save_of_curr inside.turn.curr, Except.ok.injEq] at ok
      exact ok ▸ ⟨l.linked, trivial⟩
  | link p next =>
    simp only [Process.proceed, point, Except.ok.injEq] at ok
    obtain rfl := keeps p next point
    exact ok ▸ ⟨l.linked.schedulerCreate, trivial⟩
  | jump =>
    obtain ⟨m₁, runs, _, state, walks⟩ := h.jump point
    obtain rfl := Except.ok.inj ((runs a).symm.trans ok)
    exact ⟨state ▸ l.linked, walks⟩
  | handler q =>
    obtain ⟨p, function, outside, _⟩ : ∃ p, q.function = some p ∧
      q.interruptible = true ∧ m.Turn p .running 1 ∧ m.preempted p = true := h.at_point point
    simp only [Process.proceed, point, Except.ok.injEq] at ok
    refine ok ▸ ⟨l.linked, ?_⟩
    cases q with
    | user | create | link => trivial
    | handler => cases outside
    | _ => cases function
  | destroy =>
    simp only [Process.proceed, point, Except.ok.injEq] at ok
    exact ok ▸ l
  | setjmp | signal | alarm | stack | create _ | asleep _ | leave =>
    simp only [Process.proceed, point, Except.ok.injEq] at ok
    exact ok ▸ ⟨l.linked, trivial⟩

theorem Listed.next (l : Listed m) (h : Held m) (inside : c = .deliver → m.pending = true →
      m.point.interruptible = true → ∃ p, m.point.function = some p)
    (keeps : c ≠ .deliver → ∀ p next, m.point = .link p next → next = m.state.head)
    (ok : m.next c = .ok m') : Listed m' := by
  cases c with
  | proceed a => exact l.proceed h (keeps (by simp)) ok
  | deliver =>
    simp only [Process.next, Bool.and_eq_true] at ok
    split_ifs at ok with delivered
    · obtain ⟨p, function⟩ := inside rfl delivered.1 delivered.2
      obtain ⟨m₁, runs, _, point, state⟩ := h.suspend function delivered.2
      obtain rfl := Except.ok.inj (runs.symm.trans ok)
      exact ⟨state ▸ l.linked.setStatus, by rw [point]; trivial⟩
    · exact Except.ok.inj ok ▸ l

theorem held_boot (k : Nat) : Held (boot k) := by
  have idle := idle_start k
  have curr : (boot k).state.curr = none := idle.curr
  refine ⟨by simp [curr], fun _ p status has => (idle.fresh p status has).1,
    fun p => ?_, by simp [boot, Point.armed], trivial⟩
  cases has : (boot k).state.status p with
  | none => exact ⟨rfl, rfl⟩
  | some status =>
    obtain rfl := (idle.fresh p status has).1
    exact ⟨rfl, rfl⟩

theorem held_run (inside : InUserCode k cs) (ok : (boot k).run cs = .ok m) : Held m := by
  induction cs using List.reverseRecOn generalizing m with
  | nil => exact Except.ok.inj ok ▸ held_boot k
  | append_singleton cs c ih =>
    obtain ⟨m₁, before, last⟩ := run_concat.mp ok
    obtain ⟨inside, here⟩ := Library.steps_append.mp inside
    exact ((ih inside before).next (fun deliver => here deliver m₁ before) last).held

theorem listed_run (inside : InUserCode k cs) (keeps : KeepsHead k cs)
    (ok : (boot k).run cs = .ok m) : Listed m := by
  induction cs using List.reverseRecOn generalizing m with
  | nil => exact Except.ok.inj ok ▸ ⟨(idle_start k).linked, trivial⟩
  | append_singleton cs c ih =>
    obtain ⟨m₁, before, last⟩ := run_concat.mp ok
    obtain ⟨inside, here⟩ := Library.steps_append.mp inside
    obtain ⟨keeps, head⟩ := Library.steps_append.mp keeps
    exact (ih inside keeps before).next (held_run inside before)
      (fun deliver => here deliver m₁ before) (fun proceed => head proceed m₁ before) last

theorem Held.sound (h : Held m) (l : Listed m) : Sound m := by
  have point_turn : ∀ p, m.point.function = some p → m.Turn p .running 1 := by
    intro p function
    cases point : m.point with
    | handler q =>
      obtain ⟨r, inner, _, turn, _⟩ : ∃ p, q.function = some p ∧ q.interruptible = true ∧
        m.Turn p .running 1 ∧ m.preempted p = true := h.at_point point
      rw [point] at function
      obtain rfl := Option.some.inj (inner.symm.trans function)
      exact turn
    | _ => exact (h.inside function (by rw [point]; rfl)).turn
  refine ⟨fun p => ?_, fun p sleeping => ?_, fun p function => ?_, fun destroy p status has => ?_⟩
  · have entry := h.entry p
    cases has : m.state.status p with
    | none =>
      rw [has] at entry
      exact entry.1.trans_le (Nat.zero_le 1)
    | some status =>
      rw [has] at entry
      cases status with
      | fresh => exact entry.1.trans_le (Nat.zero_le 1)
      | running => exact entry.2.2
      | sleeping => exact entry.1.le
      | terminated => exact Nat.le_of_eq entry
  · have entry := h.entry p
    rw [sleeping] at entry
    obtain ⟨once, returned, saved⟩ := entry
    refine ⟨once, returned, ?_⟩
    rcases saved with saved | ⟨q, function, _, saved⟩
    · exact ⟨_, saved, rfl⟩
    · exact ⟨_, saved, function⟩
  · exact ⟨(point_turn p function).status, (point_turn p function).count⟩
  · have walks := l.walks
    rw [destroy] at walks
    obtain rfl := walks p status has
    have entry := h.entry p
    rw [has] at entry
    exact ⟨rfl, entry⟩

end

end OsProjects.Threads
