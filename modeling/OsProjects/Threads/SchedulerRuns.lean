import OsProjects.Threads.RunQueue

/-!
# Runs of the scheduler

What one step of the machine can do is said once, by `Moves`; the invariant of a run ties
the status of each thread to the events of its history. It follows that no run faults and
that control reaches `destroy` only when all threads have terminated.
-/
namespace OsProjects.Threads

/-- The thread of an event. -/
def Event.thread : Event → Nat
  | .create p => p
  | .enter p => p
  | .resume p => p
  | .yield p => p
  | .exit p => p

/-- The thread that gets a turn. -/
def Event.turn : Event → Option Nat
  | .enter p => some p
  | .resume p => some p
  | _ => none

/-- What the history tells of a thread with a status. -/
structure Tally (h : List Event) (p : Nat) (status : Status) : Prop where
  created : h.count (.create p) = 1
  entered : h.count (.enter p) = if status = .fresh then 0 else 1
  yielded : h.count (.yield p) = h.count (.resume p) + if status = .sleeping then 1 else 0
  exited : h.count (.exit p) = if status = .terminated then 1 else 0

structure Inv (m : Machine) : Prop where
  linked : m.state.Linked
  nonempty : 0 < m.state.threads.length
  tally : ∀ p status, m.state.status p = some status → Tally m.history p status
  known : ∀ e ∈ m.history, e.thread < m.state.threads.length
  curr : ∀ c, m.state.curr = some c → c < m.state.threads.length
  idle : m.state.curr = none → m.control = .scheduler ∧
    (∀ p status, m.state.status p = some status → status = .fresh) ∧ ∀ e ∈ m.history, e.turn = none
  running : ∀ p, m.state.status p = some .running → m.control = .thread ∧ m.state.curr = some p
  busy : m.control = .thread → ∃ p, m.state.curr = some p ∧ m.state.status p = some .running
  ended : m.control = .destroy → ∀ p status, m.state.status p = some status → status = .terminated

/-- The event of a turn, by the status of the thread. -/
def turnOf (p : Nat) : Status → Event
  | .fresh => .enter p
  | _ => .resume p

/-- The steps of a machine. -/
inductive Moves (m : Machine) : Machine → Prop where
  | turn (p : Nat) (status : Status) : m.control = .scheduler → Candidate m.state p →
      m.state.status p = some status → status = .fresh ∨ status = .sleeping →
      Moves m ⟨{ m.state with curr := some p }.setStatus p .running, .thread,
        m.history ++ [turnOf p status]⟩
  | finish : m.control = .scheduler → (∀ p, ¬ m.state.Waits p) →
      Moves m { m with control := .destroy }
  | act (p : Nat) (a : Action) : m.control = .thread → m.state.curr = some p →
      m.state.status p = some .running → Moves m (act m p a)
  | stay : m.control = .destroy → Moves m m

section
variable {m m' : Machine} {s : State} {h : List Event} {p q n : Nat} {status : Status} {e : Event}

theorem schedule_turn (ok : threadCandidate s = .ok (some p)) (has : s.status p = some status)
    (waits : status = .fresh ∨ status = .sleeping) :
    schedule s =
      .ok (some (turnOf p status, { s with curr := some p }.setStatus p .running)) := by
  obtain ⟨t, mem, rfl⟩ := Option.map_eq_some_iff.mp has
  rcases waits with fresh | sleeping
  · simp [schedule, ok, mem, fresh, turnOf]
  · simp [schedule, ok, mem, sleeping, turnOf]

theorem Inv.candidate (inv : Inv m) :
    (∃ p, threadCandidate m.state = .ok (some p) ∧ Candidate m.state p) ∨
      (∀ p, ¬ m.state.Waits p) ∧ threadCandidate m.state = .ok none := by
  cases curr : m.state.curr with
  | some c => exact threadCandidate_spec inv.linked curr (inv.curr c curr)
  | none =>
    -- before the first turn the head waits
    obtain ⟨n, length⟩ : ∃ n, m.state.threads.length = n + 1 :=
      Nat.exists_eq_succ_of_ne_zero (Nat.pos_iff_ne_zero.mp inv.nonempty)
    obtain ⟨status, has⟩ := exists_status (s := m.state) (p := n) (by omega)
    obtain rfl := (inv.idle curr).2.1 n status has
    obtain ⟨t, mem, fresh⟩ := Option.map_eq_some_iff.mp has
    refine Or.inl ⟨n, ?_, Or.inl has, fun c q same => ?_⟩
    · simp only [threadCandidate, curr, candidateLoop, inv.linked.head, length, below_succ,
        Option.or_some, Option.getD_some, mem, fresh, true_or, if_true]
    · simp [curr] at same

theorem step_moves (b : Behaviour) (inv : Inv m) : ∃ m', step b m = .ok m' ∧ Moves m m' := by
  cases control : m.control with
  | scheduler =>
    rcases inv.candidate with ⟨p, ok, candidate⟩ | ⟨none_, ok⟩
    · have found : ∃ status, m.state.status p = some status ∧
          (status = .fresh ∨ status = .sleeping) := by
        rcases candidate.waits with fresh | sleeping
        · exact ⟨_, fresh, Or.inl rfl⟩
        · exact ⟨_, sleeping, Or.inr rfl⟩
      obtain ⟨status, has, waits⟩ := found
      refine ⟨_, ?_, .turn p status control candidate has waits⟩
      simp only [step, control, schedule_turn ok has waits]
    · refine ⟨_, ?_, .finish control none_⟩
      simp only [step, control, schedule, ok]
  | thread =>
    obtain ⟨p, curr, has⟩ := inv.busy control
    refine ⟨_, ?_, .act p (b m.history) control curr has⟩
    simp only [step, control, curr]
  | destroy => exact ⟨m, by simp only [step, control], .stay control⟩

theorem Tally.other (tally : Tally h p status) (ne : e.thread ≠ p) : Tally (h ++ [e]) p status := by
  have out : ∀ f : Event, f.thread = p → (h ++ [e]).count f = h.count f := by
    intro f same
    rw [List.count_append, List.count_singleton, if_neg, Nat.add_zero]
    rw [beq_iff_eq]
    rintro rfl
    exact ne same
  obtain ⟨created, entered, yielded, exited⟩ := tally
  constructor
  · rw [out _ rfl, created]
  · rw [out _ rfl, entered]
  · rw [out _ rfl, out _ rfl, yielded]
  · rw [out _ rfl, exited]

theorem Tally.turn (tally : Tally h p status) (waits : status = .fresh ∨ status = .sleeping) :
    Tally (h ++ [turnOf p status]) p .running := by
  obtain ⟨created, entered, yielded, exited⟩ := tally
  rcases waits with rfl | rfl
  · constructor <;> simp_all [turnOf]
  · constructor <;> simp_all [turnOf]

theorem Tally.yield (tally : Tally h p .running) : Tally (h ++ [.yield p]) p .sleeping := by
  obtain ⟨created, entered, yielded, exited⟩ := tally
  constructor <;> simp_all

theorem Tally.exit (tally : Tally h p .running) : Tally (h ++ [.exit p]) p .terminated := by
  obtain ⟨created, entered, yielded, exited⟩ := tally
  constructor <;> simp_all

theorem tally_create (known : ∀ e ∈ h, e.thread < n) : Tally (h ++ [.create n]) n .fresh := by
  have out : ∀ f : Event, f.thread = n → h.count f = 0 := fun f same =>
    List.count_eq_zero.mpr fun mem => Nat.ne_of_lt (known f mem) same
  constructor <;> simp [out (.create n) rfl, out (.enter n) rfl, out (.resume n) rfl,
    out (.yield n) rfl, out (.exit n) rfl]

theorem turnOf_thread : (turnOf p status).thread = p := by
  cases status <;> rfl

theorem turnOf_turn : (turnOf p status).turn = some p := by
  cases status <;> rfl

/-- A change of the status of one thread. -/
theorem tally_setStatus (tally : ∀ q status, s.status q = some status → Tally h q status)
    (lt : p < s.threads.length) (same : e.thread = p)
    (here : Tally (h ++ [e]) p status) :
    ∀ q status', (s.setStatus p status).status q = some status' → Tally (h ++ [e]) q status' := by
  intro q status' has
  rw [status_setStatus lt] at has
  split_ifs at has with eq
  · subst eq
    obtain rfl := Option.some.inj has
    exact here
  · refine (tally q status' has).other ?_
    rw [same]
    exact fun eq' => eq eq'.symm

theorem known_concat (known : ∀ e ∈ h, e.thread < n) (lt : e.thread < n) :
    ∀ f ∈ h ++ [e], f.thread < n := by
  intro f mem
  rcases List.mem_append.mp mem with mem | mem
  · exact known f mem
  · rw [List.mem_singleton.mp mem]
    exact lt

theorem Inv.turn (inv : Inv m) (control : m.control = .scheduler) (has : m.state.status p = some status)
    (waits : status = .fresh ∨ status = .sleeping) :
    Inv ⟨{ m.state with curr := some p }.setStatus p .running, .thread,
      m.history ++ [turnOf p status]⟩ := by
  have lt : p < m.state.threads.length := status_lt has
  have linked : ({ m.state with curr := some p } : State).Linked :=
    ⟨inv.linked.next, inv.linked.head⟩
  have status_eq : ∀ q, ({ m.state with curr := some p }.setStatus p .running).status q =
      if q = p then some .running else m.state.status q := fun q => status_setStatus lt
  constructor
  case linked => exact linked.setStatus
  case nonempty => simpa using inv.nonempty
  case tally =>
    exact tally_setStatus inv.tally lt turnOf_thread ((inv.tally p status has).turn waits)
  case known =>
    simp only [length_setStatus]
    exact known_concat inv.known (by rw [turnOf_thread]; exact lt)
  case curr =>
    rintro c same
    obtain rfl := Option.some.inj same
    simpa using lt
  case idle => simp [State.setStatus]
  case running =>
    intro q run
    rw [status_eq] at run
    split_ifs at run with same
    · exact ⟨rfl, by rw [same]; rfl⟩
    · have := (inv.running q run).1
      simp [control] at this
  case busy => exact fun _ => ⟨p, rfl, by simp [status_eq]⟩
  case ended => simp

theorem Inv.finish (inv : Inv m) (control : m.control = .scheduler)
    (none_ : ∀ p, ¬ m.state.Waits p) : Inv { m with control := .destroy } := by
  have terminated : ∀ p status, m.state.status p = some status → status = .terminated := by
    intro p status has
    cases status with
    | fresh => exact absurd (Or.inl has) (none_ p)
    | running =>
      have := (inv.running p has).1
      simp [control] at this
    | sleeping => exact absurd (Or.inr has) (none_ p)
    | terminated => rfl
  constructor
  case linked => exact inv.linked
  case nonempty => exact inv.nonempty
  case tally => exact inv.tally
  case known => exact inv.known
  case curr => exact inv.curr
  case idle =>
    intro curr
    obtain ⟨status, has⟩ := exists_status inv.nonempty
    obtain rfl := terminated 0 status has
    have := (inv.idle curr).2.1 0 _ has
    simp at this
  case running =>
    intro p run
    have := terminated p _ run
    simp at this
  case busy => simp
  case ended => exact fun _ => terminated

theorem Inv.switch (inv : Inv m) (curr : m.state.curr = some p)
    (lt : p < m.state.threads.length) (same : e.thread = p) (still : status ≠ .running)
    (here : Tally (m.history ++ [e]) p status) :
    Inv ⟨m.state.setStatus p status, .scheduler, m.history ++ [e]⟩ := by
  constructor
  case linked => exact inv.linked.setStatus
  case nonempty => simpa using inv.nonempty
  case tally => exact tally_setStatus inv.tally lt same here
  case known =>
    simp only [length_setStatus]
    exact known_concat inv.known (by rw [same]; exact lt)
  case curr => simpa [State.setStatus] using inv.curr
  case idle => simp [State.setStatus, curr]
  case running =>
    intro q run
    rw [status_setStatus lt] at run
    split_ifs at run with eq
    · exact absurd (Option.some.inj run) still
    · have := (inv.running q run).2
      rw [curr] at this
      exact absurd (Option.some.inj this).symm eq
  case busy => simp
  case ended => simp

theorem Inv.create (inv : Inv m) (control : m.control = .thread) :
    Inv ⟨schedulerCreate m.state, .thread, m.history ++ [.create m.state.threads.length]⟩ := by
  obtain ⟨p, curr, run⟩ := inv.busy control
  have lt := status_lt run
  constructor
  case linked => exact inv.linked.schedulerCreate
  case nonempty => simp
  case tally =>
    intro q status has
    rw [status_schedulerCreate] at has
    split_ifs at has with eq
    · subst eq
      obtain rfl := Option.some.inj has
      exact tally_create inv.known
    · exact (inv.tally q status has).other fun same => eq same.symm
  case known =>
    simp only [length_schedulerCreate]
    exact known_concat (fun e mem => Nat.lt_succ_of_lt (inv.known e mem)) (Nat.lt_succ_self _)
  case curr =>
    intro c same
    rw [length_schedulerCreate]
    exact Nat.lt_succ_of_lt (inv.curr c same)
  case idle =>
    intro none_
    rw [show (schedulerCreate m.state).curr = m.state.curr from rfl, curr] at none_
    cases none_
  case running =>
    intro q has
    rw [status_schedulerCreate] at has
    split_ifs at has
    · cases has
    · exact ⟨rfl, (inv.running q has).2⟩
  case busy =>
    refine fun _ => ⟨p, curr, ?_⟩
    rw [status_schedulerCreate, if_neg (Nat.ne_of_lt lt), run]
  case ended => simp

theorem Inv.moves (inv : Inv m) (moves : Moves m m') : Inv m' := by
  cases moves with
  | turn p status control candidate has waits => exact inv.turn control has waits
  | finish control none_ => exact inv.finish control none_
  | act p a control curr run =>
    have tally := inv.tally p _ run
    cases a with
    | create => exact inv.create control
    | yield => exact inv.switch curr (status_lt run) rfl (by simp) tally.yield
    | exit => exact inv.switch curr (status_lt run) rfl (by simp) tally.exit
  | stay control => exact inv

/-- Before the run all threads are fresh and none had a turn. -/
structure Idle (k : Nat) (m : Machine) : Prop where
  linked : m.state.Linked
  length : m.state.threads.length = k
  curr : m.state.curr = none
  control : m.control = .scheduler
  fresh : ∀ p status, m.state.status p = some status → status = .fresh ∧ Tally m.history p status
  known : ∀ e ∈ m.history, e.thread < k ∧ e.turn = none

theorem idle_start (k : Nat) : Idle k (start k) := by
  induction k with
  | zero =>
    exact ⟨⟨by simp [start], rfl⟩, rfl, rfl, rfl, by simp [start, State.status], by simp [start]⟩
  | succ k ih =>
    constructor
    case linked => exact ih.linked.schedulerCreate
    case length => simp [start, ih.length]
    case curr => exact ih.curr
    case control => rfl
    case fresh =>
      intro p status has
      simp only [start, status_schedulerCreate] at has ⊢
      split_ifs at has with eq
      · subst eq
        obtain rfl := Option.some.inj has
        refine ⟨rfl, tally_create fun e mem => ?_⟩
        rw [ih.length]
        exact (ih.known e mem).1
      · obtain ⟨fresh, tally⟩ := ih.fresh p status has
        exact ⟨fresh, tally.other fun same => eq same.symm⟩
    case known =>
      intro e mem
      simp only [start, ih.length, List.mem_append, List.mem_singleton] at mem
      rcases mem with mem | rfl
      · exact ⟨Nat.lt_succ_of_lt (ih.known e mem).1, (ih.known e mem).2⟩
      · exact ⟨Nat.lt_succ_self k, rfl⟩

theorem Idle.inv {k : Nat} (idle : Idle k m) (pos : 0 < k) : Inv m := by
  constructor
  case linked => exact idle.linked
  case nonempty => rw [idle.length]; exact pos
  case tally => exact fun p status has => (idle.fresh p status has).2
  case known => rw [idle.length]; exact fun e mem => (idle.known e mem).1
  case curr => simp [idle.curr]
  case idle =>
    exact fun _ => ⟨idle.control, fun p status has => (idle.fresh p status has).1,
      fun e mem => (idle.known e mem).2⟩
  case running =>
    intro p run
    have := (idle.fresh p _ run).1
    cases this
  case busy => simp [idle.control]
  case ended => simp [idle.control]

end

end OsProjects.Threads
