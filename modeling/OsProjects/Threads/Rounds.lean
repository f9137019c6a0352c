import OsProjects.Threads.Candidate

/-!
# The schedule in rounds

Seen from outside the scheduler goes in rounds. A round takes the threads that have not finished when
it begins, from the one created last to the first, and gives each one turn; a thread created meanwhile
waits for the next round. The run queue and the walk over it do this event by event.
-/
namespace OsProjects.Threads

/-- Who has control. -/
inductive Turn where
  | scheduler
  | thread (p : Nat)
  | ended
  deriving DecidableEq, Repr

structure Rounds where
  /-- The threads of the round that are still to come. -/
  due : List Nat
  /-- The threads that have not finished, from the last one created on. -/
  alive : List Nat
  created : Nat
  turn : Turn
  history : List Event
  deriving DecidableEq, Repr

def Rounds.start (k : Nat) : Rounds :=
  ⟨[], (List.range k).reverse, k, .scheduler, (List.range k).map .create⟩

def Rounds.give (r : Rounds) (p : Nat) (due : List Nat) : Rounds :=
  { r with
    due := due
    turn := .thread p
    history := r.history ++ [if .enter p ∈ r.history then .resume p else .enter p] }

def Rounds.step (b : Behaviour) (r : Rounds) : Rounds :=
  match r.turn with
  | .scheduler =>
    match r.due with
    | p :: due => r.give p due
    | [] =>
      match r.alive with
      | p :: due => r.give p due
      | [] => { r with turn := .ended }
  | .thread p =>
    match b r.history with
    | .create =>
      { r with
        alive := r.created :: r.alive
        created := r.created + 1
        history := r.history ++ [.create r.created] }
    | .yield => { r with turn := .scheduler, history := r.history ++ [.yield p] }
    | .exit =>
      { r with
        alive := r.alive.filter (· ≠ p)
        turn := .scheduler
        history := r.history ++ [.exit p] }
  | .ended => r

/-- The rounds after `n` turns and actions of `k` threads and those that they create. -/
def rounds (b : Behaviour) (k : Nat) : Nat → Rounds
  | 0 => .start k
  | n + 1 => (rounds b k n).step b

/-- The threads that have not terminated, in the order of the list. -/
def State.alive (s : State) : List Nat :=
  (List.range s.threads.length).reverse.filter fun p => s.status p ≠ some .terminated

/-- Those that the walk meets before the end of the list. -/
def State.ahead (s : State) : List Nat :=
  match s.curr with
  | none => []
  | some c => s.alive.filter (· < c)

inductive Controls (m : Machine) : Turn → Prop where
  | scheduler : m.control = .scheduler → Controls m .scheduler
  | thread (p : Nat) : m.control = .thread → m.state.curr = some p → Controls m (.thread p)
  | ended : m.control = .destroy → Controls m .ended

/-- The machine has come to where the rounds have. -/
structure Follows (m : Machine) (r : Rounds) : Prop where
  due : r.due = m.state.ahead
  alive : r.alive = m.state.alive
  created : r.created = m.state.threads.length
  turn : Controls m r.turn
  history : r.history = m.history

section
variable {m m' : Machine} {r : Rounds} {s : State} {p c : Nat} {status old : Status}

theorem alive_decreasing (s : State) : s.alive.Pairwise (· > ·) :=
  (List.pairwise_reverse.mpr List.pairwise_lt_range).filter _

theorem mem_alive : p ∈ s.alive ↔ ∃ status, s.status p = some status ∧ status ≠ .terminated := by
  simp only [State.alive, List.mem_filter, List.mem_reverse, List.mem_range, decide_eq_true_eq]
  constructor
  · rintro ⟨lt, other⟩
    obtain ⟨status, has⟩ := exists_status lt
    exact ⟨status, has, fun eq => other (eq ▸ has)⟩
  · rintro ⟨status, has, other⟩
    refine ⟨status_lt has, fun eq => other ?_⟩
    exact Option.some.inj (has.symm.trans eq)

/-- A status that leaves the thread unfinished changes nothing. -/
theorem alive_setStatus (has : s.status p = some old) (was : old ≠ .terminated)
    (is : status ≠ .terminated) : (s.setStatus p status).alive = s.alive := by
  simp only [State.alive, length_setStatus]
  refine List.filter_congr fun q _ => ?_
  rw [status_setStatus (status_lt has)]
  split_ifs with same
  · subst same
    simp [has, was, is]
  · rfl

theorem alive_exit (lt : p < s.threads.length) :
    (s.setStatus p .terminated).alive = s.alive.filter (· ≠ p) := by
  simp only [State.alive, length_setStatus, List.filter_filter]
  refine List.filter_congr fun q _ => ?_
  rw [status_setStatus lt]
  split_ifs with same
  · simp [same]
  · simp [same]

theorem alive_create : (schedulerCreate s).alive = s.threads.length :: s.alive := by
  simp only [State.alive, length_schedulerCreate, List.range_succ, List.reverse_append,
    List.reverse_singleton, List.singleton_append]
  rw [List.filter_cons_of_pos (by simp [status_schedulerCreate])]
  congr 1
  refine List.filter_congr fun q mem => ?_
  have lt : q < s.threads.length := by simpa using mem
  rw [status_schedulerCreate, if_neg (Nat.ne_of_lt lt)]

/-- In a decreasing list the first one below a bound stands before all those below it. -/
theorem filter_lt_eq_cons {l : List Nat} (decreasing : l.Pairwise (· > ·)) (mem : p ∈ l) (lt : p < c)
    (first : ∀ q ∈ l, q < c → q ≤ p) : l.filter (· < c) = p :: l.filter (· < p) := by
  induction l with
  | nil => cases mem
  | cons x l ih =>
    obtain ⟨above, decreasing⟩ := List.pairwise_cons.mp decreasing
    by_cases same : x = p
    · subst same
      have all : ∀ q ∈ l, q < c := fun q mem => Nat.lt_trans (above q mem) lt
      have all' : ∀ q ∈ l, q < x := above
      rw [List.filter_cons_of_pos (by simpa using lt), List.filter_cons_of_neg (by simp),
        List.filter_eq_self.mpr (by simpa using all), List.filter_eq_self.mpr (by simpa using all')]
    · have inside : p ∈ l := (List.mem_cons.mp mem).resolve_left fun eq => same eq.symm
      have more : p < x := above p inside
      have high : ¬ x < c := fun low => by
        have := first x List.mem_cons_self low
        omega
      rw [List.filter_cons_of_neg (by simpa using high), List.filter_cons_of_neg (by simp; omega)]
      exact ih decreasing inside fun q mem => first q (List.mem_cons_of_mem x mem)

/-- Between two turns the unfinished threads are those that wait. -/
theorem Inv.waits_iff (inv : Inv m) (control : m.control = .scheduler) :
    m.state.Waits p ↔ p ∈ m.state.alive := by
  rw [mem_alive]
  constructor
  · rintro (fresh | sleeping)
    · exact ⟨_, fresh, by simp⟩
    · exact ⟨_, sleeping, by simp⟩
  · rintro ⟨status, has, other⟩
    cases status with
    | fresh => exact Or.inl has
    | sleeping => exact Or.inr has
    | running =>
      have := (inv.running p has).1
      rw [control] at this
      cases this
    | terminated => exact absurd rfl other

/-- The candidate comes next in the round, or it is the first of a new one. -/
theorem Inv.next_due (inv : Inv m) (control : m.control = .scheduler)
    (ok : threadCandidate m.state = .ok (some p)) (candidate : Candidate m.state p) :
    m.state.ahead = p :: m.state.alive.filter (· < p) ∨
      m.state.ahead = [] ∧ m.state.alive = p :: m.state.alive.filter (· < p) := by
  have mem : p ∈ m.state.alive := (inv.waits_iff control).mp candidate.waits
  have bound : ∀ q ∈ m.state.alive, q < m.state.threads.length := fun q mem => by
    obtain ⟨status, has, _⟩ := mem_alive.mp mem
    exact status_lt has
  have whole : m.state.alive.filter (· < m.state.threads.length) = m.state.alive :=
    List.filter_eq_self.mpr (by simpa using bound)
  have newest : (∀ q ∈ m.state.alive, q ≤ p) →
      m.state.alive = p :: m.state.alive.filter (· < p) := by
    intro first
    have := filter_lt_eq_cons (alive_decreasing _) mem (bound p mem) fun q mem _ => first q mem
    rwa [whole] at this
  cases curr : m.state.curr with
  | none =>
    refine Or.inr ⟨by rw [State.ahead, curr], newest fun q mem => ?_⟩
    have found := Except.ok.inj (ok.symm.trans inv.findsFirst)
    have circle : m.state.circle = (List.range m.state.threads.length).reverse := by
      rw [State.circle, curr]
      exact list_eq inv.linked
    rw [circle, eq_comm, List.find?_eq_some_iff_append] at found
    obtain ⟨_, before, behind, split, passed⟩ := found
    have decreasing : (before ++ p :: behind).Pairwise (· > ·) :=
      split ▸ List.pairwise_reverse.mpr List.pairwise_lt_range
    have inside : q ∈ before ++ p :: behind := by
      rw [← split]
      simpa using bound q mem
    rcases List.mem_append.mp inside with early | late
    · have waits : m.state.Waits q := (inv.waits_iff control).mpr mem
      exact absurd waits (by simpa using passed q early)
    · rcases List.mem_cons.mp late with rfl | late
      · exact le_rfl
      · exact Nat.le_of_lt ((List.pairwise_cons.mp (List.pairwise_append.mp decreasing).2.1).1 q late)
  | some c =>
    have first : ∀ q ∈ m.state.alive, ¬ Between c q p := fun q mem =>
      candidate.first c q curr ((inv.waits_iff control).mpr mem)
    by_cases low : p < c
    · refine Or.inl ?_
      rw [State.ahead, curr]
      refine filter_lt_eq_cons (alive_decreasing _) mem low fun q mem lt => ?_
      have := first q mem
      unfold Between at this
      omega
    · refine Or.inr ⟨?_, newest fun q mem => ?_⟩
      · rw [State.ahead, curr]
        refine List.filter_eq_nil_iff.mpr fun q mem => ?_
        have := first q mem
        unfold Between at this
        simp only [decide_eq_true_eq]
        omega
      · have := first q mem
        unfold Between at this
        omega

/-- With nobody waiting the rounds are over. -/
theorem Inv.none_due (inv : Inv m) (control : m.control = .scheduler) (none_ : ∀ p, ¬ m.state.Waits p) :
    m.state.alive = [] ∧ m.state.ahead = [] := by
  have alive : m.state.alive = [] := List.eq_nil_iff_forall_not_mem.mpr fun p mem =>
    none_ p ((inv.waits_iff control).mpr mem)
  refine ⟨alive, ?_⟩
  rw [State.ahead]
  cases m.state.curr with
  | none => rfl
  | some c => rw [alive]; rfl

/-- A thread that has been entered is not fresh. -/
theorem Tally.turn_eq {h : List Event} (tally : Tally h p status)
    (waits : status = .fresh ∨ status = .sleeping) :
    (if .enter p ∈ h then .resume p else .enter p) = turnOf p status := by
  have entered := tally.entered
  rcases waits with rfl | rfl
  · rw [if_neg (List.count_eq_zero.mp entered)]
    rfl
  · rw [if_pos (List.count_pos_iff.mp (by rw [entered]; decide))]
    rfl

theorem Rounds.step_scheduler (b : Behaviour) (turn : r.turn = .scheduler) {due : List Nat}
    (next : r.due = p :: due ∨ r.due = [] ∧ r.alive = p :: due) : r.step b = r.give p due := by
  rcases next with next | ⟨empty, next⟩
  · simp only [Rounds.step, turn, next]
  · simp only [Rounds.step, turn, empty, next]

/-- The first switch finds whom the round gives the turn. -/
theorem Follows.turn_step (follows : Follows m r) (inv : Inv m) (turn : r.turn = .scheduler)
    (control : m.control = .scheduler) (b : Behaviour) :
    ∃ m', Threads.step b m = .ok m' ∧ Follows m' (r.step b) := by
  rcases inv.candidate with ⟨p, ok, candidate⟩ | ⟨none_, ok⟩
  · obtain ⟨status, has, waits⟩ : ∃ status, m.state.status p = some status ∧
        (status = .fresh ∨ status = .sleeping) := by
      rcases candidate.waits with fresh | sleeping
      · exact ⟨_, fresh, Or.inl rfl⟩
      · exact ⟨_, sleeping, Or.inr rfl⟩
    have same : ({ m.state with curr := some p }.setStatus p .running).alive = m.state.alive :=
      alive_setStatus has (by rcases waits with rfl | rfl <;> simp) (by simp)
    have gives : r.step b = r.give p (m.state.alive.filter (· < p)) := by
      apply Rounds.step_scheduler b turn
      rw [follows.due, follows.alive]
      exact inv.next_due control ok candidate
    refine ⟨⟨{ m.state with curr := some p }.setStatus p .running, .thread,
      m.history ++ [turnOf p status]⟩, ?_, ?_⟩
    · simp only [Threads.step, control, schedule_turn ok has waits]
    · rw [gives]
      constructor
      case due =>
        rw [← same]
        rfl
      case alive => exact follows.alive.trans same.symm
      case created => exact follows.created.trans length_setStatus.symm
      case turn => exact .thread p rfl rfl
      case history =>
        rw [Rounds.give, follows.history, (inv.tally p status has).turn_eq waits]
  · obtain ⟨none_alive, none_ahead⟩ := inv.none_due control none_
    have due : r.due = [] := follows.due.trans none_ahead
    have alive : r.alive = [] := follows.alive.trans none_alive
    refine ⟨{ m with control := .destroy }, ?_, ?_⟩
    · simp only [Threads.step, control, schedule, ok]
    · have steps : r.step b = { r with turn := .ended } := by
        simp only [Rounds.step, turn, due, alive]
      rw [steps]
      exact ⟨follows.due, follows.alive, follows.created, .ended rfl, follows.history⟩

/-- What the current thread does keeps the threads of the round that are still to come. -/
theorem Follows.act_step (follows : Follows m r) (turn : r.turn = .thread p)
    (control : m.control = .thread) (curr : m.state.curr = some p)
    (run : m.state.status p = some .running) (b : Behaviour) :
    Threads.step b m = .ok (act m p (b m.history)) ∧
      Follows (act m p (b m.history)) (r.step b) := by
  refine ⟨by simp only [Threads.step, control, curr], ?_⟩
  have lt := status_lt run
  have due : r.due = m.state.alive.filter (· < p) := by
    rw [follows.due, State.ahead, curr]
  cases action : b m.history with
  | create =>
    have steps : r.step b = { r with
        alive := r.created :: r.alive
        created := r.created + 1
        history := r.history ++ [.create r.created] } := by
      simp only [Rounds.step, turn, follows.history, action]
    rw [steps]
    constructor
    case due =>
      have later : ¬ m.state.threads.length < p := by omega
      show r.due = State.ahead (schedulerCreate m.state)
      rw [State.ahead, show (schedulerCreate m.state).curr = some p from curr]
      simp only [alive_create]
      rw [List.filter_cons_of_neg (by simpa using Nat.le_of_not_lt later), due]
    case alive =>
      show r.created :: r.alive = (schedulerCreate m.state).alive
      rw [alive_create, follows.alive, follows.created]
    case created =>
      show r.created + 1 = (schedulerCreate m.state).threads.length
      rw [length_schedulerCreate, follows.created]
    case turn =>
      rw [show ({ r with
        alive := r.created :: r.alive
        created := r.created + 1
        history := r.history ++ [.create r.created] } : Rounds).turn = .thread p from turn]
      exact .thread p rfl curr
    case history => rw [act, ← follows.history, ← follows.created]
  | yield =>
    have same : (m.state.setStatus p .sleeping).alive = m.state.alive :=
      alive_setStatus run (by simp) (by simp)
    have steps : r.step b =
        { r with turn := .scheduler, history := r.history ++ [.yield p] } := by
      simp only [Rounds.step, turn, follows.history, action]
    rw [steps]
    constructor
    case due =>
      show r.due = State.ahead (m.state.setStatus p .sleeping)
      rw [State.ahead, show (m.state.setStatus p .sleeping).curr = some p from curr, due]
      simp only [same]
    case alive => exact follows.alive.trans same.symm
    case created => exact follows.created.trans length_setStatus.symm
    case turn => exact .scheduler rfl
    case history => rw [act, ← follows.history]
  | exit =>
    have steps : r.step b = { r with
        alive := r.alive.filter (· ≠ p)
        turn := .scheduler
        history := r.history ++ [.exit p] } := by
      simp only [Rounds.step, turn, follows.history, action]
    rw [steps]
    constructor
    case due =>
      show r.due = State.ahead (m.state.setStatus p .terminated)
      rw [State.ahead, show (m.state.setStatus p .terminated).curr = some p from curr, due]
      simp only [alive_exit lt, List.filter_filter]
      refine List.filter_congr fun q _ => ?_
      grind
    case alive =>
      show r.alive.filter (· ≠ p) = (m.state.setStatus p .terminated).alive
      rw [alive_exit lt, follows.alive]
    case created => exact follows.created.trans length_setStatus.symm
    case turn => exact .scheduler rfl
    case history => rw [act, ← follows.history]

theorem Follows.step (b : Behaviour) (follows : Follows m r) (inv : Inv m) :
    ∃ m', Threads.step b m = .ok m' ∧ Follows m' (r.step b) := by
  have controls := follows.turn
  cases turn : r.turn with
  | scheduler =>
    rw [turn] at controls
    cases controls with
    | scheduler control => exact follows.turn_step inv turn control b
  | thread p =>
    rw [turn] at controls
    cases controls with
    | thread _ control curr =>
      obtain ⟨q, same, run⟩ := inv.busy control
      obtain rfl := Option.some.inj (curr.symm.trans same)
      exact ⟨_, follows.act_step turn control curr run b⟩
  | ended =>
    rw [turn] at controls
    cases controls with
    | ended control =>
      refine ⟨m, by simp only [Threads.step, control], ?_⟩
      simpa only [Rounds.step, turn] using follows

end

theorem follows_start (k : Nat) : Follows (start k) (.start k) := by
  have idle := idle_start k
  have histories : ∀ k, (List.range k).map .create = (start k).history := by
    intro k
    induction k with
    | zero => rfl
    | succ k ih =>
      rw [List.range_succ, List.map_append, ih, start, (idle_start k).length]
      rfl
  constructor
  case due => rw [State.ahead, idle.curr]; rfl
  case alive =>
    rw [State.alive, idle.length, List.filter_eq_self.mpr]
    · rfl
    · intro p mem
      have lt : p < (start k).state.threads.length := by
        rw [idle.length]
        simpa using mem
      obtain ⟨status, has⟩ := exists_status lt
      rw [has, (idle.fresh p status has).1]
      rfl
  case created => exact idle.length.symm
  case turn => exact .scheduler idle.control
  case history => exact histories k

theorem execute_follows (b : Behaviour) (k : Nat) (pos : 0 < k) (n : Nat) :
    ∃ m, execute b k n = .ok m ∧ Inv m ∧ Follows m (rounds b k n) := by
  induction n with
  | zero => exact ⟨start k, rfl, (idle_start k).inv pos, follows_start k⟩
  | succ n ih =>
    obtain ⟨m, ok, inv, follows⟩ := ih
    obtain ⟨m', step, follows⟩ := follows.step b inv
    obtain ⟨m₁, step₁, moves⟩ := step_moves b inv
    obtain rfl := Except.ok.inj (step.symm.trans step₁)
    exact ⟨m', by simp only [execute, ok, step], inv.moves moves, follows⟩

/-- However threads create others, yield and return, the walk over the run queue schedules them in
rounds: `scheduler_execute` shows the events of the rounds, and it destroys when they have ended. -/
theorem scheduler_execute_rounds (b : Behaviour) (k : Nat) (pos : 0 < k) (n : Nat) :
    ∃ m, execute b k n = .ok m ∧ m.history = (rounds b k n).history ∧
      (m.control = .destroy ↔ (rounds b k n).turn = .ended) := by
  obtain ⟨m, ok, _, follows⟩ := execute_follows b k pos n
  refine ⟨m, ok, follows.history.symm, ?_⟩
  have controls := follows.turn
  cases turn : (rounds b k n).turn with
  | scheduler =>
    rw [turn] at controls
    cases controls with
    | scheduler control => simp [control]
  | thread p =>
    rw [turn] at controls
    cases controls with
    | thread _ control _ => simp [control]
  | ended =>
    rw [turn] at controls
    cases controls with
    | ended control => simp [control]

/-- Creates a third thread in the first round. -/
def createOnce : Behaviour := fun h =>
  if h.length = 3 then .create else if h.length < 7 then .yield else .exit

theorem scheduler_execute_rounds_two : ∃ m, execute createOnce 2 12 = .ok m ∧
    m.control = .destroy ∧
    m.history = [.create 0, .create 1, .enter 1, .create 2, .yield 1, .enter 0, .yield 0,
      .enter 2, .exit 2, .resume 1, .exit 1, .resume 0, .exit 0] := by
  obtain ⟨m, ok, history, ended⟩ := scheduler_execute_rounds createOnce 2 (by decide) 12
  exact ⟨m, ok, ended.mpr (by decide), history.trans (by decide)⟩

end OsProjects.Threads
