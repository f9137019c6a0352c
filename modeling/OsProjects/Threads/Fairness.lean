import OsProjects.Library.Steps
import OsProjects.Threads.SchedulerRuns
import Mathlib.Algebra.BigOperators.Group.Finset.Piecewise
import Mathlib.Algebra.Order.BigOperators.Group.Finset

/-!
# Fairness of the scheduler

Between two turns of a thread the turns go once around the list. The invariant fixes one
turn of one thread and says which of the others had theirs since: those that the walk
from that thread has passed.
-/
namespace OsProjects.Threads
open OsProjects.Library

/-- The number of turns of a thread. -/
def turns (p : Nat) (h : List Event) : Nat := h.count (.enter p) + h.count (.resume p)

/-- When a thread gets a turn after another one, each other thread that existed at the end of its
last turn and has not finished had one turn in between. -/
def FairTurn (h : List Event) (e : Event) : Prop :=
  ∀ i first last own between, e.turn = some i → h = first ++ last :: (own ++ between) →
    last.turn = some i → (∀ x ∈ own, x.turn = none) → turns i between = 0 →
    ∀ j ≠ i, .create j ∈ first ++ own → .exit j ∉ h → turns j between = 1

/-- The walk down from `i` has come to `c` and has passed `j`. -/
def Passed (i c j : Nat) : Prop := j < i ∧ (c ≤ j ∨ i < c) ∨ i < j ∧ i < c ∧ c ≤ j

instance (i c j : Nat) : Decidable (Passed i c j) := inferInstanceAs (Decidable (_ ∨ _))

/-- After a turn of `i` the threads that were passed had one turn and the others none. -/
structure Round (m : Machine) : Prop where
  latest : ∀ i first last own, m.history = first ++ last :: own → last.turn = some i →
    (∀ x ∈ own, x.turn = none) → m.state.curr = some i
  passed : ∀ i first last own between j c, m.history = first ++ last :: (own ++ between) →
    last.turn = some i → (∀ x ∈ own, x.turn = none) → turns i between = 0 → j ≠ i →
    .create j ∈ first ++ own → .exit i ∉ m.history → .exit j ∉ m.history →
    m.state.curr = some c → turns j between = if Passed i c j then 1 else 0
  fair : Steps FairTurn m.history

section
variable {m m' : Machine} {h own between : List Event} {i j c p q : Nat} {e : Event}
  {status : Status}

theorem turns_concat : turns p (h ++ [e]) = turns p h + if e.turn = some p then 1 else 0 := by
  cases e <;> simp [turns, Event.turn, List.count_append, List.count_singleton] <;> split_ifs <;> omega

/-- The next candidate after `c` is passed and nobody else who waits. -/
theorem passed_next (i_waits : ¬ Between c i p) (j_waits : ¬ Between c j p) (ne : p ≠ i)
    (other : j ≠ i) :
    (Passed i p j ↔ Passed i c j ∨ j = p) ∧ ¬ Passed i c p := by
  simp only [Between, Passed] at *
  omega

/-- When the walk comes back all who wait were passed. -/
theorem passed_all (j_waits : ¬ Between c j i) (other : j ≠ i) : Passed i c j := by
  simp only [Between, Passed] at *
  omega

theorem not_passed_start : ¬ Passed i i j := by
  simp [Passed]

/-- Where the last event of a history stands in a decomposition of it. -/
theorem concat_eq_round {first : List Event} {last : Event}
    (split : h ++ [e] = first ++ last :: (own ++ between)) :
    own = [] ∧ between = [] ∧ h = first ∧ e = last ∨
      (∃ more, own = more ++ [e] ∧ between = [] ∧ h = first ++ last :: more) ∨
      ∃ more, between = more ++ [e] ∧ h = first ++ last :: (own ++ more) := by
  rcases concat_eq_append_cons.mp split with ⟨none_, rfl, rfl⟩ | ⟨more, eq, rfl⟩
  · obtain ⟨rfl, rfl⟩ := List.append_eq_nil_iff.mp none_
    exact Or.inl ⟨rfl, rfl, rfl, rfl⟩
  · rcases List.eq_nil_or_concat between with rfl | ⟨rest, x, rfl⟩
    · exact Or.inr (Or.inl ⟨more, by simpa using eq, rfl, rfl⟩)
    · rw [List.concat_eq_append, ← List.append_assoc] at eq
      obtain ⟨rfl, same⟩ := List.append_inj' eq rfl
      obtain rfl := List.singleton_inj.mp same
      exact Or.inr (Or.inr ⟨rest, List.concat_eq_append, rfl⟩)

theorem not_mem_concat {x : Event} : x ∉ h ++ [e] ↔ x ∉ h ∧ x ≠ e := by
  simp

/-- A thread that was created and has not finished waits while the scheduler looks for one. -/
theorem Inv.waits (inv : Inv m) (control : m.control = .scheduler) (created : .create j ∈ m.history)
    (open_ : .exit j ∉ m.history) : m.state.Waits j := by
  have lt : j < m.state.threads.length := inv.known _ created
  obtain ⟨status, has⟩ := exists_status lt
  have tally := inv.tally _ status has
  cases status with
  | fresh => exact Or.inl has
  | sleeping => exact Or.inr has
  | running =>
    have := (inv.running _ has).1
    simp [control] at this
  | terminated =>
    have := tally.exited
    rw [List.count_eq_zero.mpr open_] at this
    simp at this

theorem Inv.curr_of_turn (inv : Inv m) (mem : e ∈ m.history) (turn : e.turn = some i) :
    ∃ c, m.state.curr = some c := by
  cases curr : m.state.curr with
  | some c => exact ⟨c, rfl⟩
  | none =>
    have := (inv.idle curr).2.2 e mem
    simp [turn] at this

theorem turn_thread (turn : e.turn = some i) : e.thread = i := by
  cases e <;> simp [Event.turn] at turn <;> exact turn

theorem Inv.created (inv : Inv m) (mem : e ∈ m.history) (turn : e.turn = some i) :
    Event.create i ∈ m.history := by
  obtain ⟨status, has⟩ := exists_status (inv.known e mem)
  rw [turn_thread turn] at has
  apply List.count_pos_iff.mp
  rw [(inv.tally i status has).created]
  exact Nat.one_pos

theorem Inv.not_exited (inv : Inv m) (waits : m.state.Waits p) : Event.exit p ∉ m.history := by
  apply List.count_eq_zero.mp
  rcases waits with fresh | sleeping
  · exact (inv.tally p _ fresh).exited
  · exact (inv.tally p _ sleeping).exited

/-- An event that is no turn leaves the round where it is. -/
theorem Round.quiet {s : State} {control : Control} (round : Round m) (quiet : e.turn = none)
    (curr : s.curr = m.state.curr) : Round ⟨s, control, m.history ++ [e]⟩ := by
  have latest : ∀ i first last own, m.history ++ [e] = first ++ last :: own → last.turn = some i →
      (∀ x ∈ own, x.turn = none) → s.curr = some i := by
    intro i first last own split turn quiet_own
    rcases concat_eq_append_cons.mp split with ⟨rfl, rfl, rfl⟩ | ⟨more, rfl, eq⟩
    · simp [quiet] at turn
    · rw [curr]
      exact round.latest i first last more eq turn fun x mem => quiet_own x (by simp [mem])
  refine ⟨latest, ?_, steps_append.mpr ⟨round.fair, ?_⟩⟩
  · intro i first last own between j c split turn quiet_own none_ other created open_i open_j at_c
    rcases concat_eq_round split with ⟨_, _, _, rfl⟩ | ⟨_, _, rfl, _⟩ | ⟨more, rfl, eq⟩
    · simp [quiet] at turn
    · -- no turn yet, so the walk has not left `i`
      rw [List.append_nil] at split
      obtain rfl := Option.some.inj (at_c.symm.trans (latest i first last own split turn quiet_own))
      rw [if_neg not_passed_start]
      rfl
    · rw [turns_concat, quiet] at none_ ⊢
      exact round.passed i first last own more j c eq turn quiet_own none_ other created
        (not_mem_concat.mp open_i).1 (not_mem_concat.mp open_j).1 (curr ▸ at_c)
  · intro i first last own between turn
    simp [quiet] at turn

theorem Round.turn (round : Round m) (inv : Inv m) (control : m.control = .scheduler)
    (candidate : Candidate m.state p) {s : State} (curr : s.curr = some p) (turn : e.turn = some p) :
    Round ⟨s, .thread, m.history ++ [e]⟩ := by
  refine ⟨?_, ?_, steps_append.mpr ⟨round.fair, ?_⟩⟩
  · intro i first last own split turn' quiet
    rcases concat_eq_append_cons.mp split with ⟨rfl, rfl, rfl⟩ | ⟨more, rfl, _⟩
    · rw [curr, ← turn, turn']
    · have := quiet e (by simp)
      simp [turn] at this
  · intro i first last own between j c split turn' quiet none_ other created open_i open_j at_c
    obtain rfl := Option.some.inj (curr.symm.trans at_c)
    rcases concat_eq_round split with ⟨_, rfl, _, rfl⟩ | ⟨more, rfl, _, _⟩ | ⟨more, rfl, eq⟩
    · obtain rfl := Option.some.inj (turn.symm.trans turn')
      rw [if_neg not_passed_start]
      rfl
    · have := quiet e (by simp)
      simp [turn] at this
    · rw [turns_concat, turn] at none_ ⊢
      have ne : p ≠ i := by
        rintro rfl
        simp at none_
      have open_i := (not_mem_concat.mp open_i).1
      have open_j := (not_mem_concat.mp open_j).1
      obtain ⟨c, old⟩ := inv.curr_of_turn (by rw [eq]; simp : last ∈ m.history) turn'
      have before := round.passed i first last own more j c eq turn' quiet (by omega) other created
        open_i open_j old
      have i_created := inv.created (by rw [eq]; simp : last ∈ m.history) turn'
      have j_created : Event.create j ∈ m.history := by
        rw [eq]
        rcases List.mem_append.mp created with mem | mem <;> simp [mem]
      obtain ⟨more_passed, not_yet⟩ := passed_next
        (candidate.first c i old (inv.waits control i_created open_i))
        (candidate.first c j old (inv.waits control j_created open_j)) ne other
      simp only [before, more_passed]
      by_cases same : j = p
      · subst same
        simp [not_yet]
      · simp [same, Ne.symm same]
  · intro i first last own between turn' split turn'' quiet none_ j other created open_j
    obtain rfl := Option.some.inj (turn.symm.trans turn')
    have open_i := inv.not_exited candidate.waits
    have j_created : Event.create j ∈ m.history := by
      rw [split]
      rcases List.mem_append.mp created with mem | mem <;> simp [mem]
    obtain ⟨c, old⟩ := inv.curr_of_turn (by rw [split]; simp : last ∈ m.history) turn''
    rw [round.passed p first last own between j c split turn'' quiet none_ other created open_i open_j
      old, if_pos]
    exact passed_all (candidate.first c j old (inv.waits control j_created open_j)) other

theorem Round.moves (round : Round m) (inv : Inv m) (moves : Moves m m') : Round m' := by
  cases moves with
  | turn p status control candidate _ _ =>
    exact round.turn inv control candidate rfl turnOf_turn
  | finish => exact ⟨round.latest, round.passed, round.fair⟩
  | act p a control curr _ => cases a <;> exact round.quiet rfl rfl
  | stay => exact round

theorem Idle.round {k : Nat} (idle : Idle k m) : Round m := by
  have none_ : ∀ first last more, m.history = first ++ last :: more → last.turn = none := by
    intro first last more split
    refine (idle.known last ?_).2
    rw [split]
    simp
  refine ⟨?_, ?_, ?_⟩
  · intro i first last own split turn
    simp [none_ first last own split] at turn
  · intro i first last own between j c split turn
    simp [none_ first last _ split] at turn
  · intro first e more split i _ _ _ _ turn
    simp [none_ first e more split] at turn

theorem execute_round (b : Behaviour) (k : Nat) (pos : 0 < k) (n : Nat) :
    ∃ m, execute b k n = .ok m ∧ Inv m ∧ Round m := by
  induction n with
  | zero => exact ⟨_, rfl, (idle_start k).inv pos, (idle_start k).round⟩
  | succ n ih =>
    obtain ⟨m, ok, inv, round⟩ := ih
    obtain ⟨m', ok', moves⟩ := step_moves b inv
    refine ⟨m', ?_, inv.moves moves, round.moves inv moves⟩
    simp only [execute, ok, ok']

/-- Each step is an event or the end of the run. -/
theorem Moves.length (moves : Moves m m') :
    m'.control = .destroy ∨ m.control ≠ .destroy ∧ m'.history.length = m.history.length + 1 := by
  cases moves with
  | turn p status control => exact Or.inr ⟨by simp [control], by simp⟩
  | finish => exact Or.inl rfl
  | act p a control => cases a <;> exact Or.inr ⟨by simp [control], by simp [Threads.act]⟩
  | stay control => exact Or.inl control

theorem length_start (k : Nat) : (start k).history.length = k := by
  induction k with
  | zero => rfl
  | succ k ih => simp [start, ih]

theorem execute_length (b : Behaviour) (k : Nat) (pos : 0 < k) (n : Nat)
    (ok : execute b k n = .ok m) : m.control = .destroy ∨ m.history.length = k + n := by
  induction n generalizing m with
  | zero =>
    obtain rfl := Except.ok.inj ok
    exact Or.inr (length_start k)
  | succ n ih =>
    obtain ⟨m₀, ok₀, inv, _⟩ := execute_round b k pos n
    obtain ⟨m', ok', moves⟩ := step_moves b inv
    simp only [execute, ok₀, ok'] at ok
    obtain rfl := Except.ok.inj ok
    rcases moves.length with destroyed | ⟨running, length⟩
    · exact Or.inl destroyed
    · have := (ih ok₀).resolve_left running
      exact Or.inr (by omega)

/-- The events of a history, thread by thread. -/
theorem length_eq_sum (n : Nat) (known : ∀ e ∈ h, e.thread < n) :
    h.length = ∑ p ∈ Finset.range n, (h.count (.create p) + h.count (.enter p) +
      h.count (.resume p) + h.count (.yield p) + h.count (.exit p)) := by
  induction h with
  | nil => simp
  | cons e h ih =>
    obtain ⟨lt, known⟩ := List.forall_mem_cons.mp known
    have ih := ih known
    simp only [Finset.sum_add_distrib] at ih
    cases e <;> simp only [Event.thread] at lt <;>
      simp [List.count_cons, Finset.sum_add_distrib, lt, ih] <;> omega

end

/-- Finitely many threads are created and each yields finitely often. -/
structure Finitely (b : Behaviour) (k : Nat) : Prop where
  threads : ∃ n, ∀ i m, execute b k i = .ok m → m.state.threads.length ≤ n
  yields : ∀ p, ∃ y, ∀ i m, execute b k i = .ok m → m.history.count (.yield p) ≤ y

/-- What holds of a machine at each point of a run. -/
structure Serves (m : Machine) : Prop where
  one_running : ∀ p q, m.state.status p = some .running → m.state.status q = some .running → p = q
  entered : ∀ p, m.history.count (.enter p) ≤ 1
  resumed : ∀ p, m.history.count (.resume p) ≤ m.history.count (.yield p)
  fair : Steps FairTurn m.history
  terminated : m.control = .destroy → ∀ p status, m.state.status p = some status → status = .terminated
  complete : m.control = .destroy → ∀ p, .create p ∈ m.history → m.history.count (.enter p) = 1 ∧
    m.history.count (.resume p) = m.history.count (.yield p) ∧ m.history.count (.exit p) = 1

section
variable {m : Machine} {p : Nat}

/-- The counts of a thread, created or not. -/
theorem Inv.counts (inv : Inv m) (p : Nat) :
    (∃ status, m.state.status p = some status ∧ Tally m.history p status) ∨
      ∀ e : Event, e.thread = p → m.history.count e = 0 := by
  by_cases lt : p < m.state.threads.length
  · obtain ⟨status, has⟩ := exists_status lt
    exact Or.inl ⟨status, has, inv.tally p status has⟩
  · refine Or.inr fun e same => List.count_eq_zero.mpr fun mem => lt ?_
    rw [← same]
    exact inv.known e mem

theorem Inv.serves (inv : Inv m) (round : Round m) : Serves m := by
  constructor
  case one_running =>
    intro p q run run'
    have at_p := (inv.running p run).2
    have at_q := (inv.running q run').2
    exact Option.some.inj (at_p.symm.trans at_q)
  case entered =>
    intro p
    rcases inv.counts p with ⟨status, _, tally⟩ | none_
    · rw [tally.entered]
      split_ifs <;> omega
    · rw [none_ _ rfl]
      exact Nat.zero_le _
  case resumed =>
    intro p
    rcases inv.counts p with ⟨status, _, tally⟩ | none_
    · rw [tally.yielded]
      exact Nat.le_add_right _ _
    · rw [none_ (.resume p) rfl]
      exact Nat.zero_le _
  case fair => exact round.fair
  case terminated => exact inv.ended
  case complete =>
    intro destroyed p created
    rcases inv.counts p with ⟨status, has, tally⟩ | none_
    · obtain rfl := inv.ended destroyed p status has
      exact ⟨tally.entered, tally.yielded.symm, tally.exited⟩
    · exact absurd created (List.count_eq_zero.mp (none_ _ rfl))

/-- A bound on the events of a run. -/
theorem Inv.length_le (inv : Inv m) {n : Nat} {y : Nat → Nat} (threads : m.state.threads.length ≤ n)
    (yields : ∀ p, m.history.count (.yield p) ≤ y p) :
    m.history.length ≤ ∑ p ∈ Finset.range n, (3 + 2 * y p) := by
  rw [length_eq_sum n fun e mem => Nat.lt_of_lt_of_le (inv.known e mem) threads]
  refine Finset.sum_le_sum fun p _ => ?_
  have := yields p
  rcases inv.counts p with ⟨status, _, tally⟩ | none_
  · have entered : m.history.count (.enter p) ≤ 1 := by
      rw [tally.entered]
      split_ifs <;> omega
    have exited : m.history.count (.exit p) ≤ 1 := by
      rw [tally.exited]
      split_ifs <;> omega
    have yielded := tally.yielded
    have created := tally.created
    omega
  · simp [none_ (.create p) rfl, none_ (.enter p) rfl, none_ (.resume p) rfl,
      none_ (.yield p) rfl, none_ (.exit p) rfl]

end

/-- A run never faults; at each point at most one thread is running, each was entered at most once
and resumed for each of its yields, and the turns are fair; and when finitely many threads yield
finitely often the run ends, with each thread entered once and terminated. -/
theorem scheduler_execute_fair (b : Behaviour) (k : Nat) (pos : 0 < k) :
    (∀ n, ∃ m, execute b k n = .ok m ∧ Serves m) ∧
      (Finitely b k → ∃ n m, execute b k n = .ok m ∧ m.control = .destroy) := by
  constructor
  · intro n
    obtain ⟨m, ok, inv, round⟩ := execute_round b k pos n
    exact ⟨m, ok, inv.serves round⟩
  · rintro ⟨⟨n, threads⟩, yields⟩
    choose y yields using yields
    obtain ⟨m, ok, inv, _⟩ := execute_round b k pos (∑ p ∈ Finset.range n, (3 + 2 * y p))
    refine ⟨_, m, ok, ?_⟩
    have le := inv.length_le (threads _ m ok) fun p => yields p _ m ok
    rcases execute_length b k pos _ ok with destroyed | length
    · exact destroyed
    · omega

def yieldOnce : Behaviour := fun h => if h.length < 6 then .yield else .exit

theorem scheduler_execute_fair_two :
    ∃ m, execute yieldOnce 2 9 = .ok m ∧ Serves m ∧ m.control = .destroy ∧
      m.history = [.create 0, .create 1, .enter 1, .yield 1, .enter 0, .yield 0, .resume 1, .exit 1,
        .resume 0, .exit 0] := by
  obtain ⟨runs, _⟩ := scheduler_execute_fair yieldOnce 2 (by decide)
  obtain ⟨m, ok, serves⟩ := runs 9
  have run : (execute yieldOnce 2 9).toOption.map (fun m => (m.control, m.history)) =
      some (.destroy, [.create 0, .create 1, .enter 1, .yield 1, .enter 0, .yield 0, .resume 1,
        .exit 1, .resume 0, .exit 0]) := by decide
  rw [ok] at run
  obtain ⟨control, history⟩ := Prod.mk.inj (Option.some.inj run)
  exact ⟨m, ok, serves, control, history⟩

end OsProjects.Threads
