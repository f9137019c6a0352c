import OsProjects.Threads.AlarmRuns

/-!
# Preemption

A signal does harm wherever it interrupts anything but the function of a thread: the handler
saves a context outside of the current thread's function, overwrites the one that `scheduler_yield`
has saved, or follows `NULL` where no thread had a turn yet. In the function of a thread it does none,
unless it separates the two statements with which `scheduler_create` puts a new thread before the
head, and threads that are created meanwhile are cut off. A thread that was preempted and gets its
next turn runs without an alarm, since `alarm(0)` in the handler then cancels the alarm of
`scheduler_execute`.
-/
namespace OsProjects.Threads

/-- No signal and no resumption ends the process, the statuses change as they should, and each state
is sound. -/
def WellScheduled (k : Nat) (cs : List Choice) : Prop :=
  Library.Steps (fun before c => ∀ m, (boot k).run before = .ok m →
    (c = .deliver ∨ m.point = .jump → ∃ m', m.next c = .ok m') ∧
      ∀ m', m.next c = .ok m' → Orderly m m' ∧ Sound m') cs

section
variable {m : Process} {c : Choice} {cs ds : List Choice} {k p : Nat}

/-- A signal outside of the functions of the threads. -/
theorem not_sound_deliver {m' : Process} (outside : ∀ p, m.point.function ≠ some p)
    (pending : m.pending = true) (interruptible : m.point.interruptible = true)
    (ok : m.next .deliver = .ok m') (lt : ∀ c, m.state.curr = some c → c < m.state.threads.length) :
    ¬ Sound m' := by
  intro sound
  simp only [Process.next, pending, interruptible, Bool.and_self, if_true] at ok
  cases curr : m.state.curr with
  | none => simp [signalHandler, Process.save, curr, bind, Except.bind] at ok
  | some c =>
    rw [signalHandler_of_curr curr] at ok
    obtain rfl := Except.ok.inj ok
    have sleeping : (m.state.setStatus c .sleeping).status c = some .sleeping := by
      rw [status_setStatus (lt c curr), if_pos rfl]
    obtain ⟨_, _, q, saved, function⟩ := sound.suspended c sleeping
    obtain rfl : Point.handler m.point = q := by simpa using saved
    exact outside c function

theorem Held.deliver (h : Held m) (inside : m.pending = true → m.point.interruptible = true →
    ∃ p, m.point.function = some p) : ∃ m', m.next .deliver = .ok m' := by
  cases delivered : m.pending && m.point.interruptible with
  | false => exact ⟨m, by simp [Process.next, delivered]⟩
  | true =>
    obtain ⟨pending, interruptible⟩ := Bool.and_eq_true_iff.mp delivered
    obtain ⟨p, function⟩ := inside pending interruptible
    obtain ⟨m', runs, _⟩ := h.suspend function interruptible
    exact ⟨m', by simpa only [Process.next, delivered, if_true] using runs⟩

theorem Held.resumes (h : Held m) (point : m.point = .jump)
    (inside : c = .deliver → m.pending = true → m.point.interruptible = true →
      ∃ p, m.point.function = some p) : ∃ m', m.next c = .ok m' := by
  cases c with
  | deliver => exact h.deliver (inside rfl)
  | proceed a =>
    obtain ⟨m', runs, _⟩ := h.jump point
    exact ⟨m', runs a⟩

theorem inUserCode_append (inside : InUserCode k cs) (none_ : ∀ c ∈ ds, c ≠ .deliver) :
    InUserCode k (cs ++ ds) := by
  induction ds using List.reverseRecOn with
  | nil => rwa [List.append_nil]
  | append_singleton ds d ih =>
    rw [← List.append_assoc]
    refine Library.steps_append.mpr ⟨ih fun c mem => none_ c (by simp [mem]), fun deliver => ?_⟩
    exact absurd deliver (none_ d (by simp))

end

/-- `n` statements; the threads finish. -/
def statements (n : Nat) : List Choice := List.replicate n (.proceed .exit)

/-- A signal between `status = STATUS_TERMINATED` and `longjmp`. -/
theorem terminated_thread_sleeps : (¬ ∀ k cs, WellScheduled k cs) ∧
    ∃ m m', (boot 1).run (statements 12) = .ok m ∧ m.next .deliver = .ok m' ∧ m.point = .leave ∧
      m.state.status 0 = some .terminated ∧ m'.state.status 0 = some .sleeping := by
  have run : ∃ m m', (boot 1).run (statements 12) = .ok m ∧ m.next .deliver = .ok m' ∧
      m.point = .leave ∧ m.state.status 0 = some .terminated ∧
      m'.state.status 0 = some .sleeping := ⟨_, _, rfl, rfl, rfl, rfl, rfl⟩
  refine ⟨fun all => ?_, run⟩
  obtain ⟨m, m', ok, ok', _, terminated, sleeping⟩ := run
  have last := (Library.steps_append.mp (all 1 (statements 12 ++ [.deliver]))).2
  have orderly := ((last m ok).2 m' ok').1
  simp [orderly.terminated 0 terminated] at sleeping

/-- A run goes as it should if its signals interrupt the functions of threads and its new threads are
put before the head that they have read, and never with a signal elsewhere. -/
theorem wellScheduled_of_inUserCode (k : Nat) (cs : List Choice) :
    (InUserCode k cs ∧ KeepsHead k cs → WellScheduled k cs) ∧
      (WellScheduled k cs → InUserCode k cs) := by
  constructor
  · rintro ⟨inside, keeps⟩ before c after split m ok
    have held := held_run (Library.Steps.before inside split) ok
    have listed := listed_run (Library.Steps.before inside split) (Library.Steps.before keeps split) ok
    have here := fun deliver => inside before c after split deliver m ok
    have head := fun proceed => keeps before c after split proceed m ok
    refine ⟨?_, fun m' step => ?_⟩
    · rintro (rfl | point)
      · exact held.deliver (here rfl)
      · exact held.resumes point here
    · obtain ⟨held', orderly⟩ := held.next here step
      exact ⟨orderly, held'.sound (listed.next held here head step)⟩
  · intro well
    induction cs using List.reverseRecOn with
    | nil => exact Library.Steps.nil
    | append_singleton cs c ih =>
      obtain ⟨before, last⟩ := Library.steps_append.mp well
      have inside := ih before
      refine Library.steps_append.mpr ⟨inside, fun deliver m ok pending interruptible => ?_⟩
      subst deliver
      by_contra outside
      obtain ⟨m', step⟩ := (last m ok).1 (Or.inl rfl)
      exact not_sound_deliver (fun p here => outside ⟨p, here⟩) pending interruptible step
        (held_run inside ok).curr ((last m ok).2 m' step).2

/-- Whether each `link` of a run finds the head that it has read. -/
def headKept (k : Nat) (cs : List Choice) : Bool :=
  (List.range cs.length).all fun n =>
    match (boot k).run (cs.take n) with
    | .error _ => true
    | .ok m =>
      match m.point with
      | .link _ next => next = m.state.head
      | _ => true

theorem keepsHead_of_headKept {k : Nat} {cs : List Choice} (kept : headKept k cs = true) :
    KeepsHead k cs := by
  intro before c after split _ m ok p next point
  have short : before.length < cs.length := by
    rw [split, List.length_append, List.length_cons]
    omega
  have first : cs.take before.length = before := by rw [split, List.take_left]
  have here := List.all_eq_true.mp kept before.length (List.mem_range.mpr short)
  simpa [first, ok, point] using here

/-- The signal separates the statements of `scheduler_create`, and the new thread has its turn when
they are done. -/
def interruptedCreate : List Choice :=
  statements 10 ++ [.proceed .create, .proceed .exit] ++ [.deliver] ++ statements 31

theorem interruptedCreate_inUserCode : InUserCode 1 interruptedCreate := by
  refine inUserCode_append (Library.steps_append.mpr
    ⟨inUserCode_append (inUserCode_append Library.Steps.nil (by decide)) (by decide),
      fun _ m ok _ _ => ⟨0, ?_⟩⟩) (by decide)
  obtain rfl := Except.ok.inj ok
  rfl

theorem wellScheduled_preempted : WellScheduled 1 interruptedCreate ∧
    ∃ m, (boot 1).run interruptedCreate = .ok m ∧ m.point = .destroy ∧ m.entered = [0, 1] :=
  ⟨(wellScheduled_of_inUserCode 1 interruptedCreate).1
    ⟨interruptedCreate_inUserCode, keepsHead_of_headKept (by decide +kernel)⟩, _, rfl, rfl, rfl⟩

/-- The signal comes before `state.head = new_thread`; the thread that is created meanwhile is not
entered. -/
example : ∃ m, (boot 2).run (statements 10 ++ [.proceed .yield] ++ statements 11 ++
      [.proceed .create, .proceed .exit, .deliver] ++ statements 8 ++ [.proceed .create] ++
      statements 60) = .ok m ∧ m.point = .destroy ∧ m.state.status 2 = some .fresh :=
  ⟨_, rfl, rfl, rfl⟩

/-- The signal comes behind the `setjmp` of `scheduler_yield`. -/
example : (boot 1).run (statements 10 ++ [.proceed .yield, .deliver] ++ statements 30) =
    .error .undefined := rfl

/-- A thread that is preempted in its first turn. -/
theorem preempted_inUserCode : InUserCode 1 (statements 10 ++ [.deliver]) := by
  refine Library.steps_append.mpr
    ⟨inUserCode_append Library.Steps.nil (by decide), fun _ m ok _ _ => ⟨0, ?_⟩⟩
  obtain rfl := Except.ok.inj ok
  rfl

/-- A thread that is preempted in its first turn and resumed. -/
theorem resumed_without_alarm : ¬ ∀ k cs m p, InUserCode k cs → (boot k).run cs = .ok m →
    m.point.function = some p → m.point.interruptible = true → m.pending = true := by
  intro all
  have resumed : InUserCode 1 (statements 10 ++ [.deliver] ++ statements 9) :=
    inUserCode_append preempted_inUserCode (by decide)
  have pending := all 1 _ _ 0 resumed rfl rfl rfl
  exact absurd pending (by decide)

/-- While control is in a thread an alarm is pending, if and only if the last suspension of the
thread was not a preemption. -/
theorem alarm_pending_iff (k : Nat) (cs : List Choice) (m : Process) (p : Nat)
    (inside : InUserCode k cs) (ok : (boot k).run cs = .ok m) (point : m.point.function = some p)
    (outside : m.point.interruptible = true) : m.pending = true ↔ m.preempted p = false := by
  obtain ⟨_, pending⟩ := (held_run inside ok).inside point outside
  rw [pending, Bool.not_eq_true']

theorem alarm_pending_iff_entered : ∃ m, (boot 1).run (statements 10) = .ok m ∧
    (m.pending = true ↔ m.preempted 0 = false) ∧ m.pending = true := by
  have inside : InUserCode 1 (statements 10) := inUserCode_append Library.Steps.nil (by decide)
  exact ⟨_, rfl, alarm_pending_iff 1 (statements 10) _ 0 inside rfl rfl rfl, rfl⟩

end OsProjects.Threads
