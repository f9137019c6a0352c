import OsProjects.KeyValue.Linearization
import OsProjects.KeyValue.LockBalance

/-!
# The log that the threads serve

On a device that works, appends no longer than a block keep the handle `Level`, so the
sequential run of the calls answers with the log, and with it every interleaving does.
-/
namespace OsProjects.KeyValue
open OsProjects.Library

/-- An append of at most a block, or a read of the device. -/
def LogCall.Suits (device : Device) : LogCall → Prop
  | .append buf => buf.length ≤ device.block
  | .read off len _ => off + len ≤ device.size

instance (device : Device) : (c : LogCall) → Decidable (c.Suits device)
  | .append _ | .read .. => Nat.decLe _ _

/-- The bytes that the calls append. -/
def appended (calls : List LogCall) : Bytes := calls.foldl LogCall.after []

section
variable {device : Device} {start : LogSession}

theorem LogCall.after_append (log : Bytes) (c : LogCall) :
    c.after log = log ++ c.after [] := by
  cases c with
  | append buf => rfl
  | read off len rand => exact (List.append_nil log).symm

theorem foldl_after (log : Bytes) (calls : List LogCall) :
    calls.foldl LogCall.after log = log ++ appended calls := by
  induction calls generalizing log with
  | nil => exact (List.append_nil log).symm
  | cons c calls ih =>
    rw [appended, List.foldl_cons, List.foldl_cons, ih, ih (c.after []), c.after_append,
      List.append_assoc]

theorem appended_append (calls calls' : List LogCall) :
    appended (calls ++ calls') = appended calls ++ appended calls' := by
  rw [appended, List.foldl_append, foldl_after]
  rfl

theorem appended_cons (c : LogCall) (calls : List LogCall) :
    appended (c :: calls) = c.after [] ++ appended calls := by
  rw [appended, List.foldl_cons, foldl_after]

/-- A suitable call on a level handle. -/
theorem Logfs.Level.call (h : start.logfs.Level start.log)
    (geometry : start.logfs.device.SameGeometry device) {c : LogCall} (suits : c.Suits device)
    (fits : (c.after start.log).length ≤ device.size) :
    ∃ reply s', start.step c = .ok (reply, s') ∧ c.Right start.log reply ∧
      s'.log = c.after start.log ∧ s'.logfs.Level s'.log ∧ s'.logfs.device.SameGeometry device := by
  cases c with
  | append buf =>
    simp only [LogCall.after, List.length_append] at fits
    obtain ⟨lfs', ok, level, same, _⟩ := h.append
      (by rw [geometry.block]; exact suits : buf.length ≤ start.logfs.device.block)
      (by rwa [geometry.size])
    exact ⟨some [], ⟨lfs', start.log ++ buf⟩, by simp only [LogSession.step, ok], trivial, rfl, level,
      same.trans geometry⟩
  | read off len rand =>
    have inside : off + len ≤ start.logfs.device.size := by
      rw [geometry.size]
      exact suits
    obtain ⟨data, lfs', ok, found, level, same, _⟩ := h.read rand inside
    exact ⟨some data, ⟨lfs', start.log⟩, by simp only [LogSession.step, ok],
      fun within => by rw [found within], rfl, level, same.trans geometry⟩

theorem Logfs.Level.run (calls : List LogCall) (h : start.logfs.Level start.log)
    (geometry : start.logfs.device.SameGeometry device) (suits : ∀ c ∈ calls, c.Suits device)
    (fits : start.log.length + (appended calls).length ≤ device.size) :
    ∃ replies s', start.run calls = .ok (replies, s') ∧ Answered start.log calls replies ∧
      s'.log = start.log ++ appended calls ∧ s'.logfs.Level s'.log ∧
      s'.logfs.device.SameGeometry device := by
  induction calls generalizing start with
  | nil => exact ⟨[], start, rfl, trivial, (List.append_nil _).symm, h, geometry⟩
  | cons c calls ih =>
    obtain ⟨suit, suits⟩ := List.forall_mem_cons.mp suits
    rw [appended_cons, List.length_append] at fits
    have length : (c.after start.log).length = start.log.length + (c.after []).length := by
      rw [c.after_append, List.length_append]
    obtain ⟨reply, s₁, ok, right, log₁, level, geometry₁⟩ := h.call geometry suit (by omega)
    obtain ⟨replies, s₂, run, answered, log₂, level₂, geometry₂⟩ := ih level geometry₁ suits (by
      rw [log₁]
      omega)
    refine ⟨reply :: replies, s₂, by simp only [LogSession.run, ok, run],
      ⟨right, log₁ ▸ answered⟩, ?_, level₂, geometry₂⟩
    rw [log₂, log₁, c.after_append, appended_cons, List.append_assoc]

/-- Only a read that the sequential run fails too makes the client fail. -/
theorem Threads.Phase.client_fails {b : Logfs} {s s' : Threads} {pending : List LogCall}
    {call : ClientCall} (base : b.Steady) (h : s.Phase b pending)
    (ok : clientStep call s = some (.ok s')) (failed : s'.client = .failed) :
    ∃ c lfs', pending = [c] ∧ c.Returns b none lfs' := by
  have unlocked : ¬ b.locked = true := by simp [base.unlocked]
  obtain ⟨off, len, rand, lfs', pc, blocks, rfl⟩ := clientStep_failed ok failed
  rcases h.cases with ⟨_, settled, _⟩ | ⟨_, closing⟩ | ⟨c, rfl, within⟩
  · simp [pc] at settled
  · rw [pc] at closing
    exact absurd closing id
  · rw [pc] at within
    obtain ⟨rfl, pass⟩ := within
    refine ⟨_, lfs', rfl, ?_⟩
    rw [LogCall.Returns, logfsRead, logfsReadWithFlush, if_neg unlocked, if_pos rfl, pass]
    exact blocks

end

/-- In every interleaving of the client and the flusher on a device that works, a read returns the
appended bytes it asks for, no step fails a read or ends the process, and after the close the device
has all that was appended; as long as no append is longer than a block, the log fits the device, and
reads stay on it. -/
theorem flusher_serves_log (device : Device) (sane : device.Sane) {calls : List LogCall}
    {replies : List (Option Bytes)} {s : Threads} (trace : Trace (logfsOpen device) calls replies s)
    (suits : ∀ c ∈ calls, c.Suits device) (fits : (appended calls).length ≤ device.size) :
    ∃ done pending, calls = done ++ pending ∧ pending.length ≤ 1 ∧ Answered [] done replies ∧
      (∀ (t : Turn) f, t.attempt s ≠ some (.error f)) ∧
      (∀ call s', clientStep call s = some (.ok s') → s'.client ≠ .failed) ∧
      (s.client = .closed → pending = [] ∧ s.lfs.device.Carries (appended calls)) := by
  have opened := Logfs.Level.open_ sane
  obtain ⟨g, i⟩ := trace.reaches.stage
  obtain ⟨done, pending, session, rfl, run, base, phase⟩ := trace.follows opened.steady []
  rw [appended_append, List.length_append] at fits
  obtain ⟨replies', session', run', answered, log, level, geometry⟩ :=
    @Logfs.Level.run _ ⟨logfsOpen device, []⟩ done opened (.refl device)
      (fun c mem => suits c (List.mem_append_left _ mem)) (by simp only [List.length_nil]; omega)
  obtain ⟨rfl, rfl⟩ := Prod.mk.inj (Except.ok.inj (run.symm.trans run'))
  rw [List.nil_append] at log
  have serves : ∀ c, pending = [c] → ¬ c.Faults session.logfs := by
    rintro c rfl ends
    obtain ⟨e, faulty⟩ := ends.step
    obtain ⟨reply, s', ok, _⟩ := level.call geometry (suits c (by simp)) (by
      rw [c.after_append, List.length_append, log]
      rw [appended_cons, List.length_append] at fits
      omega)
    exact absurd (faulty.symm.trans ok) nofun
  have reads : ∀ c lfs', pending = [c] → ¬ c.Returns session.logfs none lfs' := by
    rintro (buf | ⟨off, len, rand⟩) lfs' rfl returns
    · cases returns.1
    · obtain ⟨data, lfs₁, ok, _⟩ := level.read rand (by
        rw [geometry.size]
        exact suits (.read off len rand) (by simp))
      exact absurd (Eq.trans (Eq.symm returns) ok) nofun
  obtain ⟨closed, close, carries, _⟩ := level.close
  refine ⟨done, pending, rfl, phase.length_le, answered, ?_, fun call s' ok failed => ?_,
    fun at_ => ?_⟩
  · rintro (call | _) f ends
    · obtain ⟨c, same, faulty⟩ := phase.client_faults base ends
      exact serves c same faulty
    · obtain ⟨c, same, faulty⟩ | ⟨_, e, faulty⟩ := phase.flusher_faults i base ends
      · exact serves c same faulty
      · exact absurd (faulty.symm.trans close) nofun
  · obtain ⟨c, lfs', same, returns⟩ := phase.client_fails base ok failed
    exact reads c lfs' same returns
  · obtain ⟨rfl, closed_⟩ := phase.closed at_
    obtain rfl := Except.ok.inj (close.symm.trans closed_)
    rw [List.append_nil, ← log]
    exact ⟨rfl, carries⟩

theorem flusher_serves_log_read :
    ∃ calls s, Trace (logfsOpen blankDevice) calls [some [], some [2, 3]] s ∧
      ∃ done pending, calls = done ++ pending ∧ pending.length ≤ 1 ∧
        Answered [] done [some [], some [2, 3]] ∧
        (∀ (t : Turn) f, t.attempt s ≠ some (.error f)) ∧
        (∀ call s', clientStep call s = some (.ok s') → s'.client ≠ .failed) ∧
        (s.client = .closed → pending = [] ∧ s.lfs.device.Carries (appended calls)) := by
  have talk : (converse readBackTurns (.start (logfsOpen blankDevice))).map (fun r =>
      (r.2.1, decide ((∀ c ∈ r.1, c.Suits blankDevice) ∧
        (appended r.1).length ≤ blankDevice.size))) = some ([some [], some [2, 3]], true) := by
    decide +kernel
  obtain ⟨⟨calls, replies, s⟩, run, same⟩ := Option.map_eq_some_iff.mp talk
  obtain ⟨rfl, regular⟩ := Prod.mk.inj same
  obtain ⟨suits, fits⟩ := of_decide_eq_true regular
  exact ⟨calls, s, converse_trace readBackTurns .start run,
    flusher_serves_log blankDevice ⟨⟨2, rfl⟩, by decide, fun _ => rfl⟩
      (converse_trace readBackTurns .start run) suits fits⟩

end OsProjects.KeyValue
