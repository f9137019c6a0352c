import OsProjects.KeyValue.LogfsLog

/-!
# Runs of logfs

A session is a handle with the bytes appended through it. In every run whose appends
drain whole blocks and do not fill the write buffer exactly, and whose reads leave no
stale block in the cache, reads return the appended bytes. A close then leaves the
whole log on the device exactly when its single pass flushes.
-/
namespace OsProjects.KeyValue
open OsProjects.Library

inductive LogCall where
  | append (buf : Bytes)
  | read (off len : Nat) (rand : Nat → Nat)

structure LogSession where
  logfs : Logfs
  log : Bytes

/-- The concatenation of the appended buffers after a call. -/
def LogCall.after (log : Bytes) : LogCall → Bytes
  | .append buf => log ++ buf
  | .read .. => log

def LogSession.start (device : Device) : LogSession := ⟨logfsOpen device, []⟩

/-- One call and the bytes it answers; an append answers none, and `none` is the return value
-1 of a read. -/
def LogSession.step (s : LogSession) : LogCall → Except Fault (Option Bytes × LogSession)
  | .append buf =>
    match logfsAppend s.logfs buf with
    | .error e => .error e
    | .ok logfs => .ok (some [], ⟨logfs, s.log ++ buf⟩)
  | .read off len rand =>
    match logfsRead s.logfs rand off len with
    | .error e => .error e
    | .ok (reply, logfs) => .ok (reply, ⟨logfs, s.log⟩)

def LogSession.run (s : LogSession) :
    List LogCall → Except Fault (List (Option Bytes) × LogSession)
  | [] => .ok ([], s)
  | c :: cs =>
    match s.step c with
    | .error e => .error e
    | .ok (reply, s) =>
      match s.run cs with
      | .error e => .error e
      | .ok (replies, s) => .ok (reply :: replies, s)

/-- The answer a call has to give: a read of appended bytes returns them. -/
def LogCall.Right (log : Bytes) : LogCall → Option Bytes → Prop
  | .append _, _ => True
  | .read off len _, reply => off + len ≤ log.length → reply = some ((log.drop off).take len)

def Answered : Bytes → List LogCall → List (Option Bytes) → Prop
  | log, c :: cs, reply :: replies => c.Right log reply ∧ Answered (c.after log) cs replies
  | _, [], [] => True
  | _, _, _ => False

/-- The log fits the device, and a read stays on it. -/
def LogSession.Fits (s : LogSession) : LogCall → Prop
  | .append buf => s.log.length + buf.length ≤ s.logfs.device.size
  | .read off len _ => off + len ≤ s.logfs.device.size

/-- An append drains whole blocks only and does not fill the write buffer; what a read peeks can
be rounded up. -/
def LogSession.Flows (s : LogSession) : LogCall → Prop
  | .append buf => s.logfs.Takes buf.length
  | .read .. => s.logfs.Rounds

/-- The flush before a read leaves no stale block in the cache. -/
def LogSession.Spares (s : LogSession) : LogCall → Prop
  | .append _ => True
  | .read .. => s.logfs.Spares s.log

/-- Every step of a run meets a condition. -/
def LogSession.Admits (ok : LogSession → LogCall → Prop) (s : LogSession) : List LogCall → Prop
  | [] => True
  | c :: cs => ok s c ∧
    match s.step c with
    | .error _ => True
    | .ok (_, s') => s'.Admits ok cs

def LogSession.decidableAdmits (ok : LogSession → LogCall → Prop) [∀ s c, Decidable (ok s c)] :
    (cs : List LogCall) → (s : LogSession) → Decidable (s.Admits ok cs)
  | [], _ => .isTrue trivial
  | c :: cs, s =>
    match step : s.step c with
    | .error _ => decidable_of_iff (ok s c) (by simp [Admits, step])
    | .ok (_, s') =>
      have := decidableAdmits ok cs s'
      decidable_of_iff (ok s c ∧ s'.Admits ok cs) (by simp [Admits, step])

instance (ok : LogSession → LogCall → Prop) [∀ s c, Decidable (ok s c)] (s : LogSession)
    (cs : List LogCall) : Decidable (s.Admits ok cs) :=
  LogSession.decidableAdmits ok cs s

instance (s : LogSession) : (c : LogCall) → Decidable (s.Fits c)
  | .append _ | .read .. => Nat.decLe _ _

instance (s : LogSession) : (c : LogCall) → Decidable (s.Flows c)
  | .append _ => inferInstanceAs (Decidable (_ ∨ _))
  | .read .. => inferInstanceAs (Decidable (_ → _))

instance (s : LogSession) : (c : LogCall) → Decidable (s.Spares c)
  | .append _ => .isTrue trivial
  | .read .. => inferInstanceAs (Decidable (_ → ∀ _ ∈ _, _))

/-- The replies of a run and the first `n` bytes of the device after a close. -/
def LogSession.observe (s : LogSession) (cs : List LogCall) (n : Nat) :
    Option (List (Option Bytes) × Bytes) :=
  match s.run cs with
  | .error _ => none
  | .ok (replies, s) =>
    match logfsClose s.logfs with
    | .error _ => none
    | .ok closed => some (replies, closed.bytes.read 0 n)

section
variable {s : LogSession}

theorem LogSession.step_rep (h : s.logfs.Rep s.log) (c : LogCall) (fits : s.Fits c)
    (flows : s.Flows c) :
    ∃ reply s', s.step c = .ok (reply, s') ∧ s'.log = c.after s.log ∧ s'.logfs.Rep s'.log ∧
      (s.logfs.Coherent → s.Spares c → s'.logfs.Coherent ∧ c.Right s.log reply) := by
  cases c with
  | append buf =>
    obtain ⟨logfs, ok, rep, _, coherent⟩ := logfsAppend_spec h flows fits
    exact ⟨some [], ⟨logfs, s.log ++ buf⟩, by simp only [LogSession.step, ok], rfl, rep,
      fun old _ => ⟨coherent old, trivial⟩⟩
  | read off len rand =>
    obtain ⟨data, logfs, ok, rep, _, right⟩ := logfsRead_spec h rand flows fits
    refine ⟨some data, ⟨logfs, s.log⟩, by simp only [LogSession.step, ok], rfl, rep, ?_⟩
    intro old spares
    obtain ⟨coherent, exact_⟩ := right old spares
    exact ⟨coherent, fun inside => by rw [exact_ inside]⟩

/-- A run whose steps flow keeps the log, whatever the cache holds. -/
theorem LogSession.run_rep (cs : List LogCall) (h : s.logfs.Rep s.log)
    (admits : s.Admits (fun s c => s.Fits c ∧ s.Flows c) cs) :
    ∃ replies s', s.run cs = .ok (replies, s') ∧ s'.log = cs.foldl LogCall.after s.log ∧
      s'.logfs.Rep s'.log := by
  induction cs generalizing s with
  | nil => exact ⟨[], s, rfl, rfl, h⟩
  | cons c cs ih =>
    obtain ⟨⟨fits, flows⟩, rest⟩ := admits
    obtain ⟨reply, s₁, ok, log₁, rep, _⟩ := s.step_rep h c fits flows
    simp only [ok] at rest
    obtain ⟨replies, s₂, run, log₂, rep₂⟩ := ih rep rest
    exact ⟨reply :: replies, s₂, by simp only [LogSession.run, ok, run],
      by rw [log₂, log₁, List.foldl_cons], rep₂⟩

theorem LogSession.observe_eq {cs : List LogCall} {n : Nat} {replies : List (Option Bytes)}
    {bytes : Bytes} (h : s.observe cs n = some (replies, bytes)) :
    ∃ s' closed, s.run cs = .ok (replies, s') ∧ logfsClose s'.logfs = .ok closed ∧
      closed.bytes.read 0 n = bytes := by
  unfold observe at h
  cases run : s.run cs with
  | error e => simp [run] at h
  | ok result =>
    obtain ⟨replies', s'⟩ := result
    cases close : logfsClose s'.logfs with
    | error e => simp [run, close] at h
    | ok closed =>
      simp only [run, close, Option.some.injEq, Prod.mk.injEq] at h
      exact ⟨s', closed, by rw [h.1], close, h.2⟩

theorem LogSession.run_answered (cs : List LogCall) (h : s.logfs.Rep s.log)
    (coherent : s.logfs.Coherent)
    (admits : s.Admits (fun s c => s.Fits c ∧ s.Flows c ∧ s.Spares c) cs) :
    ∃ replies s', s.run cs = .ok (replies, s') ∧ Answered s.log cs replies := by
  induction cs generalizing s with
  | nil => exact ⟨[], s, rfl, trivial⟩
  | cons c cs ih =>
    obtain ⟨⟨fits, flows, spares⟩, rest⟩ := admits
    obtain ⟨reply, s₁, ok, log₁, rep, right⟩ := s.step_rep h c fits flows
    obtain ⟨coherent₁, right⟩ := right coherent spares
    simp only [ok] at rest
    obtain ⟨replies, s₂, run, answered⟩ := ih rep coherent₁ rest
    exact ⟨reply :: replies, s₂, by simp only [LogSession.run, ok, run],
      right, log₁ ▸ answered⟩

theorem logfsOpen_rep {device : Device} (power : ∃ k, device.block = 2 ^ k)
    (block_lt : device.block < 2 ^ 31) (works : ∀ n, device.works n = true) :
    (logfsOpen device).Rep [] := by
  have block_pos := device.block_pos
  have size : (logfsOpen device).writeBuffer.size = wcacheBlocks * device.block := rfl
  have divides : Divides64 (wcacheBlocks * device.block) := by
    obtain ⟨k, hk⟩ := power
    have exponent : k < 31 := by
      rw [hk] at block_lt
      exact (Nat.pow_lt_pow_iff_right (by decide)).mp block_lt
    have ring : wcacheBlocks * device.block = 2 ^ (5 + k) := by
      rw [hk, Nat.pow_add]
      rfl
    exact ⟨by simp only [wcacheBlocks]; omega, ring ▸ Nat.pow_dvd_pow 2 (by omega)⟩
  refine ⟨⟨works, rfl, block_lt, rfl, size, divides, Nat.dvd_zero _, Nat.le_refl 0, ?_, rfl,
    Nat.zero_le _⟩, ?_⟩
  · exact writeBufferOpen_holds (by simp only [wcacheBlocks]; omega)
  · show 0 + device.block < wcacheBlocks * device.block
    simp only [wcacheBlocks]
    omega

end

/-- Reads return the appended bytes in every run on a fresh logfs whose appends drain whole blocks
without filling the write buffer and whose reads leave no stale block in the cache. -/
theorem logfs_reads_log (device : Device) (power : ∃ k, device.block = 2 ^ k)
    (block_lt : device.block < 2 ^ 31) (works : ∀ n, device.works n = true) (calls : List LogCall)
    (admits : (LogSession.start device).Admits
      (fun s c => s.Fits c ∧ s.Flows c ∧ s.Spares c) calls) :
    ∃ replies s, (LogSession.start device).run calls = .ok (replies, s) ∧
      Answered [] calls replies :=
  LogSession.run_answered calls (logfsOpen_rep power block_lt works)
    (readCacheOpen_coherent _ _ _) admits

/-- A zeroed device of 64 blocks of 4 bytes. -/
def blankDevice : Device where
  bytes _ := 0
  size := 256
  block := 4
  works _ := true
  transfers := 0
  block_pos := by decide
  block_lt := by decide
  size_lt := by decide
  whole := by decide

/-- A read of a partial block, an append to it and a read across it. -/
def mixedCalls : List LogCall :=
  [.append [1, 2, 3, 4, 5, 6], .read 1 5 fun _ => 0, .append [7, 8, 9], .read 3 6 fun _ => 0]

theorem logfs_reads_log_mixed :
    ∃ replies s, (LogSession.start blankDevice).run mixedCalls = .ok (replies, s) ∧
      Answered [] mixedCalls replies :=
  logfs_reads_log blankDevice ⟨2, rfl⟩ (by decide) (fun _ => rfl) mixedCalls (by decide +kernel)

/-- An append that fills the write buffer exactly is lost. -/
theorem logfs_reads_full_ring :
    ∃ replies s, (LogSession.start blankDevice).run
        [.append (List.replicate 128 1), .read 0 1 fun _ => 0] = .ok (replies, s) ∧
      ¬ Answered [] [.append (List.replicate 128 1), .read 0 1 fun _ => 0] replies := by
  have lost : (LogSession.start blankDevice).observe
      [.append (List.replicate 128 1), .read 0 1 fun _ => 0] 0 = some ([some [], some [0]], []) := by
    decide +kernel
  obtain ⟨s, _, run, _⟩ := LogSession.observe_eq lost
  refine ⟨_, s, run, ?_⟩
  rintro ⟨_, right, _⟩
  have one := right (by simp [LogCall.after])
  simp [LogCall.after] at one

/-- After a run whose steps flow, a close leaves the concatenation of the appended buffers on the
device exactly when its last pass flushes. -/
theorem logfs_close_flushes (device : Device) (power : ∃ k, device.block = 2 ^ k)
    (block_lt : device.block < 2 ^ 31) (works : ∀ n, device.works n = true) (calls : List LogCall)
    (admits : (LogSession.start device).Admits (fun s c => s.Fits c ∧ s.Flows c) calls)
    (rounds : ∀ replies s, (LogSession.start device).run calls = .ok (replies, s) →
      s.logfs.dontDequeueWb = true → s.logfs.Rounds) :
    ∃ replies s closed, (LogSession.start device).run calls = .ok (replies, s) ∧
      logfsClose s.logfs = .ok closed ∧ s.log = calls.foldl LogCall.after [] ∧
      (closed.bytes.read 0 s.log.length = s.log ↔ s.logfs.Flushes s.log) := by
  obtain ⟨replies, s, run, log, rep⟩ := LogSession.run_rep calls
    (logfsOpen_rep power block_lt works) admits
  obtain ⟨closed, close, iff⟩ := logfsClose_spec rep (rounds replies s run)
  exact ⟨replies, s, closed, run, close, log, iff⟩

theorem logfs_close_flushes_mixed :
    ∃ replies s closed, (LogSession.start blankDevice).run mixedCalls = .ok (replies, s) ∧
      logfsClose s.logfs = .ok closed ∧ s.log = mixedCalls.foldl LogCall.after [] ∧
      (closed.bytes.read 0 s.log.length = s.log ↔ s.logfs.Flushes s.log) := by
  refine logfs_close_flushes blankDevice ⟨2, rfl⟩ (by decide) (fun _ => rfl) mixedCalls
    (by decide +kernel) fun replies s run mode => ?_
  have drains : (((LogSession.start blankDevice).run mixedCalls).toOption.map
      fun end_ => end_.2.logfs.dontDequeueWb) = some false := by decide +kernel
  simp [run, Except.toOption, mode] at drains

/-- Of three appended blocks the append drains one and the close another. -/
theorem logfs_close_three_blocks :
    ∃ replies s closed, (LogSession.start blankDevice).run [.append (List.replicate 12 1)] =
        .ok (replies, s) ∧
      logfsClose s.logfs = .ok closed ∧ closed.bytes.read 0 12 ≠ List.replicate 12 1 := by
  have left : (LogSession.start blankDevice).observe [.append (List.replicate 12 1)] 12 =
      some ([some []], List.replicate 8 1 ++ List.replicate 4 0) := by decide +kernel
  obtain ⟨s, closed, run, close, bytes⟩ := LogSession.observe_eq left
  exact ⟨_, s, closed, run, close, by rw [bytes]; decide⟩

end OsProjects.KeyValue
