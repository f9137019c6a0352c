import Mathlib.Logic.Relation
import OsProjects.KeyValue.FlusherProtocol

/-!
# The mutexes at the return of a call

A call of `logfs_append` or `logfs_read` gives both mutexes back before it returns, except
where a `device_read` returns -1: then `logfs_read` returns with `do_flush_m`, and neither
the next call nor the flusher can acquire it again.
-/
namespace OsProjects.KeyValue
open OsProjects.Library

/-- The kernel completes the `device_read`s of the copying. -/
def Logfs.Fetches (rand : Nat → Nat) : Nat → Logfs → Nat → Nat → Prop
  | 0, _, _, _ => True
  | fuel + 1, lfs, off, len =>
    if len = 0 then True
    else
      let rc := lfs.readCache
      match readCacheLookup rc off with
      | some cachedElem =>
        let toCpy := min len (rc.elemSize - (toInt (off - cachedElem.beginOffset)).toNat)
        Fetches rand fuel lfs ((off + toCpy) % 2 ^ 64) (len - toCpy)
      | none =>
        let roundedDownOff := off / rc.elemSize * rc.elemSize
        let toCpy := min len (rc.elemSize - (toInt (off - roundedDownOff)).toNat)
        (lfs.device.works lfs.device.transfers = true ∧
            roundedDownOff + rc.elemSize ≤ lfs.device.size) ∧
          Fetches rand fuel
            { lfs with
              device := { lfs.device with transfers := lfs.device.transfers + 1 }
              readCache := readCacheAdd rc (lfs.device.bytes.read roundedDownOff rc.elemSize)
                roundedDownOff (rand fuel) }
            ((off + toCpy) % 2 ^ 64) (len - toCpy)

/-- A client that is about to copy has its `device_read`s completed. -/
def Threads.Fetches (s : Threads) : Prop :=
  match s.client with
  | .copy off len rand => s.lfs.Fetches rand (len + 1) off len
  | _ => True

/-- The states of a run in which the kernel completes every `device_read`. -/
inductive Fetching (lfs : Logfs) : Threads → Prop where
  | start : Fetching lfs (.start lfs)
  | step {s s' : Threads} : Fetching lfs s → ThreadStep s s' → s'.client = s.client ∨ s.Fetches →
      Fetching lfs s'

/-- A call has returned, with success or with -1. -/
def ClientPc.returned : ClientPc → Bool
  | .idle | .failed => true
  | _ => false

/-- The client holds no mutex, and the flusher gives back what it holds. -/
structure Threads.Unlocked (s : Threads) : Prop where
  doFlush : s.doFlushM ≠ some .client
  doneFlush : s.doneFlushM ≠ some .client
  free : ∃ s' : Threads,
    Relation.ReflTransGen (fun a b => flusherStep a = some (.ok b)) s s' ∧
      s'.doFlushM = none ∧ s'.doneFlushM = none

/-- A returned client is unlocked. -/
def Threads.Balanced (s : Threads) : Prop := s.client.returned = true → s.Unlocked

section
variable {lfs lfs' : Logfs} {s s' : Threads} {rand : Nat → Nat} {fuel off len : Nat}

theorem deviceRead_completes {device next : Device} {reply : Option Bytes}
    (h : deviceRead device off len = .ok (reply, next)) :
    (reply = some (device.bytes.read off len) ∧ next = { device with
        transfers := device.transfers + 1 } ∧
      device.works device.transfers = true ∧ off + len ≤ device.size) ∨
    (reply = none ∧ ¬ (device.works device.transfers = true ∧ off + len ≤ device.size)) := by
  unfold deviceRead at h
  split at h
  · cases h
  · simp only at h
    split at h
    · next completes =>
      cases h
      exact Or.inl ⟨rfl, rfl, completes⟩
    · next fails =>
      cases h
      exact Or.inr ⟨rfl, fails⟩

/-- The copying returns -1 just when one of its `device_read`s does. -/
theorem readBlocks_fetches {reply : Option Bytes}
    (ok : readBlocks rand fuel lfs off len = .ok (reply, lfs')) :
    lfs.Fetches rand fuel off len ↔ reply ≠ none := by
  induction fuel generalizing lfs off len reply with
  | zero => cases ok
  | succ fuel ih =>
    unfold readBlocks at ok
    unfold Logfs.Fetches
    split_ifs at ok ⊢ with empty
    · cases ok
      simp
    · simp only at ok ⊢
      cases found : readCacheLookup lfs.readCache off with
      | some cachedElem =>
        simp only [found] at ok ⊢
        split_ifs at ok with wild
        split at ok
        · cases ok
        · rename_i rest left next
          cases ok
          rw [ih next]
          cases rest <;> simp
      | none =>
        simp only [found] at ok ⊢
        split at ok
        · cases ok
        · rename_i device read
          cases ok
          obtain ⟨bad, -⟩ | ⟨-, fails⟩ := deviceRead_completes read
          · cases bad
          · simp [fails]
        · rename_i tmpBuff device read
          obtain ⟨same, rfl, completes⟩ | ⟨bad, -⟩ := deviceRead_completes read
          · cases same
            split_ifs at ok with wild
            split at ok
            · cases ok
            · rename_i rest left next
              cases ok
              rw [ih next]
              cases rest <;> simp [completes]
          · cases bad

/-- Only the copying makes a call fail. -/
theorem clientStep_failed {call : ClientCall} (ok : clientStep call s = some (.ok s'))
    (failed : s'.client = .failed) : ∃ off len rand lfs', s.client = .copy off len rand ∧
      readBlocks rand (len + 1) s.lfs off len = .ok (none, lfs') ∧
      s' = { s with lfs := lfs', client := .failed } := by
  cases pc : s.client <;> simp only [clientStep, pc] at ok
  case copy off len rand =>
    split at ok
    · cases ok
    · rename_i lfs' read
      exact ⟨off, len, rand, lfs', rfl, read, go_ok ok⟩
    · obtain rfl := go_ok ok
      cases failed
  case idle =>
    obtain rfl := go_ok ok
    obtain (_ | _) | _ := call <;> cases failed
  case add buf =>
    split at ok
    · obtain rfl := go_ok ok
      cases failed
    · obtain rfl := go_ok ok
      cases failed
  case waiting c => cases ok
  case closed => cases ok
  case unlockRaise c =>
    obtain rfl := go_ok ok
    cases c <;> cases failed
  case unlockWait c =>
    obtain rfl := go_ok ok
    cases c <;> cases failed
  case test | check | join =>
    split_ifs at ok
    all_goals
      obtain rfl := go_ok ok
      cases failed
  case lockAdd | lockPost | lockRead | lockClose =>
    obtain ⟨-, rfl⟩ := lockDo_ok ok
    cases failed
  case lockRaise | lockWait | woken =>
    obtain ⟨-, rfl⟩ := lockDone_ok ok
    cases failed
  all_goals
    obtain rfl := go_ok ok
    cases failed

/-- The flusher moves the client out of a wait only. -/
theorem flusherStep_client (ok : flusherStep s = some (.ok s')) :
    s'.client = s.client ∨ s'.client = s.client.wake := by
  cases at_ : s.flusher <;> simp only [flusherStep, at_] at ok
  case waiting => cases ok
  case returned => cases ok
  case woken =>
    obtain ⟨-, rfl⟩ := lockDo_ok ok
    exact Or.inl rfl
  case lockDone =>
    obtain ⟨-, rfl⟩ := lockDone_ok ok
    exact Or.inl rfl
  case signal =>
    obtain rfl := go_ok ok
    exact Or.inr rfl
  case pass =>
    split at ok
    · cases ok
    · obtain rfl := go_ok ok
      exact Or.inl rfl
  case check | exitTest =>
    split_ifs at ok
    all_goals
      obtain rfl := go_ok ok
      exact Or.inl rfl
  all_goals
    obtain rfl := go_ok ok
    exact Or.inl rfl

theorem ThreadStep.works (step : ThreadStep s s') (works : s.client ≠ .failed)
    (fetches : s'.client = s.client ∨ s.Fetches) : s'.client ≠ .failed := by
  intro failed
  cases step with
  | client call ok =>
    obtain ⟨off, len, rand, lfs', pc, read, -⟩ := clientStep_failed ok failed
    obtain same | fetches := fetches
    · exact works (same.symm.trans failed)
    · rw [Threads.Fetches, pc] at fetches
      exact (readBlocks_fetches read).mp fetches rfl
  | flusher ok =>
    obtain same | same := flusherStep_client ok
    · exact works (same.symm.trans failed)
    · rw [failed] at same
      generalize s.client = pc at same works
      cases pc with
      | failed => exact works rfl
      | _ => cases same
  | wakeClient c pc => cases failed
  | wakeFlusher at_ => exact works failed

theorem Fetching.reaches (run : Fetching lfs s) : Reaches lfs s ∧ s.client ≠ .failed := by
  induction run with
  | start => exact ⟨.start, nofun⟩
  | step _ step fetches ih =>
    have works := step.works ih.2 fetches
    exact ⟨ih.1.step step works, works⟩

/-- A run without a failed read is one in which every `device_read` completes. -/
theorem Reaches.fetching (run : Reaches lfs s) : Fetching lfs s := by
  induction run with
  | start => exact .start
  | step _ step works ih =>
    rename_i s s' _
    refine ih.step step ?_
    cases pc : s.client
    case copy off len rand =>
      cases step with
      | client call ok =>
        right
        rw [Threads.Fetches, pc]
        simp only [clientStep, pc] at ok
        split at ok
        · cases ok
        · obtain rfl := go_ok ok
          exact absurd rfl works
        · rename_i read
          exact (readBlocks_fetches read).mpr (by simp)
      | flusher ok =>
        left
        obtain same | same := flusherStep_client ok
        · exact same.trans pc
        · rw [same, pc]
          rfl
      | wakeClient c waits =>
        rw [waits] at pc
        cases pc
      | wakeFlusher at_ => exact Or.inl pc
    all_goals
      right
      rw [Threads.Fetches, pc]
      trivial

theorem Reaches.steps (run : Reaches lfs s) : Relation.ReflTransGen ThreadStep (.start lfs) s := by
  induction run with
  | start => exact .refl
  | step _ step _ ih => exact ih.tail step

theorem Held.free {m : Option Tid} (held : Held m false false) : m = none := by
  by_contra taken
  cases held.of_client taken

/-- Between two calls the flusher goes back to its wait. -/
theorem Threads.In.unlocked (i : s.In .quiet) (pc : s.client = .idle) : s.Unlocked := by
  have doFlush := i.doFlush
  have doneFlush := i.doneFlush
  rw [pc] at doFlush doneFlush
  have notPosted : s.flushAvailable = false := i.available
  have running : s.exitFlusher = false := i.exits
  constructor
  case doFlush =>
    intro held
    cases doFlush.client.mp held
  case doneFlush =>
    intro held
    cases doneFlush.client.mp held
  have sleeps : ∀ r : Threads, r.flusher = .check → r.flushAvailable = false →
      r.exitFlusher = false →
      flusherStep r = some (.ok { r with doFlushM := none, flusher := .waiting }) := by
    intro r at_ notPosted running
    simp [flusherStep, at_, notPosted, running, Threads.go]
  have gives : ∀ r : Threads, r.flusher = .unlockDone →
      flusherStep r = some (.ok { r with doneFlushM := none, flusher := .check }) := by
    intro r at_
    simp only [flusherStep, at_, Threads.go]
  have allowed := i.flusher
  cases at_ : s.flusher <;> rw [at_] at allowed doFlush doneFlush
  case waiting | woken => exact ⟨s, .refl, doFlush.free, doneFlush.free⟩
  case check => exact ⟨_, .single (sleeps s at_ notPosted running), rfl, doneFlush.free⟩
  case unlockDone =>
    exact ⟨_, .tail (.single (gives s at_)) (sleeps _ rfl notPosted running), rfl, rfl⟩
  case signal =>
    have signals : flusherStep s =
        some (.ok { s with client := s.client.wake, flusher := .unlockDone }) := by
      simp only [flusherStep, at_, Threads.go]
    exact ⟨_, .tail (.tail (.single signals) (gives _ rfl)) (sleeps _ rfl notPosted running),
      rfl, rfl⟩
  all_goals cases allowed

theorem Fetching.balanced (run : Fetching lfs s) : s.Balanced := by
  intro returned
  obtain ⟨reaches, works⟩ := run.reaches
  obtain ⟨g, i⟩ := reaches.stage
  have allowed := i.client
  cases pc : s.client <;> rw [pc] at returned allowed works
  case idle =>
    obtain rfl := Stage.eq_quiet allowed (by simp) rfl
    exact i.unlocked pc
  case failed => exact absurd rfl works
  all_goals cases returned

/-- A call that fails keeps `do_flush_m`. -/
theorem Fetching.failed (run : Fetching lfs s) {call : ClientCall}
    (ok : clientStep call s = some (.ok s')) (failed : s'.client = .failed) :
    s'.doFlushM = some .client ∧ ¬ s.Fetches := by
  obtain ⟨g, i⟩ := run.reaches.1.stage
  obtain ⟨off, len, rand, lfs', pc, read, rfl⟩ := clientStep_failed ok failed
  have doFlush := i.doFlush
  rw [pc] at doFlush
  refine ⟨doFlush.client.mpr rfl, ?_⟩
  rw [Threads.Fetches, pc]
  exact fun fetches => (readBlocks_fetches read).mp fetches rfl

/-- A call that waits for `do_flush_m` or has yet to. -/
def ClientPc.blocked : ClientPc → Bool
  | .lockAdd _ | .lockClose => true
  | .lockRaise c | .raise c | .unlockRaise c | .lockPost c => c.mode
  | _ => false

/-- A client that keeps `do_flush_m` never gets out of its next call, and the flusher never makes
another pass. -/
structure Threads.Hangs (s : Threads) : Prop where
  doFlush : s.doFlushM = some .client
  client : s.client.blocked = true
  flusher : s.flusher = .waiting ∨ s.flusher = .woken

theorem Threads.Hangs.step (hangs : s.Hangs) (step : ThreadStep s s') : s'.Hangs := by
  obtain ⟨doFlush, client, flusher⟩ := hangs
  have taken : s.doFlushM ≠ none := by simp [doFlush]
  cases step with
  | client call ok =>
    cases pc : s.client <;> rw [pc] at client <;> simp only [clientStep, pc] at ok
    case lockAdd | lockClose | lockPost => exact absurd (lockDo_ok ok).1 taken
    case lockRaise c =>
      obtain ⟨-, rfl⟩ := lockDone_ok ok
      exact ⟨doFlush, client, flusher⟩
    case raise c =>
      obtain rfl := go_ok ok
      exact ⟨doFlush, client, flusher⟩
    case unlockRaise c =>
      obtain rfl := go_ok ok
      refine ⟨doFlush, ?_, flusher⟩
      cases c <;> first | rfl | cases client
    all_goals cases client
  | flusher ok =>
    obtain at_ | at_ := flusher <;> simp only [flusherStep, at_] at ok
    · cases ok
    · exact absurd (lockDo_ok ok).1 taken
  | wakeClient c pc =>
    rw [pc] at client
    cases client
  | wakeFlusher at_ => exact ⟨doFlush, client, Or.inr rfl⟩

/-- Whatever is called after a read that failed waits for ever. -/
theorem Fetching.hangs (run : Fetching lfs s) {call : ClientCall}
    (ok : clientStep call s = some (.ok s')) (failed : s'.client = .failed) (next : ClientCall)
    {t : Threads} (later : Relation.ReflTransGen ThreadStep { s' with client := next.start } t) :
    t.Hangs := by
  obtain ⟨g, i⟩ := run.reaches.1.stage
  have doFlush := i.doFlush
  obtain ⟨off, len, rand, lfs', pc, read, rfl⟩ := clientStep_failed ok failed
  rw [pc] at doFlush
  induction later with
  | refl =>
    refine ⟨doFlush.client.mpr rfl, ?_, ?_⟩
    · obtain (_ | _) | _ := next <;> rfl
    · have apart := doFlush.apart
      generalize s.flusher = fpc at apart
      cases fpc <;> first | exact Or.inl rfl | exact Or.inr rfl | cases apart
  | tail _ step ih => exact ih.step step

/-- In every run in which the kernel completes each `device_read` a client whose call has returned
holds no mutex, and the first step of which this is false is that of a read one of whose
`device_read`s fails. -/
theorem calls_unlock (run : Fetching lfs s) :
    s.Balanced ∧ ∀ call s', clientStep call s = some (.ok s') → (s'.Balanced ↔ s.Fetches) := by
  refine ⟨run.balanced, fun call s' ok => ⟨fun balanced => ?_, fun fetches => ?_⟩⟩
  · cases pc : s.client
    case copy off len rand =>
      rw [Threads.Fetches, pc]
      have step := ok
      simp only [clientStep, pc] at step
      split at step
      · cases step
      · obtain rfl := go_ok step
        exact absurd (run.failed ok rfl).1 (balanced rfl).doFlush
      · rename_i read
        exact (readBlocks_fetches read).mpr (by simp)
    all_goals
      rw [Threads.Fetches, pc]
      trivial
  · exact (run.step (.client call ok) (Or.inr fetches)).balanced

end

/-- A read that finds nothing to flush, up to its copying. -/
def readTurns : List Turn :=
  List.replicate 10 (.client (.call (.read 0 2 fun _ => 0))) ++ List.replicate 9 .flusher ++
    List.replicate 4 (.client .close)

theorem calls_unlock_read : ∃ s, follow (readTurns ++ List.replicate 2 (.client .close))
    (.start (logfsOpen blankDevice)) = some s ∧ s.client.returned = true ∧ s.Balanced := by
  have run : (follow (readTurns ++ List.replicate 2 (.client .close))
      (.start (logfsOpen blankDevice))).map (·.client.returned) = some true := by decide +kernel
  obtain ⟨s, follows, returned⟩ := Option.map_eq_some_iff.mp run
  exact ⟨s, follows, returned, (calls_unlock (follow_reaches _ .start follows).fetching).1⟩

/-- A device that completes no transfer. -/
def deadDevice : Device := { blankDevice with works := fun _ => false }

/-- The first `device_read` fails. -/
theorem failed_read_keeps_lock : ¬ ∀ (lfs : Logfs) (s : Threads),
    Relation.ReflTransGen ThreadStep (.start lfs) s → s.Balanced := by
  intro balanced
  have run : (follow readTurns (.start (logfsOpen deadDevice))).bind (fun s =>
      ((clientStep .close s).bind Except.toOption).map (·.client.hasFailed)) = some true := by
    decide +kernel
  obtain ⟨s, follows, step⟩ := Option.bind_eq_some_iff.mp run
  obtain ⟨s', ok, failed⟩ := Option.map_eq_some_iff.mp step
  obtain ⟨reply, ok, same⟩ := Option.bind_eq_some_iff.mp ok
  have reaches := follow_reaches readTurns .start follows
  cases reply with
  | error e => cases same
  | ok next =>
    cases same
    have pc : s'.client = .failed := by
      generalize s'.client = pc at failed
      cases pc <;> first | rfl | cases failed
    have unlocked := balanced _ s' (reaches.steps.tail (.client .close ok)) (by rw [pc]; rfl)
    exact unlocked.doFlush (reaches.fetching.failed ok pc).1

end OsProjects.KeyValue
