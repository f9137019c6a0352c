import OsProjects.KeyValue.Chains

/-!
# A logfs whose calls fail

The header of logfs allows every read and every append to return an error, without an
effect. The layers above give up at the first error, so one failing call is all that an
operation can meet. `FaultyLog` is the log with the failure that is still to come. Reading
through it either stops at the failure or does what the ideal log does.
-/
namespace OsProjects.KeyValue
open OsProjects.Library

/-- The call that fails, after `n` calls of its kind that do not. -/
inductive Failure where
  | read (n : Nat)
  | append (n : Nat)
  deriving DecidableEq, Repr

structure FaultyLog where
  log : Bytes
  failure : Option Failure
  deriving DecidableEq, Repr

/-- The ideal log with one failing call. -/
def faultyLogfs : LogfsOps FaultyLog where
  append s buf :=
    match s.failure with
    | some (.append 0) => (-1, ⟨s.log, none⟩)
    | some (.append (n + 1)) => (0, ⟨s.log ++ buf, some (.append n)⟩)
    | failure => (0, ⟨s.log ++ buf, failure⟩)
  read s off len :=
    match s.failure with
    | some (.read 0) => (none, ⟨s.log, none⟩)
    | some (.read (n + 1)) => ((idealLogfs.read s.log off len).1, ⟨s.log, some (.read n)⟩)
    | failure => ((idealLogfs.read s.log off len).1, ⟨s.log, failure⟩)

/-- The handle with a failure to come. -/
def Kvraw.arm (kvraw : Kvraw FaultyLog) (failure : Option Failure) : Kvraw FaultyLog :=
  { kvraw with logfs := ⟨kvraw.logfs.log, failure⟩ }

/-- The handle on the ideal log. -/
def Kvraw.ideal (kvraw : Kvraw FaultyLog) : Kvraw Bytes := ⟨kvraw.size, kvraw.logfs.log⟩

@[simp] theorem Kvraw.size_arm (kvraw : Kvraw FaultyLog) (f : Option Failure) :
    (kvraw.arm f).size = kvraw.size := rfl

@[simp] theorem Kvraw.log_arm (kvraw : Kvraw FaultyLog) (f : Option Failure) :
    (kvraw.arm f).logfs.log = kvraw.logfs.log := rfl

@[simp] theorem Kvraw.failure_arm (kvraw : Kvraw FaultyLog) (f : Option Failure) :
    (kvraw.arm f).logfs.failure = f := rfl

@[simp] theorem Kvraw.arm_arm (kvraw : Kvraw FaultyLog) (f g : Option Failure) :
    (kvraw.arm f).arm g = kvraw.arm g := rfl

@[simp] theorem Kvraw.ideal_arm (kvraw : Kvraw FaultyLog) (f : Option Failure) :
    (kvraw.arm f).ideal = kvraw.ideal := rfl

/-- What is left of the failure after some reads that did not meet it. -/
def Survives : Option Failure → Option Failure → Prop
  | some (.read _), left => ∃ n, left = some (.read n)
  | failure, left => left = failure

theorem Survives.refl (f : Option Failure) : Survives f f := by
  rcases f with _ | _ | _ <;> simp [Survives]

theorem Survives.trans {f g h : Option Failure} (first : Survives f g) (second : Survives g h) :
    Survives f h := by
  rcases f with _ | n | n
  · obtain rfl : g = none := first
    exact second
  · obtain ⟨m, rfl⟩ : ∃ m, g = some (.read m) := first
    exact second
  · obtain rfl : g = some (.append n) := first
    exact second

theorem Survives.read_iff {f g : Option Failure} (h : Survives f g) :
    (∃ n, f = some (.read n)) ↔ ∃ n, g = some (.read n) := by
  rcases f with _ | n | n
  · obtain rfl : g = none := h
    simp
  · obtain ⟨m, rfl⟩ : ∃ m, g = some (.read m) := h
    simp
  · obtain rfl : g = some (.append n) := h
    simp

/-- A call that only reads: the failing read stops it, or it does what it does on the ideal log. -/
def Kvraw.Tracks {α : Type} (kvraw : Kvraw FaultyLog)
    (faulty : Except Fault (Option α × Kvraw FaultyLog))
    (ideal : Except Fault (Option α × Kvraw Bytes)) : Prop :=
  (∃ n, kvraw.logfs.failure = some (.read n)) ∧ faulty = .ok (none, kvraw.arm none) ∨
    (∃ f a, Survives kvraw.logfs.failure f ∧ ideal = .ok (a, kvraw.ideal) ∧
      faulty = .ok (a, kvraw.arm f)) ∨
    ∃ e, ideal = .error e ∧ faulty = .error e

theorem Kvraw.Tracks.answer {α : Type} (kvraw : Kvraw FaultyLog) (a : Option α) :
    kvraw.Tracks (.ok (a, kvraw)) (.ok (a, kvraw.ideal)) :=
  Or.inr (Or.inl ⟨_, a, Survives.refl _, rfl, rfl⟩)

theorem Kvraw.Tracks.stop {α : Type} (kvraw : Kvraw FaultyLog) (e : Fault) :
    kvraw.Tracks (α := α) (.error e) (.error e) := Or.inr (Or.inr ⟨e, rfl, rfl⟩)

/-- What follows a part that read without an error tracks as the whole does. -/
theorem Kvraw.Tracks.after {α : Type} {kvraw : Kvraw FaultyLog} {f : Option Failure}
    {faulty : Except Fault (Option α × Kvraw FaultyLog)}
    {ideal : Except Fault (Option α × Kvraw Bytes)} (left : Survives kvraw.logfs.failure f)
    (h : (kvraw.arm f).Tracks faulty ideal) : kvraw.Tracks faulty ideal := by
  obtain ⟨failing, stop⟩ | ⟨g, a, next, ok, same⟩ | fault := h
  · exact Or.inl ⟨left.read_iff.mpr failing, stop⟩
  · exact Or.inr (Or.inl ⟨g, a, left.trans next, ok, same⟩)
  · exact Or.inr (Or.inr fault)

theorem read_cases (kvraw : Kvraw FaultyLog) (off len : Nat) :
    (∃ n, kvraw.logfs.failure = some (.read n)) ∧
        faultyLogfs.read kvraw.logfs off len = (none, (kvraw.arm none).logfs) ∨
      ∃ f data, Survives kvraw.logfs.failure f ∧
        faultyLogfs.read kvraw.logfs off len = (data, (kvraw.arm f).logfs) ∧
        idealLogfs.read kvraw.ideal.logfs off len = (data, kvraw.ideal.logfs) := by
  obtain ⟨size, log, failure⟩ := kvraw
  rcases failure with _ | (_ | n) | n
  · exact Or.inr ⟨none, _, rfl, rfl, rfl⟩
  · exact Or.inl ⟨⟨0, rfl⟩, rfl⟩
  · exact Or.inr ⟨some (.read n), _, ⟨n, rfl⟩, rfl, rfl⟩
  · exact Or.inr ⟨some (.append n), _, rfl, rfl, rfl⟩

theorem readMeta_tracks (kvraw : Kvraw FaultyLog) (off : Nat) :
    kvraw.Tracks (.ok (readMeta faultyLogfs kvraw off))
      (.ok (readMeta idealLogfs kvraw.ideal off)) := by
  have same_size : kvraw.ideal.size = kvraw.size := rfl
  simp only [readMeta, same_size]
  split_ifs with outside
  · exact .answer kvraw none
  · obtain ⟨failing, stop⟩ | ⟨f, data, left, same, log⟩ := read_cases kvraw off metaLen
    · rw [stop]
      exact Or.inl ⟨failing, rfl⟩
    · rw [same, log]
      refine Kvraw.Tracks.after left ?_
      cases data with
      | none => exact .answer (kvraw.arm f) none
      | some buf =>
        simp only
        split_ifs with bad
        · exact .answer (kvraw.arm f) none
        · exact .answer (kvraw.arm f) _

theorem kvrawLookup_tracks (kvraw : Kvraw FaultyLog) (keyLen : Nat) (val : Option Bytes)
    (valLen off : Nat) :
    kvraw.Tracks (kvrawLookup faultyLogfs kvraw keyLen val valLen off)
      (kvrawLookup idealLogfs kvraw.ideal keyLen val valLen off) := by
  unfold kvrawLookup
  split_ifs with missing zero
  · exact .stop kvraw _
  · exact .stop kvraw _
  · obtain ⟨failing, stop⟩ | ⟨f, m, left, ok, same⟩ | ⟨e, ok, _⟩ := readMeta_tracks kvraw off
    · rw [Except.ok.inj stop]
      exact Or.inl ⟨failing, rfl⟩
    · rw [Except.ok.inj ok, Except.ok.inj same]
      refine Kvraw.Tracks.after left ?_
      cases m with
      | none => exact .answer (kvraw.arm f) none
      | some m =>
        simp only
        obtain ⟨failing, stop⟩ | ⟨g, key, left, same, log⟩ :=
          read_cases (kvraw.arm f) (off + metaLen) (min m.keyLen keyLen)
        · rw [stop]
          exact Or.inl ⟨failing, rfl⟩
        · rw [same, show kvraw.ideal = (kvraw.arm f).ideal from rfl, log]
          refine Kvraw.Tracks.after left ?_
          cases key with
          | none => exact .answer (kvraw.arm g) none
          | some key =>
            obtain ⟨failing, stop⟩ | ⟨h, data, left, same, log⟩ :=
              read_cases (kvraw.arm g) (off + metaLen + m.keyLen) (min m.valLen valLen)
            · simp only [Kvraw.arm_arm, Kvraw.ideal_arm] at stop ⊢
              rw [stop]
              exact Or.inl ⟨failing, rfl⟩
            · simp only [Kvraw.arm_arm, Kvraw.ideal_arm] at same log ⊢
              rw [same, log]
              refine Kvraw.Tracks.after left ?_
              cases data with
              | none => exact .answer (kvraw.arm h) none
              | some data => exact .answer (kvraw.arm h) _
    · cases ok

theorem chainLookup_tracks (fuel : Nat) (kvraw : Kvraw FaultyLog) (key : Bytes)
    (val : Option Bytes) (valLen off : Nat) :
    kvraw.Tracks (chainLookup faultyLogfs fuel kvraw key val valLen off)
      (chainLookup idealLogfs fuel kvraw.ideal key val valLen off) := by
  induction fuel generalizing kvraw val off with
  | zero => exact .stop kvraw _
  | succ fuel ih =>
    simp only [chainLookup]
    split_ifs with zero
    · exact .answer kvraw _
    · obtain ⟨failing, stop⟩ | ⟨f, found, left, ok, same⟩ | ⟨e, ok, same⟩ :=
        kvrawLookup_tracks kvraw (min key.length 256) val valLen off
      · rw [stop]
        exact Or.inl ⟨failing, rfl⟩
      · rw [ok, same]
        refine Kvraw.Tracks.after left ?_
        cases found with
        | none => exact .answer (kvraw.arm f) none
        | some found =>
          simp only
          split_ifs with mismatch long whole
          · exact ih (kvraw.arm f) found.val found.off
          · obtain ⟨failing, stop⟩ | ⟨g, again, left, ok, same⟩ | ⟨e, ok, same⟩ :=
              kvrawLookup_tracks (kvraw.arm f) found.keyLen found.val 0 off
            · rw [stop]
              exact Or.inl ⟨failing, rfl⟩
            · rw [show kvraw.ideal = (kvraw.arm f).ideal from rfl, ok, same]
              refine Kvraw.Tracks.after left ?_
              cases again with
              | none => exact .answer (kvraw.arm g) none
              | some again =>
                simp only [Kvraw.arm_arm, Kvraw.ideal_arm]
                split_ifs
                · exact .answer (kvraw.arm g) _
                · exact ih (kvraw.arm g) again.val again.off
            · rw [show kvraw.ideal = (kvraw.arm f).ideal from rfl, ok, same]
              exact .stop _ _
          · exact .answer (kvraw.arm f) _
          · exact ih (kvraw.arm f) found.val found.off
      · rw [ok, same]
        exact .stop _ _

/-- The part of a record that is in the log when the append of its piece `n` fails. -/
def Rec.torn (r : Rec) : Nat → Bytes
  | 0 => []
  | 1 => r.header.encode
  | _ => r.header.encode ++ r.key

theorem Rec.torn_length (r : Rec) (n : Nat) : (r.torn n).length = 0 ↔ n = 0 := by
  rcases n with _ | _ | n <;> simp [Rec.torn, metaLen]

/-- An append stops at the failing piece, or it does what it does on the ideal log. -/
theorem kvrawAppend_cases (kvraw : Kvraw FaultyLog) {r : Rec} (key_ok : keyLenOk r.key)
    (val_le : r.val.length ≤ 0xffffffff) :
    (∃ n < 3, kvraw.logfs.failure = some (.append n) ∧
        kvrawAppend faultyLogfs kvraw r.key r.val r.prev =
          .ok (none, { kvraw with logfs := ⟨kvraw.logfs.log ++ r.torn n, none⟩ })) ∨
      (∀ n < 3, kvraw.logfs.failure ≠ some (.append n)) ∧
        ∃ kvraw', kvrawAppend faultyLogfs kvraw r.key r.val r.prev =
            .ok (some kvraw.size, kvraw') ∧
          kvrawAppend idealLogfs kvraw.ideal r.key r.val r.prev =
            .ok (some kvraw.size, kvraw'.ideal) := by
  obtain ⟨pos, le⟩ := key_ok
  have key_mod : r.key.length % 2 ^ 16 = r.key.length := Nat.mod_eq_of_lt (by omega)
  have val_mod : r.val.length % 2 ^ 32 = r.val.length := Nat.mod_eq_of_lt (by omega)
  have key_guard : ¬ (r.key.length = 0 ∨ 0xffff < r.key.length) := by omega
  have val_guard : ¬ 0xffffffff < r.val.length := by omega
  simp only [kvrawAppend, if_neg key_guard, if_neg val_guard, key_mod, val_mod, List.take_length]
  obtain ⟨size, log, failure⟩ := kvraw
  rcases failure with _ | n | _ | _ | _ | n
  · exact Or.inr ⟨by simp, _, rfl, rfl⟩
  · exact Or.inr ⟨by simp, _, rfl, rfl⟩
  · exact Or.inl ⟨0, by omega, rfl, by simp [faultyLogfs, Rec.torn]⟩
  · exact Or.inl ⟨1, by omega, rfl, by simp [faultyLogfs, Rec.torn, Rec.header]⟩
  · exact Or.inl ⟨2, by omega, rfl, by simp [faultyLogfs, Rec.torn, Rec.header]⟩
  · refine Or.inr ⟨fun m lt same => ?_, _, rfl, rfl⟩
    simp only [Option.some.injEq, Failure.append.injEq] at same
    omega

end OsProjects.KeyValue
