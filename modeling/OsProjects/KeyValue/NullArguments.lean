import OsProjects.KeyValue.FailedMutation

/-!
# Optional arguments

`kvdb_lookup` and `kvdb_remove` take a buffer and a length, and either may be NULL. A
lookup of a live key dereferences the length also when it is NULL. A removal admits a
positive length without a buffer, and the first record of the hash runs into the assertion
of `kvraw_lookup`. All other arguments are handled.
-/
namespace OsProjects.KeyValue
open OsProjects.Library

inductive Query where
  | lookup
  | remove
  deriving DecidableEq, Repr

/-- The assertion about `val` and `val_len` at the entry. -/
def Query.Admits (val : Option Bytes) (valLen : Option Nat) : Query → Prop
  | .lookup => ¬ (valLen.getD 0 ≠ 0 ∧ val = none)
  | .remove => ¬ (valLen = some 0 ∧ val = none)

/-- The call on a logfs that does not fail. -/
def Query.reply (overload : Nat → Nat → Bool) (db : Kvdb FaultyLog) (key : Key)
    (val : Option Bytes) (valLen : Option Nat) : Query → Except Fault Reply
  | .lookup => (kvdbLookup faultyLogfs (db.arm none) key.1 val valLen).map Prod.fst
  | .remove => (kvdbRemove faultyLogfs overload (db.arm none) key.1 val valLen).map Prod.fst

/-- Some record has the hash of the key, as the index has it. -/
def Kvdb.Occupied (overload : Nat → Nat → Bool) (db : Kvdb FaultyLog) (key : Key) : Prop :=
  ∃ ref index, indexUpdate overload db.index key.1 = .ok (ref, index) ∧ (index.maps ref).off ≠ 0

/-- The arguments that the call can do with. -/
def Query.Handles (overload : Nat → Nat → Bool) (db : Kvdb FaultyLog) (key : Key)
    (val : Option Bytes) (valLen : Option Nat) : Query → Prop
  | .lookup => valLen = none → ¬ db.Live key
  | .remove => val = none → valLen.getD 0 ≠ 0 → ¬ db.Occupied overload key

/-- No NULL pointer is dereferenced, no assertion fails, and without a length the return code tells
whether the key was live. -/
structure Kvdb.Sound (db : Kvdb FaultyLog) (key : Key) (valLen : Option Nat)
    (reply : Except Fault Reply) : Prop where
  pointer : reply ≠ .error .nullPointer
  assertion : reply ≠ .error .assertion
  reports : valLen = none → ∀ r, reply = .ok r →
    (r.rv = 0 ↔ db.Live key) ∧ (r.rv = 1 ↔ ¬ db.Live key)

section
variable {overload : Nat → Nat → Bool} {db : Kvdb FaultyLog} {rs : List Rec}
  {es : Nat → List Entry} {key : Key} {val : Option Bytes} {valLen : Option Nat}

theorem Kvdb.Sound.live (live : db.Live key) {r : Reply} (rv : r.rv = 0) :
    db.Sound key valLen (.ok r) := by
  refine ⟨nofun, nofun, ?_⟩
  rintro _ _ ⟨⟩
  simp [rv, live]

theorem Kvdb.Sound.dead (dead : ¬ db.Live key) {r : Reply} (rv : r.rv = 1) :
    db.Sound key valLen (.ok r) := by
  refine ⟨nofun, nofun, ?_⟩
  rintro _ _ ⟨⟩
  simp [rv, dead]

theorem Kvdb.Sound.exits : db.Sound key valLen (.error .exitSoftware) :=
  ⟨by simp, by simp, by simp⟩

/-- A chain that starts at 0 is empty. -/
theorem Kvdb.Chained.dead_of_zero (h : db.Chained rs es)
    (zero : headOff (es (indexKey key.1)) = 0) : ¬ db.Live key := by
  rw [h.live_iff, not_not]
  cases chain : es (indexKey key.1) with
  | nil => rfl
  | cons e older =>
    rw [chain, headOff] at zero
    have member : e ∈ history rs := (h.within _).subset (by rw [chain]; exact List.mem_cons_self)
    exact absurd zero (history_off_ne_zero member)

/-- The walk of a call whose buffer is as large as its length says. -/
theorem Kvdb.Chained.walks (h : db.Chained rs es) (key : Key) {cap : Nat}
    (fits : cap ≤ (val.getD []).length) :
    ∃ c, chainLookup faultyLogfs (db.kvraw.size + 1) (db.kvraw.arm none) key.1 val cap
        (headOff (es (indexKey key.1))) = .ok (some c, db.kvraw.arm none) ∧
      ((c.off = 0 ∨ c.valLen = 0) ↔ ¬ db.Live key) := by
  obtain ⟨⟨n, failing⟩, -⟩ | ⟨g, c, left, ok, dead⟩ := h.walk_cases none key.1 fits
  · cases failing
  · obtain rfl : g = none := left
    refine ⟨c, ok, ?_⟩
    rw [dead, h.live_iff, not_not]

theorem Kvdb.Chained.lookup_sound_iff (h : db.Chained rs es)
    (admits : Query.lookup.Admits val valLen)
    (region : ∀ b, val = some b → valLen.getD 0 ≤ b.length) :
    db.Sound key valLen (Query.lookup.reply overload db key val valLen) ↔
      (valLen = none → ¬ db.Live key) := by
  have fits : valLen.getD 0 ≤ ((if valLen.isSome then val else none).getD []).length := by
    cases valLen with
    | none => exact Nat.zero_le _
    | some cap =>
      cases val with
      | none => exact Nat.le_of_eq (not_not.mp fun pos => admits ⟨pos, rfl⟩)
      | some b => exact region b rfl
  rw [Query.reply, kvdbLookup_reply faultyLogfs (db.arm none) h.slots key.2 admits, lookupReply]
  by_cases zero : headOff (es (indexKey key.1)) = 0
  · have dead := h.dead_of_zero zero
    rw [if_pos zero]
    exact ⟨fun _ _ => dead, fun _ => .dead dead rfl⟩
  · obtain ⟨c, walk, dead⟩ := h.walks key fits
    rw [if_neg zero, show (db.arm none).kvraw = db.kvraw.arm none from rfl, Kvraw.size_arm, walk]
    simp only
    by_cases gone : c.off = 0 ∨ c.valLen = 0
    · have dead := dead.mp gone
      rw [if_pos gone]
      exact ⟨fun _ _ => dead, fun _ => .dead dead rfl⟩
    · have live : db.Live key := not_not.mp fun absent => gone (dead.mpr absent)
      rw [if_neg gone]
      cases valLen with
      | none => exact ⟨fun sound => absurd rfl sound.pointer, fun handles => absurd live (handles rfl)⟩
      | some cap => exact ⟨fun _ none_ => (by cases none_), fun _ => .live live rfl⟩

theorem Kvdb.Chained.remove_sound_iff (h : db.Chained rs es)
    (admits : Query.remove.Admits val valLen)
    (region : ∀ b, val = some b → valLen.getD 0 ≤ b.length) :
    db.Sound key valLen (Query.remove.reply overload db key val valLen) ↔
      (val = none → valLen.getD 0 ≠ 0 → ¬ db.Occupied overload key) := by
  have ne : key.1 ≠ [] := fun e => key.2.1 (by simp [e])
  rw [Query.reply, kvdbRemove, if_neg (not_not.mpr key.2), if_neg admits, mutate,
    show (db.arm none).index = db.index from rfl, show (db.arm none).kvraw = db.kvraw.arm none from rfl,
    Kvdb.Occupied]
  obtain stop | ⟨ref, index, ok, slots, held⟩ := h.slots.update overload ne
  · rw [stop]
    refine ⟨fun _ _ _ => ?_, fun _ => .exits⟩
    rintro ⟨ref, index, ok, -⟩
    cases ok
  · have occupied : (∃ ref' index', indexUpdate overload db.index key.1 = .ok (ref', index') ∧
        (index'.maps ref').off ≠ 0) ↔ headOff (es (indexKey key.1)) ≠ 0 := by
      constructor
      · rintro ⟨ref', index', ok', taken⟩
        rw [ok] at ok'
        cases ok'
        rwa [held] at taken
      · exact fun taken => ⟨ref, index, ok, by rwa [held]⟩
    rw [occupied, ok]
    simp only [held, Kvraw.size_arm, beq_self_eq_true, Bool.true_and]
    by_cases bufferless : val = none ∧ valLen.getD 0 ≠ 0
    · obtain ⟨rfl, pos⟩ := bufferless
      cases valLen with
      | none => exact absurd rfl pos
      | some cap =>
        simp only [Option.isSome_some, if_true, Option.getD_some] at pos ⊢
        rw [chainLookup_bufferless _ _ _ _ pos]
        by_cases zero : headOff (es (indexKey key.1)) = 0
        · rw [if_pos zero]
          exact ⟨fun _ _ _ taken => taken zero, fun _ => .dead (h.dead_of_zero zero) rfl⟩
        · rw [if_neg zero]
          exact ⟨fun sound => absurd rfl sound.assertion,
            fun handles => absurd zero (handles trivial pos)⟩
    · have handled : val = none → valLen.getD 0 ≠ 0 → ¬ headOff (es (indexKey key.1)) ≠ 0 :=
        fun missing pos => absurd ⟨missing, pos⟩ bufferless
      refine ⟨fun _ => handled, fun _ => ?_⟩
      have fits : (if valLen.isSome then valLen.getD 0 else 0) ≤
          ((if valLen.isSome then val else none).getD []).length := by
        cases valLen with
        | none => exact Nat.le_refl _
        | some cap =>
          cases val with
          | none => exact Nat.le_of_eq (not_not.mp fun pos => bufferless ⟨rfl, pos⟩)
          | some b => exact region b rfl
      obtain ⟨c, walk, dead⟩ := h.walks key fits
      rw [walk]
      simp only [mutateFound]
      by_cases gone : c.off = 0 ∨ c.valLen = 0
      · rw [if_pos gone]
        exact .dead (dead.mp gone) rfl
      · have live : db.Live key := not_not.mp fun absent => gone (dead.mpr absent)
        obtain ⟨n, -, failing, -⟩ | ⟨-, kvraw, append, -⟩ := appendAt_cases
          { db.arm none with kvraw := db.kvraw.arm none, index := index } ref
          (r := ⟨key.1, [], headOff (es (indexKey key.1))⟩) key.2 (Nat.zero_le _)
          (congrArg Map.off held)
        · cases failing
        · rw [if_neg gone, append]
          exact .live live rfl

end

/-- In every reachable store a lookup or removal whose arguments its own assertions admit, with a
buffer as large as the length says, meets no NULL pointer and no assertion below, and without a
length answers by its return code, just when the lookup has a length or the key is not live, and
the removal has a buffer, or no length, or the index has no record of the hash. -/
theorem query_sound_iff {overload : Nat → Nat → Bool} {db : Kvdb FaultyLog}
    (reached : db.Reached overload) (query : Query) (key : Key) (val : Option Bytes)
    (valLen : Option Nat) (admits : query.Admits val valLen)
    (region : ∀ b, val = some b → valLen.getD 0 ≤ b.length) :
    db.Sound key valLen (query.reply overload db key val valLen) ↔
      query.Handles overload db key val valLen := by
  obtain ⟨rs, es, h⟩ := reached.chained
  cases query with
  | lookup => exact h.lookup_sound_iff admits region
  | remove => exact h.remove_sound_iff admits region

def sevenKey : Key := ⟨[7], by decide⟩

/-- A store with two bytes under one key. -/
def storeOfOne : Option (Kvdb FaultyLog) :=
  match kvdbOpen faultyLogfs ⟨[], none⟩ with
  | .ok (some db) =>
    (Kvdb.step faultyLogfs loadTest (db.arm none)
      (.insert sevenKey ⟨[1, 2], by decide⟩)).toOption.map Prod.snd
  | _ => none

theorem storeOfOne_reached {db : Kvdb FaultyLog} (h : storeOfOne = some db)
    (small : db.kvraw.logfs.log.length < 2 ^ 64) : db.Reached loadTest := by
  unfold storeOfOne at h
  split at h
  · rename_i fresh opened
    obtain ⟨⟨r, next⟩, ok, rfl⟩ := Option.map_eq_some_iff.mp h
    cases step : Kvdb.step faultyLogfs loadTest (fresh.arm none)
        (.insert sevenKey ⟨[1, 2], by decide⟩) with
    | error e =>
      rw [step] at ok
      cases ok
    | ok result =>
      rw [step] at ok
      cases ok
      have harmless : fresh.Harmless (.insert sevenKey ⟨[1, 2], by decide⟩) none := trivial
      exact .step (.opened opened) harmless step small
  · cases h

/-- How a call ends when it does not return. -/
def faultOf (reply : Except Fault Reply) : Option Fault :=
  match reply with
  | .error f => some f
  | .ok _ => none

theorem faultOf_eq {reply : Except Fault Reply} {f : Fault} (h : faultOf reply = some f) :
    reply = .error f := by
  cases reply with
  | error e =>
    cases h
    rfl
  | ok r => cases h

/-- A lookup without buffer and length, and a removal with the length 4 and no buffer. -/
theorem query_faults :
    ∃ db : Kvdb FaultyLog, db.Reached loadTest ∧
      Query.lookup.Admits none none ∧ Query.remove.Admits none (some 4) ∧
      Query.lookup.reply loadTest db sevenKey none none = .error .nullPointer ∧
      Query.remove.reply loadTest db sevenKey none (some 4) = .error .assertion ∧
      ¬ db.Sound sevenKey none (Query.lookup.reply loadTest db sevenKey none none) ∧
      ¬ db.Sound sevenKey (some 4) (Query.remove.reply loadTest db sevenKey none (some 4)) := by
  have run : storeOfOne.map (fun db => (db.kvraw.logfs.log.length,
      faultOf (Query.lookup.reply loadTest db sevenKey none none),
      faultOf (Query.remove.reply loadTest db sevenKey none (some 4)))) =
      some (37, some .nullPointer, some .assertion) := by decide +kernel
  obtain ⟨db, store, outcome⟩ := Option.map_eq_some_iff.mp run
  simp only [Prod.mk.injEq] at outcome
  obtain ⟨length, lookup, remove⟩ := outcome
  have lookup := faultOf_eq lookup
  have remove := faultOf_eq remove
  refine ⟨db, storeOfOne_reached store (by omega), by simp [Query.Admits], by simp [Query.Admits],
    lookup, remove, fun sound => sound.pointer lookup, fun sound => sound.assertion remove⟩

/-- A removal without a length. -/
theorem query_sound_iff_removal :
    ∃ db : Kvdb FaultyLog, db.Reached loadTest ∧
      db.Sound sevenKey none (Query.remove.reply loadTest db sevenKey none none) := by
  have run : storeOfOne.map (fun db => db.kvraw.logfs.log.length) = some 37 := by decide +kernel
  obtain ⟨db, store, length⟩ := Option.map_eq_some_iff.mp run
  have reached := storeOfOne_reached store (by omega)
  exact ⟨db, reached, (query_sound_iff reached .remove sevenKey none none (by simp [Query.Admits])
    nofun).mpr fun _ pos => absurd rfl pos⟩

end OsProjects.KeyValue
