import OsProjects.KeyValue.FaultyLog
import OsProjects.KeyValue.Replay

/-!
# Operations that fail

A store over a logfs whose calls may fail, from `kvdb_open` or a restore on. An operation
that returns -1 should leave the store as it was. It does unless the append of its record
fails after the header went in, or the operation is an update that has counted its record
already.
-/
namespace OsProjects.KeyValue
open OsProjects.Library

def Op.key : Op → Key
  | .insert key _ | .update key _ | .replace key _ | .remove key _ | .lookup key _ => key

def Op.mode : Op → Option Mode
  | .insert .. => some .insert
  | .update .. => some .update
  | .replace .. => some .replace
  | .remove .. => some .remove
  | .lookup .. => none

/-- The arguments `val` and `val_len` of a mutation. -/
def Op.args : Op → Option Bytes × Option Nat
  | .insert _ val | .update _ val | .replace _ val => (some val.1, some val.1.length)
  | .remove _ out => RemoveBuf.args out
  | .lookup _ out => (out.val, some out.cap)

/-- The value that a mutation appends. -/
def Op.data : Op → Bytes
  | .insert _ val | .update _ val | .replace _ val => val.1
  | .remove .. | .lookup .. => []

theorem Op.data_le (op : Op) : op.data.length ≤ 0xffffffff := by
  cases op with
  | insert key val | update key val | replace key val => exact val.2.2
  | remove key out => simp [Op.data]
  | lookup key out => simp [Op.data]

theorem Op.args_fit (op : Op) : op.args.2.getD 0 ≤ (op.args.1.getD []).length := by
  cases op with
  | insert key val | update key val | replace key val => exact Nat.le_refl _
  | remove key out =>
    cases out with
    | none => simp [Op.args, RemoveBuf.args]
    | some out => exact out.fits
  | lookup key out => exact out.fits

/-- Whether a mutation appends a record, for a key that is live or not. -/
def Mode.Applies (live : Prop) : Mode → Prop
  | .remove | .replace => live
  | .insert => ¬ live
  | .update => True

theorem Kvdb.step_mutate {σ : Type} (fs : LogfsOps σ) (overload : Nat → Nat → Bool) (db : Kvdb σ)
    {op : Op} {mode : Mode} (is_mutation : op.mode = some mode) :
    Kvdb.step fs overload db op =
      mutate fs overload db op.key.1 op.args.1 op.args.2 mode := by
  cases op with
  | insert key val =>
    cases is_mutation
    rw [Kvdb.step, kvdbInsert, if_neg (not_not.mpr key.2), if_neg (not_not.mpr val.2)]
    rfl
  | update key val =>
    cases is_mutation
    rw [Kvdb.step, kvdbUpdate, if_neg (not_not.mpr key.2), if_neg (not_not.mpr val.2)]
    rfl
  | replace key val =>
    cases is_mutation
    rw [Kvdb.step, kvdbReplace, if_neg (not_not.mpr key.2), if_neg (not_not.mpr val.2)]
    rfl
  | remove key out =>
    cases is_mutation
    have buffer : ¬ ((RemoveBuf.args out).2 = some 0 ∧ (RemoveBuf.args out).1 = none) := by
      cases out <;> simp [RemoveBuf.args]
    have call : Kvdb.step fs overload db (.remove key out) =
        kvdbRemove fs overload db key.1 (RemoveBuf.args out).1 (RemoveBuf.args out).2 := by
      cases out <;> rfl
    rw [call, kvdbRemove, if_neg (not_not.mpr key.2), if_neg buffer]
    rfl
  | lookup key out => cases is_mutation

/-- The handle with a failure to come. -/
def Kvdb.arm (db : Kvdb FaultyLog) (failure : Option Failure) : Kvdb FaultyLog :=
  { db with kvraw := db.kvraw.arm failure }

/-- A lookup on the working store finds the key. -/
def Kvdb.Live (db : Kvdb FaultyLog) (key : Key) : Prop :=
  ∃ r next, kvdbLookup faultyLogfs (db.arm none) key.1 none (some 0) = .ok (r, next) ∧ r.rv = 0

/-- No observer tells the store from an older one, and the log is as long as `size` says. -/
structure Kvdb.Unchanged (old db : Kvdb FaultyLog) : Prop where
  size : kvdbSize db = kvdbSize old
  waste : kvdbWaste db = kvdbWaste old
  lookup : ∀ key val valLen,
    (kvdbLookup faultyLogfs (db.arm none) key val valLen).map Prod.fst =
      (kvdbLookup faultyLogfs (old.arm none) key val valLen).map Prod.fst
  aligned : db.kvraw.size = db.kvraw.logfs.log.length

/-- The failure does not hit the append of a record, or it hits its header outside an update. -/
def Kvdb.Harmless (db : Kvdb FaultyLog) (op : Op) : Option Failure → Prop
  | some (.append n) => ∀ mode, op.mode = some mode → mode.Applies (db.Live op.key) →
    3 ≤ n ∨ n = 0 ∧ mode ≠ .update
  | _ => True

/-- The stores of a program that opens one, works on it with harmless failures only, and now and
then opens it again with restore. Offsets are 64 bits wide, so the log stays below `2 ^ 64`. -/
inductive Kvdb.Reached (overload : Nat → Nat → Bool) : Kvdb FaultyLog → Prop
  | opened {db : Kvdb FaultyLog} (ok : kvdbOpen faultyLogfs ⟨[], none⟩ = .ok (some db)) :
      Reached overload db
  | restored {db db' : Kvdb FaultyLog} {rs : List Rec} (before : Reached overload db)
      (fits : ∀ r ∈ rs, r.Fits) (log : db.kvraw.logfs.log = logBytes (dummy :: rs))
      (ok : kvdbRestore overload db.kvraw (visits rs) = .ok db') : Reached overload db'
  | step {db db' : Kvdb FaultyLog} {op : Op} {failure : Option Failure} {r : Reply}
      (before : Reached overload db) (harmless : db.Harmless op failure)
      (ok : Kvdb.step faultyLogfs overload (db.arm failure) op = .ok (r, db'))
      (small : db'.kvraw.logfs.log.length < 2 ^ 64) : Reached overload db'

/-- Every record of the log leads back to older ones of the log. -/
def Threaded (rs : List Rec) : Prop :=
  ∀ e older, e :: older <:+ history rs → ∃ es, Linked (e :: es) ∧ es.Sublist older

/-- The log consists of records, and the index holds the start of a chain for every hash. -/
structure Kvdb.Chained (db : Kvdb FaultyLog) (rs : List Rec) (es : Nat → List Entry) : Prop where
  holds : db.kvraw.Holds FaultyLog.log (dummy :: rs)
  slots : db.index.Slots fun h => headOff (es h)
  linked : ∀ h, Linked (es h)
  within : ∀ h, (es h).Sublist (history rs)
  threaded : Threaded rs

theorem Kvraw.Holds.ideal {kvraw : Kvraw FaultyLog} {rs : List Rec} :
    kvraw.ideal.Holds id rs ↔ kvraw.Holds FaultyLog.log rs :=
  ⟨fun h => ⟨h.bytes, h.size, h.small, h.fits⟩, fun h => ⟨h.bytes, h.size, h.small, h.fits⟩⟩

theorem Kvraw.Holds.aligned {kvraw : Kvraw FaultyLog} {rs : List Rec}
    (h : kvraw.Holds FaultyLog.log rs) : kvraw.size = kvraw.logfs.log.length := by
  rw [h.size, ← length_logBytes]
  exact congrArg List.length h.bytes.symm

theorem Chain.Reports.dead_of {c : Chain} {val : Option Bytes} {cap : Nat} {key : Bytes}
    {es : List Entry} (h : c.Reports val cap (newest key es)) (ne : ∀ e ∈ es, e.1 ≠ 0) :
    (c.off = 0 ∨ c.valLen = 0) ↔ latest key es = [] := by
  rw [h.off, h.valLen]
  cases found : newest key es with
  | none => simp [latest, found, headOff]
  | some e => simp [latest, found, headOff, ne e (newest_mem found).1]

section
variable {overload : Nat → Nat → Bool} {db : Kvdb FaultyLog} {rs : List Rec}
  {es : Nat → List Entry}

/-- The walk on the ideal log, from the slot of the key. -/
theorem Kvdb.Chained.walk (h : db.Chained rs es) (key : Bytes) {val : Option Bytes} {cap : Nat}
    (fits : cap ≤ (val.getD []).length) :
    ∃ c, chainLookup idealLogfs (db.kvraw.size + 1) db.kvraw.ideal key val cap
        (headOff (es (indexKey key))) = .ok (some c, db.kvraw.ideal) ∧
      ((c.off = 0 ∨ c.valLen = 0) ↔ latest key (es (indexKey key)) = []) := by
  have member : ∀ e ∈ es (indexKey key), e ∈ history rs := fun e mem =>
    (h.within (indexKey key)).subset mem
  have short : (es (indexKey key)).length < db.kvraw.size + 1 := by
    have count := (h.within (indexKey key)).length_le
    have total := length_le_logSize (dummy :: rs)
    rw [length_history] at count
    rw [h.holds.size]
    simp only [List.length_cons] at total
    omega
  obtain ⟨c, kvraw', found, _, reports⟩ := chainLookup_spec idealLogfs_honours key
    (es (indexKey key))
    (fun e mem => ⟨history_stored (member e mem), history_off_ne_zero (member e mem)⟩)
    (h.linked (indexKey key)) _ short (Kvraw.Holds.ideal.mpr h.holds) val fits
  have dead := reports.dead_of fun e mem => history_off_ne_zero (member e mem)
  obtain ⟨⟨n, failing⟩, _⟩ | ⟨f, a, _, ok, _⟩ | ⟨e, stop, _⟩ :=
    chainLookup_tracks (db.kvraw.size + 1) (db.kvraw.arm none) key val cap
      (headOff (es (indexKey key)))
  · cases failing
  · rw [Kvraw.ideal_arm, found] at ok
    cases ok
    exact ⟨c, found, dead⟩
  · rw [Kvraw.ideal_arm, found] at stop
    cases stop

/-- The walk over the log that may fail. -/
theorem Kvdb.Chained.walk_cases (h : db.Chained rs es) (f : Option Failure) (key : Bytes)
    {val : Option Bytes} {cap : Nat} (fits : cap ≤ (val.getD []).length) :
    (∃ n, f = some (.read n)) ∧
        chainLookup faultyLogfs (db.kvraw.size + 1) (db.kvraw.arm f) key val cap
          (headOff (es (indexKey key))) = .ok (none, db.kvraw.arm none) ∨
      ∃ g c, Survives f g ∧
        chainLookup faultyLogfs (db.kvraw.size + 1) (db.kvraw.arm f) key val cap
          (headOff (es (indexKey key))) = .ok (some c, db.kvraw.arm g) ∧
        ((c.off = 0 ∨ c.valLen = 0) ↔ latest key (es (indexKey key)) = []) := by
  obtain ⟨c, found, dead⟩ := h.walk key fits
  obtain ⟨failing, stop⟩ | ⟨g, a, left, ok, same⟩ | ⟨e, stop, _⟩ :=
    chainLookup_tracks (db.kvraw.size + 1) (db.kvraw.arm f) key val cap
      (headOff (es (indexKey key)))
  · exact Or.inl ⟨failing, stop⟩
  · rw [Kvraw.ideal_arm, found] at ok
    cases ok
    exact Or.inr ⟨g, c, left, same, dead⟩
  · rw [Kvraw.ideal_arm, found] at stop
    cases stop

/-- A lookup does not change the store, and finds the live keys unless a read fails. -/
theorem Kvdb.Chained.lookup_cases (h : db.Chained rs es) (f : Option Failure) (key : Key)
    (val : Option Bytes) (cap : Nat) (fits : cap ≤ (val.getD []).length) :
    ∃ r g, kvdbLookup faultyLogfs (db.arm f) key.1 val (some cap) = .ok (r, db.arm g) ∧
      (f = none → (r.rv = 0 ↔ latest key.1 (es (indexKey key.1)) ≠ [])) := by
  have buffer : ¬ ((some cap).getD 0 ≠ 0 ∧ val = none) := by
    rintro ⟨pos, rfl⟩
    exact pos (Nat.le_zero.mp fits)
  have ne : key.1 ≠ [] := fun e => key.2.1 (by simp [e])
  obtain ⟨j, found, held⟩ := h.slots.lookup ne
  have empty : headOff (es (indexKey key.1)) = 0 → latest key.1 (es (indexKey key.1)) = [] := by
    intro zero
    cases chain : es (indexKey key.1) with
    | nil => rfl
    | cons e older =>
      rw [chain, headOff] at zero
      have member : e ∈ history rs := (h.within _).subset (by rw [chain]; exact List.mem_cons_self)
      exact absurd zero (history_off_ne_zero member)
  rw [kvdbLookup, if_neg (not_not.mpr key.2), if_neg buffer,
    show (db.arm f).index = db.index from rfl, found]
  cases j with
  | none => exact ⟨_, f, rfl, fun _ => by simp [empty held.symm]⟩
  | some ref =>
    simp only [Option.map_some, Option.getD_some] at held
    simp only [Option.isSome_some, if_true, Option.getD_some, held]
    by_cases zero : headOff (es (indexKey key.1)) = 0
    · rw [if_pos zero]
      exact ⟨_, f, rfl, fun _ => by simp [empty zero]⟩
    · rw [if_neg zero]
      obtain ⟨⟨n, failing⟩, stop⟩ | ⟨g, c, left, ok, dead⟩ := h.walk_cases f key.1 fits
      · rw [show (db.arm f).kvraw = db.kvraw.arm f from rfl, Kvraw.size_arm, stop]
        exact ⟨_, none, rfl, by simp [failing]⟩
      · rw [show (db.arm f).kvraw = db.kvraw.arm f from rfl, Kvraw.size_arm, ok]
        simp only [dead]
        by_cases gone : latest key.1 (es (indexKey key.1)) = []
        · rw [if_pos gone]
          exact ⟨_, g, rfl, fun _ => by simp [gone]⟩
        · rw [if_neg gone]
          exact ⟨_, g, rfl, fun _ => by simp [gone]⟩

theorem Kvdb.Chained.live_iff (h : db.Chained rs es) (key : Key) :
    db.Live key ↔ latest key.1 (es (indexKey key.1)) ≠ [] := by
  obtain ⟨r, g, ok, found⟩ := h.lookup_cases none key none 0 (by simp)
  rw [← found rfl, Kvdb.Live, ok]
  constructor
  · rintro ⟨_, _, same, zero⟩
    cases same
    exact zero
  · exact fun zero => ⟨_, _, rfl, zero⟩

end

/-- The reply of a lookup whose slot holds `off`. -/
def lookupReply {σ : Type} (fs : LogfsOps σ) (kvraw : Kvraw σ) (key : Bytes) (val : Option Bytes)
    (valLen : Option Nat) (off : Nat) : Except Fault Reply :=
  if off = 0 then .ok ⟨1, val, valLen⟩
  else
    match chainLookup fs (kvraw.size + 1) kvraw key (if valLen.isSome then val else none)
        (valLen.getD 0) off with
    | .error e => .error e
    | .ok (none, _) => .ok ⟨-1, val, valLen⟩
    | .ok (some c, _) =>
      if c.off = 0 ∨ c.valLen = 0 then .ok ⟨1, if valLen.isSome then c.val else val, valLen⟩
      else if valLen.isSome then .ok ⟨0, c.val, some c.valLen⟩
      else .error .nullPointer

/-- Lookups read the log and the offset of their hash, nothing else. -/
theorem kvdbLookup_reply {σ : Type} (fs : LogfsOps σ) (db : Kvdb σ) {slot : Nat → Nat}
    (slots : db.index.Slots slot) {key : Bytes} (key_ok : keyLenOk key) {val : Option Bytes}
    {valLen : Option Nat} (buffer : ¬ (valLen.getD 0 ≠ 0 ∧ val = none)) :
    (kvdbLookup fs db key val valLen).map Prod.fst =
      lookupReply fs db.kvraw key val valLen (slot (indexKey key)) := by
  have ne : key ≠ [] := fun e => key_ok.1 (by simp [e])
  obtain ⟨j, found, held⟩ := slots.lookup ne
  rw [kvdbLookup, if_neg (not_not.mpr key_ok), if_neg buffer, found, lookupReply, ← held]
  cases j with
  | none => rfl
  | some ref =>
    simp only [Option.map_some, Option.getD_some]
    by_cases zero : (db.index.maps ref).off = 0
    · rw [if_pos zero, if_pos zero]
      rfl
    · rw [if_neg zero, if_neg zero]
      cases chainLookup fs (db.kvraw.size + 1) db.kvraw key (if valLen.isSome then val else none)
          (valLen.getD 0) (db.index.maps ref).off with
      | error e => rfl
      | ok reply =>
        obtain ⟨c, kvraw⟩ := reply
        cases c with
        | none => rfl
        | some c =>
          simp only
          by_cases dead : c.off = 0 ∨ c.valLen = 0
          · rw [if_pos dead, if_pos dead]
            rfl
          · rw [if_neg dead, if_neg dead]
            cases valLen <;> rfl

theorem kvdbLookup_unchanged {old db : Kvdb FaultyLog} {slot : Nat → Nat}
    (slots : old.index.Slots slot) (slots' : db.index.Slots slot)
    (kvraw : db.kvraw.arm none = old.kvraw.arm none) (key : Bytes) (val : Option Bytes)
    (valLen : Option Nat) :
    (kvdbLookup faultyLogfs (db.arm none) key val valLen).map Prod.fst =
      (kvdbLookup faultyLogfs (old.arm none) key val valLen).map Prod.fst := by
  by_cases key_ok : keyLenOk key
  · by_cases missing : valLen.getD 0 ≠ 0 ∧ val = none
    · rw [kvdbLookup, kvdbLookup, if_neg (not_not.mpr key_ok), if_neg (not_not.mpr key_ok),
        if_pos missing, if_pos missing]
    · rw [kvdbLookup_reply faultyLogfs (db.arm none) slots' key_ok missing,
        kvdbLookup_reply faultyLogfs (old.arm none) slots key_ok missing]
      exact congrArg (fun k => lookupReply faultyLogfs k key val valLen (slot (indexKey key))) kvraw
  · rw [kvdbLookup, kvdbLookup, if_pos key_ok, if_pos key_ok]

/-- How the append of a mutation ends when it meets the failure. -/
structure Kvdb.Torn (db : Kvdb FaultyLog) (r : Rec) (mode : Mode) (n : Nat)
    (result : Reply × Kvdb FaultyLog) : Prop where
  rv : result.1.rv = -1
  index : result.2.index = db.index
  kvraw : result.2.kvraw = { db.kvraw with logfs := ⟨db.kvraw.logfs.log ++ r.torn n, none⟩ }
  counters : mode ≠ .update → result.2.size = db.size ∧ result.2.waste = db.waste
  counted : mode = .update → ¬ (result.2.size = db.size ∧ result.2.waste = db.waste)

/-- How it ends otherwise. -/
structure Kvdb.Appended (db : Kvdb FaultyLog) (r : Rec) (ref : Nat)
    (result : Reply × Kvdb FaultyLog) : Prop where
  rv : result.1.rv = 0
  index : result.2.index = db.index.store ref db.kvraw.size
  kvraw : kvrawAppend idealLogfs db.kvraw.ideal r.key r.val r.prev =
    .ok (some db.kvraw.size, result.2.kvraw.ideal)

section
variable {db : Kvdb FaultyLog} {op : Op} {mode : Mode} {c : Chain} {val : Option Bytes}
  {ref : Nat}

theorem appendAt_cases (db : Kvdb FaultyLog) (ref : Nat) {r : Rec} (key_ok : keyLenOk r.key)
    (val_le : r.val.length ≤ 0xffffffff) (held : (db.index.maps ref).off = r.prev) :
    (∃ n < 3, db.kvraw.logfs.failure = some (.append n) ∧
        db.appendAt faultyLogfs r.key r.val ref =
          .ok (false, { db with
            kvraw := { db.kvraw with logfs := ⟨db.kvraw.logfs.log ++ r.torn n, none⟩ } })) ∨
      (∀ n < 3, db.kvraw.logfs.failure ≠ some (.append n)) ∧
        ∃ kvraw, db.appendAt faultyLogfs r.key r.val ref =
            .ok (true, { db with kvraw := kvraw, index := db.index.store ref db.kvraw.size }) ∧
          kvrawAppend idealLogfs db.kvraw.ideal r.key r.val r.prev =
            .ok (some db.kvraw.size, kvraw.ideal) := by
  obtain ⟨n, lt, failing, stop⟩ | ⟨other, kvraw, ok, same⟩ := kvrawAppend_cases db.kvraw key_ok val_le
  · exact Or.inl ⟨n, lt, failing, by simp only [Kvdb.appendAt, held, stop]⟩
  · exact Or.inr ⟨other, kvraw, by simp only [Kvdb.appendAt, held, ok], same⟩

theorem mutateFound_cases (is_mutation : op.mode = some mode) (val_eq : mode ≠ .remove → val = op.args.1)
    {prev : Nat} (held : (db.index.maps ref).off = prev) :
    (¬ mode.Applies (¬ (c.off = 0 ∨ c.valLen = 0)) ∧ ∃ r,
        mutateFound faultyLogfs db op.key.1 val op.args.2 mode ref c = .ok (r, db) ∧ r.rv = 1) ∨
      mode.Applies (¬ (c.off = 0 ∨ c.valLen = 0)) ∧ ∃ result,
        mutateFound faultyLogfs db op.key.1 val op.args.2 mode ref c = .ok result ∧
        ((∃ n < 3, db.kvraw.logfs.failure = some (.append n) ∧
            db.Torn ⟨op.key.1, op.data, prev⟩ mode n result) ∨
          (∀ n < 3, db.kvraw.logfs.failure ≠ some (.append n)) ∧
            db.Appended ⟨op.key.1, op.data, prev⟩ ref result) := by
  cases op with
  | lookup key out => cases is_mutation
  | insert key value =>
    cases is_mutation
    obtain rfl := val_eq (by simp)
    simp only [mutateFound, Op.args, Op.key, Op.data, Option.getD_some, List.take_length,
      Mode.Applies]
    by_cases dead : c.off = 0 ∨ c.valLen = 0
    · have test : ¬ (c.off ≠ 0 ∧ c.valLen ≠ 0) := by
        rw [← not_or]
        exact not_not.mpr dead
      refine Or.inr ⟨not_not.mpr dead, ?_⟩
      rw [if_neg test]
      obtain ⟨n, lt, failing, stop⟩ | ⟨other, kvraw, ok, same⟩ :=
        appendAt_cases db ref (r := ⟨key.1, value.1, prev⟩) key.2 value.2.2 held
      · rw [stop]
        exact ⟨_, rfl, Or.inl ⟨n, lt, failing, rfl, rfl, rfl, fun _ => ⟨rfl, rfl⟩, by simp⟩⟩
      · rw [ok]
        exact ⟨_, rfl, Or.inr ⟨other, rfl, rfl, same⟩⟩
    · have test : c.off ≠ 0 ∧ c.valLen ≠ 0 := not_or.mp dead
      rw [if_pos test]
      exact Or.inl ⟨not_not.mpr dead, _, rfl, rfl⟩
  | update key value =>
    cases is_mutation
    obtain rfl := val_eq (by simp)
    simp only [mutateFound, Op.args, Op.key, Op.data, Option.getD_some, List.take_length,
      Mode.Applies]
    refine Or.inr ⟨trivial, ?_⟩
    have next : ∀ n : UInt64, n + 1 ≠ n := by
      intro n same
      have := congrArg UInt64.toNat same
      simp [UInt64.toNat_add] at this
      omega
    by_cases dead : c.off = 0 ∨ c.valLen = 0
    · rw [if_pos dead]
      obtain ⟨n, lt, failing, stop⟩ | ⟨other, kvraw, ok, same⟩ :=
        appendAt_cases { db with size := db.size + 1 } ref (r := ⟨key.1, value.1, prev⟩) key.2
          value.2.2 held
      · rw [stop]
        exact ⟨_, rfl, Or.inl ⟨n, lt, failing, rfl, rfl, rfl, by simp,
          fun _ same => next db.size same.1⟩⟩
      · rw [ok]
        exact ⟨_, rfl, Or.inr ⟨other, rfl, rfl, same⟩⟩
    · rw [if_neg dead]
      obtain ⟨n, lt, failing, stop⟩ | ⟨other, kvraw, ok, same⟩ :=
        appendAt_cases { db with waste := db.waste + 1 } ref (r := ⟨key.1, value.1, prev⟩) key.2
          value.2.2 held
      · rw [stop]
        exact ⟨_, rfl, Or.inl ⟨n, lt, failing, rfl, rfl, rfl, by simp,
          fun _ same => next db.waste same.2⟩⟩
      · rw [ok]
        exact ⟨_, rfl, Or.inr ⟨other, rfl, rfl, same⟩⟩
  | replace key value =>
    cases is_mutation
    obtain rfl := val_eq (by simp)
    simp only [mutateFound, Op.args, Op.key, Op.data, Option.getD_some, List.take_length,
      Mode.Applies]
    by_cases dead : c.off = 0 ∨ c.valLen = 0
    · rw [if_pos dead]
      exact Or.inl ⟨not_not.mpr dead, _, rfl, rfl⟩
    · refine Or.inr ⟨dead, ?_⟩
      rw [if_neg dead]
      obtain ⟨n, lt, failing, stop⟩ | ⟨other, kvraw, ok, same⟩ :=
        appendAt_cases db ref (r := ⟨key.1, value.1, prev⟩) key.2 value.2.2 held
      · rw [stop]
        exact ⟨_, rfl, Or.inl ⟨n, lt, failing, rfl, rfl, rfl, fun _ => ⟨rfl, rfl⟩, by simp⟩⟩
      · rw [ok]
        exact ⟨_, rfl, Or.inr ⟨other, rfl, rfl, same⟩⟩
  | remove key out =>
    cases is_mutation
    simp only [mutateFound, Op.args, Op.key, Op.data, Mode.Applies]
    by_cases dead : c.off = 0 ∨ c.valLen = 0
    · rw [if_pos dead]
      exact Or.inl ⟨not_not.mpr dead, _, rfl, rfl⟩
    · refine Or.inr ⟨dead, ?_⟩
      rw [if_neg dead]
      obtain ⟨n, lt, failing, stop⟩ | ⟨other, kvraw, ok, same⟩ :=
        appendAt_cases db ref (r := ⟨key.1, [], prev⟩) key.2 (by simp) held
      · rw [stop]
        exact ⟨_, rfl, Or.inl ⟨n, lt, failing, rfl, rfl, rfl, fun _ => ⟨rfl, rfl⟩, by simp⟩⟩
      · rw [ok]
        exact ⟨_, rfl, Or.inr ⟨other, rfl, rfl, same⟩⟩

end

/-- The store differs in nothing that is observed; the index may have grown or got a free entry. -/
structure Kvdb.Kept (old : Kvdb FaultyLog) (es : Nat → List Entry) (db : Kvdb FaultyLog) : Prop where
  size : db.size = old.size
  waste : db.waste = old.waste
  kvraw : db.kvraw.arm none = old.kvraw.arm none
  slots : db.index.Slots fun h => headOff (es h)

section
variable {overload : Nat → Nat → Bool} {db db' : Kvdb FaultyLog} {rs : List Rec}
  {es : Nat → List Entry}

theorem Kvdb.Kept.unchanged (kept : db.Kept es db') (h : db.Chained rs es) : db.Unchanged db' where
  size := kept.size
  waste := kept.waste
  lookup := kvdbLookup_unchanged h.slots kept.slots kept.kvraw
  aligned := by
    have aligned : (db.kvraw.arm none).size = (db.kvraw.arm none).logfs.log.length := h.holds.aligned
    rwa [← kept.kvraw] at aligned

theorem Kvdb.Kept.chained (kept : db.Kept es db') (h : db.Chained rs es) : db'.Chained rs es where
  holds := by
    have holds : db.kvraw.ideal.Holds id (dummy :: rs) := Kvraw.Holds.ideal.mpr h.holds
    rw [← Kvraw.ideal_arm db.kvraw none, ← kept.kvraw] at holds
    exact Kvraw.Holds.ideal.mp holds
  slots := kept.slots
  linked := h.linked
  within := h.within
  threaded := h.threaded

theorem Threaded.snoc {r : Rec} {es : List Entry} (h : Threaded rs) (prev : r.prev = headOff es)
    (linked : Linked es) (within : es.Sublist (history rs)) : Threaded (rs ++ [r]) := by
  intro e older suffix_
  rw [history_snoc, List.suffix_cons_iff] at suffix_
  obtain whole | inner := suffix_
  · obtain ⟨rfl, rfl⟩ := List.cons.inj whole
    exact ⟨es, ⟨prev, linked⟩, within⟩
  · exact h e older inner

/-- An appended record becomes the start of the chain of its hash. -/
theorem Kvdb.Chained.append (h : db.Chained rs es) {r : Rec} {ref : Nat} {index : Index}
    {kvraw : Kvraw FaultyLog} (slots : index.Slots fun h => headOff (es h))
    (held : index.maps ref = ⟨indexKey r.key, r.prev⟩) (key_ok : keyLenOk r.key)
    (val_le : r.val.length ≤ 0xffffffff) (prev : r.prev = headOff (es (indexKey r.key)))
    (append : kvrawAppend idealLogfs db.kvraw.ideal r.key r.val r.prev =
      .ok (some db.kvraw.size, kvraw.ideal))
    (kvraw_eq : db'.kvraw = kvraw) (index_eq : db'.index = index.store ref db.kvraw.size)
    (small : logSize (dummy :: rs) + r.size < 2 ^ 64) : ∃ rs' es', db'.Chained rs' es' := by
  have within := h.within (indexKey r.key)
  have prev_lt : r.prev < 2 ^ 64 := by
    cases chain : es (indexKey r.key) with
    | nil => simp [prev, chain, headOff]
    | cons e older =>
      have member : e ∈ history rs := within.subset (by rw [chain]; exact List.mem_cons_self)
      have bound := (history_stored member).bound
      rw [prev, chain, headOff]
      omega
  obtain ⟨kvraw', ok, holds⟩ := kvrawAppend_spec idealLogfs_honours
    (Kvraw.Holds.ideal.mpr h.holds) r.key r.val r.prev
    ⟨Nat.pos_of_ne_zero key_ok.1, key_ok.2, val_le, prev_lt⟩ small
  rw [ok] at append
  obtain ⟨size, rfl⟩ : logSize (dummy :: rs) = db.kvraw.size ∧ kvraw' = kvraw.ideal := by
    simpa using append
  refine ⟨rs ++ [r], Function.update es (indexKey r.key) ((db.kvraw.size, r) :: es (indexKey r.key)),
    ?_, ?_, ?_, ?_, h.threaded.snoc prev (h.linked _) within⟩
  · rw [kvraw_eq]
    exact Kvraw.Holds.ideal.mp holds
  · rw [index_eq]
    convert slots.store (indexKey_ne_zero r.key) held db.kvraw.size using 1
    funext k
    by_cases same : k = indexKey r.key
    · subst same
      simp [headOff]
    · simp [Function.update_of_ne same]
  · intro k
    by_cases same : k = indexKey r.key
    · subst same
      rw [Function.update_self]
      exact ⟨prev, h.linked _⟩
    · rw [Function.update_of_ne same]
      exact h.linked k
  · intro k
    rw [history_snoc, size]
    by_cases same : k = indexKey r.key
    · subst same
      rw [Function.update_self]
      exact within.cons_cons _
    · rw [Function.update_of_ne same]
      exact (h.within k).cons _

theorem Kvdb.harmless_of_idle (db : Kvdb FaultyLog) {op : Op} {failure : Option Failure}
    (idle : ∀ mode, op.mode = some mode → ¬ mode.Applies (db.Live op.key)) :
    db.Harmless op failure := by
  obtain _ | _ | n := failure
  · trivial
  · trivial
  · exact fun mode is_mode here => absurd here (idle mode is_mode)

theorem Kvdb.Chained.mutate_cases (h : db.Chained rs es) (overload : Nat → Nat → Bool) {op : Op}
    {mode : Mode} (is_mutation : op.mode = some mode) (failure : Option Failure) :
    Kvdb.step faultyLogfs overload (db.arm failure) op = .error .exitSoftware ∨
      ∃ result, Kvdb.step faultyLogfs overload (db.arm failure) op = .ok result ∧
        ((db.Kept es result.2 ∧ db.Harmless op failure) ∨
          ∃ ref index g, mode.Applies (db.Live op.key) ∧
            index.Slots (fun h => headOff (es h)) ∧
            index.maps ref = ⟨indexKey op.key.1, headOff (es (indexKey op.key.1))⟩ ∧
            Survives failure g ∧
            ((∃ n < 3, g = some (.append n) ∧ Kvdb.Torn { db.arm g with index := index }
                ⟨op.key.1, op.data, headOff (es (indexKey op.key.1))⟩ mode n result) ∨
              (∀ n < 3, g ≠ some (.append n)) ∧ Kvdb.Appended { db.arm g with index := index }
                ⟨op.key.1, op.data, headOff (es (indexKey op.key.1))⟩ ref result)) := by
  have key_ok := op.key.2
  have ne : op.key.1 ≠ [] := fun e => key_ok.1 (by simp [e])
  rw [Kvdb.step_mutate faultyLogfs overload _ is_mutation]
  obtain stop | ⟨ref, index, ok, slots, held⟩ := h.slots.update overload ne
  · exact Or.inl (by simp only [mutate, show (db.arm failure).index = db.index from rfl, stop])
  · right
    set reads : Bool := mode == .remove && op.args.2.isSome with reads_def
    have fits : (if reads then op.args.2.getD 0 else 0) ≤
        ((if reads then op.args.1 else none).getD []).length := by
      cases reads with
      | false => simp
      | true => exact op.args_fit
    have start : (index.maps ref).off = headOff (es (indexKey op.key.1)) := congrArg Map.off held
    obtain ⟨failing, stop⟩ | ⟨g, c, left, walk, dead⟩ := h.walk_cases failure op.key.1 fits
    · refine ⟨(⟨-1, op.args.1, op.args.2⟩, { db.arm none with index := index }), ?_,
        Or.inl ⟨⟨rfl, rfl, rfl, slots⟩, ?_⟩⟩
      · simp only [mutate, show (db.arm failure).index = db.index from rfl, ok, start,
          show (db.arm failure).kvraw = db.kvraw.arm failure from rfl, Kvraw.size_arm,
          ← reads_def, stop]
        rfl
      · obtain ⟨n, rfl⟩ := failing
        trivial
    · have live : ¬ (c.off = 0 ∨ c.valLen = 0) ↔ db.Live op.key := by
        rw [h.live_iff, dead]
      have applies : mode.Applies (db.Live op.key) ↔
          mode.Applies (¬ (c.off = 0 ∨ c.valLen = 0)) := by rw [live]
      have val_eq : mode ≠ .remove → (if reads then c.val else op.args.1) = op.args.1 := by
        intro other
        have off : reads = false := by simp [reads_def, other]
        simp [off]
      have run : mutate faultyLogfs overload (db.arm failure) op.key.1 op.args.1 op.args.2 mode =
          mutateFound faultyLogfs { db.arm g with index := index } op.key.1
            (if reads then c.val else op.args.1) op.args.2 mode ref c := by
        simp only [mutate, show (db.arm failure).index = db.index from rfl, ok, start,
          show (db.arm failure).kvraw = db.kvraw.arm failure from rfl, Kvraw.size_arm,
          ← reads_def, walk]
        rfl
      rw [run]
      obtain ⟨idle, r, same, rv⟩ | ⟨here, result, same, ends⟩ :=
        @mutateFound_cases { db.arm g with index := index } op mode c _ ref is_mutation val_eq _
          start
      · refine ⟨_, same, Or.inl ⟨⟨rfl, rfl, rfl, slots⟩, db.harmless_of_idle ?_⟩⟩
        intro mode' is_mode'
        obtain rfl := Option.some.inj (is_mutation.symm.trans is_mode')
        exact fun here => idle (applies.mp here)
      · exact ⟨_, same, Or.inr ⟨ref, index, g, applies.mpr here, slots, held, left, ends⟩⟩

/-- What an operation does to a chained store whose logfs fails as `failure` says. -/
theorem Kvdb.Chained.step_cases (h : db.Chained rs es) (overload : Nat → Nat → Bool) (op : Op)
    (failure : Option Failure) :
    Kvdb.step faultyLogfs overload (db.arm failure) op = .error .exitSoftware ∨
      ∃ result, Kvdb.step faultyLogfs overload (db.arm failure) op = .ok result ∧
        ((db.Kept es result.2 ∧ db.Harmless op failure) ∨
          ∃ mode ref index g, op.mode = some mode ∧ mode.Applies (db.Live op.key) ∧
            index.Slots (fun h => headOff (es h)) ∧
            index.maps ref = ⟨indexKey op.key.1, headOff (es (indexKey op.key.1))⟩ ∧
            Survives failure g ∧
            ((∃ n < 3, g = some (.append n) ∧ Kvdb.Torn { db.arm g with index := index }
                ⟨op.key.1, op.data, headOff (es (indexKey op.key.1))⟩ mode n result) ∨
              (∀ n < 3, g ≠ some (.append n)) ∧ Kvdb.Appended { db.arm g with index := index }
                ⟨op.key.1, op.data, headOff (es (indexKey op.key.1))⟩ ref result)) := by
  cases is_mutation : op.mode with
  | none =>
    cases op with
    | lookup key out =>
      obtain ⟨r, g, ok, _⟩ := h.lookup_cases failure key out.val out.cap out.fits
      exact Or.inr ⟨_, ok, Or.inl ⟨⟨rfl, rfl, rfl, h.slots⟩, db.harmless_of_idle (by simp [Op.mode])⟩⟩
    | _ => cases is_mutation
  | some mode =>
    refine (h.mutate_cases overload is_mutation failure).imp_right ?_
    rintro ⟨result, ok, ends⟩
    refine ⟨result, ok, ends.imp_right ?_⟩
    rintro ⟨ref, index, g, appends⟩
    exact ⟨mode, ref, index, g, rfl, appends⟩

theorem Survives.append {f : Option Failure} {n : Nat} (h : Survives f (some (.append n))) :
    f = some (.append n) := by
  obtain _ | m | m := f
  · cases h
  · obtain ⟨_, same⟩ := h
    cases same
  · exact Eq.symm h

/-- A failure that stops the append before its header leaves the store as it was. -/
theorem Kvdb.Torn.kept {r : Rec} {mode : Mode} {index : Index} {g : Option Failure}
    {result : Reply × Kvdb FaultyLog} (h : Kvdb.Torn { db.arm g with index := index } r mode 0 result)
    (other : mode ≠ .update) (slots : index.Slots fun h => headOff (es h)) :
    db.Kept es result.2 where
  size := (h.counters other).1
  waste := (h.counters other).2
  kvraw := by
    rw [h.kvraw]
    simp [Rec.torn, Kvraw.arm, Kvdb.arm]
  slots := by
    rw [h.index]
    exact slots

theorem length_of_kvrawAppend {kvraw kvraw' : Kvraw Bytes} {key val : Bytes} {prev off : Nat}
    (key_ok : keyLenOk key) (val_le : val.length ≤ 0xffffffff)
    (ok : kvrawAppend idealLogfs kvraw key val prev = .ok (some off, kvraw')) :
    kvraw'.logfs.length = kvraw.logfs.length + (metaLen + key.length + val.length) := by
  obtain ⟨pos, le⟩ := key_ok
  have key_mod : key.length % 2 ^ 16 = key.length := Nat.mod_eq_of_lt (by omega)
  have val_mod : val.length % 2 ^ 32 = val.length := Nat.mod_eq_of_lt (by omega)
  have key_guard : ¬ (key.length = 0 ∨ 0xffff < key.length) := by omega
  have val_guard : ¬ 0xffffffff < val.length := by omega
  simp only [kvrawAppend, if_neg key_guard, if_neg val_guard, key_mod, val_mod, idealLogfs, ne_eq,
    not_true_eq_false, if_false, Except.ok.injEq, Prod.mk.injEq] at ok
  obtain ⟨_, rfl⟩ := ok
  simp
  omega

theorem Kvdb.Chained.opened (ok : kvdbOpen faultyLogfs ⟨[], none⟩ = .ok (some db)) :
    ∃ rs es, db.Chained rs es := by
  have start : kvdbOpen faultyLogfs ⟨[], none⟩ =
      .ok (some ⟨0, 0, ⟨18, ⟨logBytes [dummy], none⟩⟩, indexOpen⟩) := by rfl
  rw [start] at ok
  cases ok
  refine ⟨[], fun _ => [], ⟨rfl, rfl, by decide, ?_⟩, Index.Slots.open_, fun _ => trivial,
    fun _ => List.nil_sublist _, ?_⟩
  · simpa using (⟨by decide, by decide, by decide, by decide⟩ : dummy.Fits)
  · intro e older suffix_
    simp at suffix_

/-- A restore starts every chain at the newest record of its hash, unless this is a tombstone. -/
theorem Kvdb.Chained.restored (h : db.Chained rs es) {rs' : List Rec} (fits : ∀ r ∈ rs', r.Fits)
    (log : db.kvraw.logfs.log = logBytes (dummy :: rs'))
    (ok : kvdbRestore overload db.kvraw (visits rs') = .ok db') : ∃ rs es, db'.Chained rs es := by
  have dummy_fits : dummy.Fits := h.holds.fits dummy List.mem_cons_self
  have same : dummy :: rs = dummy :: rs' := logBytes_injective h.holds.fits
    (List.forall_mem_cons.mpr ⟨dummy_fits, fits⟩) (h.holds.bytes.symm.trans log)
  obtain rfl := (List.cons.inj same).2
  have restored := kvdbRestore_restored (fun r mem => by
    have pos := (fits r mem).key_pos
    exact List.length_pos_iff.mp pos) ok
  have chains : ∀ k, ∃ chain, headOff chain = replaySlot (history rs) k ∧ Linked chain ∧
      chain.Sublist (history rs) := by
    intro k
    by_cases live : hashLive k (history rs) = true
    · cases newest_first : classOf k (history rs) with
      | nil => simp [hashLive, newest_first] at live
      | cons e rest =>
        obtain ⟨newer, older, split, _⟩ := List.filter_eq_cons_iff.mp newest_first
        obtain ⟨chain, linked, within⟩ := h.threaded e older ⟨newer, split.symm⟩
        refine ⟨e :: chain, by simp [replaySlot, live, newest_first, headOff], linked, ?_⟩
        rw [split]
        exact (within.cons_cons e).trans (List.sublist_append_right newer (e :: older))
    · exact ⟨[], by simp [replaySlot, live, headOff], trivial, List.nil_sublist _⟩
  choose chain start linked within using chains
  refine ⟨rs, chain, ?_, ?_, linked, within, h.threaded⟩
  · rw [restored.kvraw_eq]
    exact h.holds
  · simpa only [start] using restored.slots

theorem Kvdb.Chained.step (h : db.Chained rs es) {op : Op} {failure : Option Failure} {r : Reply}
    (harmless : db.Harmless op failure)
    (ok : Kvdb.step faultyLogfs overload (db.arm failure) op = .ok (r, db'))
    (small : db'.kvraw.logfs.log.length < 2 ^ 64) : ∃ rs es, db'.Chained rs es := by
  obtain stop | ⟨result, run, outcome⟩ := h.step_cases overload op failure
  · rw [stop] at ok
    cases ok
  · rw [run] at ok
    cases ok
    obtain ⟨kept, _⟩ | ⟨mode, ref, index, g, is_mode, applies, slots, held, left, ends⟩ := outcome
    · exact ⟨rs, es, kept.chained h⟩
    · obtain ⟨n, lt, rfl, torn⟩ | ⟨_, appended⟩ := ends
      · obtain rfl := left.append
        obtain beyond | ⟨rfl, other⟩ := harmless mode is_mode applies
        · omega
        · exact ⟨rs, es, (torn.kept other slots).chained h⟩
      · have length := length_of_kvrawAppend op.key.2 op.data_le appended.kvraw
        have log : (db.kvraw.arm g).ideal.logfs.length = logSize (dummy :: rs) := by
          rw [← length_logBytes, ← h.holds.bytes]
          rfl
        set record : Rec := ⟨op.key.1, op.data, headOff (es (indexKey op.key.1))⟩
        have total : logSize (dummy :: rs) + record.size < 2 ^ 64 := by
          rw [← log]
          exact lt_of_eq_of_lt length.symm small
        exact h.append (r := record) slots held op.key.2 op.data_le rfl appended.kvraw rfl
          appended.index total

theorem Kvdb.Reached.chained (h : db.Reached overload) : ∃ rs es, db.Chained rs es := by
  induction h with
  | opened ok => exact Kvdb.Chained.opened ok
  | restored before fits log ok ih =>
    obtain ⟨rs, es, chained⟩ := ih
    exact chained.restored fits log ok
  | step before harmless ok small ih =>
    obtain ⟨rs, es, chained⟩ := ih
    exact chained.step harmless ok small

end

/-- In every run whose failures are harmless, an operation that returns -1 leaves the store
unchanged; the next failure, if it is not harmless, makes an operation that does not. -/
theorem failed_operation_unchanged_iff {overload : Nat → Nat → Bool} {db db' : Kvdb FaultyLog}
    (reached : db.Reached overload) (op : Op) (failure : Option Failure) (r : Reply)
    (ok : Kvdb.step faultyLogfs overload (db.arm failure) op = .ok (r, db')) :
    (r.rv = -1 → db.Unchanged db') ↔ db.Harmless op failure := by
  obtain ⟨rs, es, h⟩ := reached.chained
  obtain stop | ⟨result, run, outcome⟩ := h.step_cases overload op failure
  · rw [stop] at ok
    cases ok
  · rw [run] at ok
    cases ok
    obtain ⟨kept, harmless⟩ | ⟨mode, ref, index, g, is_mode, applies, slots, held, left, ends⟩ :=
      outcome
    · exact ⟨fun _ => harmless, fun _ _ => kept.unchanged h⟩
    · obtain ⟨n, lt, rfl, torn⟩ | ⟨missed, appended⟩ := ends
      · obtain rfl := left.append
        constructor
        · intro unchanged mode' is_mode' _
          rw [is_mode] at is_mode'
          cases is_mode'
          have same := unchanged torn.rv
          have aligned := same.aligned
          have before := h.holds.aligned
          rw [torn.kvraw] at aligned
          simp only [Kvdb.arm, Kvraw.size_arm, Kvraw.log_arm, List.length_append] at aligned
          have none_in : n = 0 := (Rec.torn_length
            ⟨op.key.1, op.data, headOff (es (indexKey op.key.1))⟩ n).mp (by omega)
          refine Or.inr ⟨none_in, fun update => torn.counted update ⟨same.size, same.waste⟩⟩
        · intro harmless _
          obtain beyond | ⟨rfl, other⟩ := harmless mode is_mode applies
          · omega
          · exact (torn.kept other slots).unchanged h
      · refine ⟨fun _ => ?_, fun _ failed => ?_⟩
        · obtain _ | m | m := failure
          · trivial
          · trivial
          · intro _ _ _
            by_contra few
            exact missed m (by omega) left
        · rw [appended.rv] at failed
          cases failed

/-- The counters, `kvraw->size` and the length of the log after one operation on a fresh store. -/
def freshStep (failure : Option Failure) (op : Op) : Option (Int × UInt64 × UInt64 × Nat × Nat) :=
  match kvdbOpen faultyLogfs ⟨[], none⟩ with
  | .ok (some db) =>
    match Kvdb.step faultyLogfs loadTest (db.arm failure) op with
    | .ok (r, db') =>
      some (r.rv, kvdbSize db, kvdbSize db', db'.kvraw.size, db'.kvraw.logfs.log.length)
    | .error _ => none
  | _ => none

theorem freshStep_some {failure : Option Failure} {op : Op} {rv : Int} {before after : UInt64}
    {size length : Nat} (outcome : freshStep failure op = some (rv, before, after, size, length)) :
    ∃ db r db', db.Reached loadTest ∧
      Kvdb.step faultyLogfs loadTest (db.arm failure) op = .ok (r, db') ∧ r.rv = rv ∧
      kvdbSize db = before ∧ kvdbSize db' = after ∧ db'.kvraw.size = size ∧
      db'.kvraw.logfs.log.length = length := by
  unfold freshStep at outcome
  split at outcome
  · rename_i db opened
    split at outcome
    · rename_i r db' ok
      simp only [Option.some.injEq, Prod.mk.injEq] at outcome
      obtain ⟨rv, before, after, size, length⟩ := outcome
      exact ⟨db, r, db', .opened opened, ok, rv, before, after, size, length⟩
    · cases outcome
  · cases outcome

/-- A failed update counts its key; a failed insertion leaves its header in the log. -/
theorem failed_operation_changes :
    let key : Key := ⟨[7], by decide⟩
    let val : Value := ⟨[1, 2], by decide⟩
    (∃ (db : Kvdb FaultyLog) (r : Reply) (db' : Kvdb FaultyLog), db.Reached loadTest ∧
      Kvdb.step faultyLogfs loadTest (db.arm (some (.append 0))) (.update key val) = .ok (r, db') ∧
      r.rv = -1 ∧ kvdbSize db = 0 ∧ kvdbSize db' = 1 ∧ ¬ db.Unchanged db') ∧
    ∃ (db : Kvdb FaultyLog) (r : Reply) (db' : Kvdb FaultyLog), db.Reached loadTest ∧
      Kvdb.step faultyLogfs loadTest (db.arm (some (.append 1))) (.insert key val) = .ok (r, db') ∧
      r.rv = -1 ∧ db'.kvraw.size = 18 ∧ db'.kvraw.logfs.log.length = 34 ∧ ¬ db.Unchanged db' := by
  intro key val
  have update : freshStep (some (.append 0)) (.update key val) = some (-1, 0, 1, 18, 18) := by
    decide +kernel
  have insert : freshStep (some (.append 1)) (.insert key val) = some (-1, 0, 0, 18, 34) := by
    decide +kernel
  constructor
  · obtain ⟨db, r, db', reached, ok, rv, before, after, _⟩ := freshStep_some update
    refine ⟨db, r, db', reached, ok, rv, before, after, fun same => ?_⟩
    have size := same.size
    rw [before, after] at size
    cases size
  · obtain ⟨db, r, db', reached, ok, rv, _, _, size, length⟩ := freshStep_some insert
    refine ⟨db, r, db', reached, ok, rv, size, length, fun same => ?_⟩
    have aligned := same.aligned
    rw [size, length] at aligned
    omega

/-- An insertion whose header append fails is harmless. -/
theorem failed_operation_unchanged_iff_header :
    let key : Key := ⟨[7], by decide⟩
    let val : Value := ⟨[1, 2], by decide⟩
    ∃ (db : Kvdb FaultyLog) (r : Reply) (db' : Kvdb FaultyLog), db.Reached loadTest ∧
      Kvdb.step faultyLogfs loadTest (db.arm (some (.append 0))) (.insert key val) = .ok (r, db') ∧
      r.rv = -1 ∧ ((r.rv = -1 → db.Unchanged db') ↔
        db.Harmless (.insert key val) (some (.append 0))) := by
  intro key val
  have insert : freshStep (some (.append 0)) (.insert key val) = some (-1, 0, 0, 18, 18) := by
    decide +kernel
  obtain ⟨db, r, db', reached, ok, rv, _⟩ := freshStep_some insert
  exact ⟨db, r, db', reached, ok, rv,
    failed_operation_unchanged_iff reached (.insert key val) (some (.append 0)) r ok⟩

end OsProjects.KeyValue
