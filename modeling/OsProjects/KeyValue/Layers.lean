import OsProjects.KeyValue.FailedMutation

/-!
# The store over a real layer

`LogfsOps.Honours` asks a layer to succeed in every state and for every size, which
logfs on a device does not. `LogfsOps.Serves` asks it of the states in use only: those
that hold a log, for pieces up to a size and logs up to a length. What the store answers
over the ideal log, it then answers over such a layer, and leaves it in use.
-/
namespace OsProjects.KeyValue
open OsProjects.Library

/-- From the states that hold a log, reads of the log and appends of pieces succeed as long as the
log has room. -/
structure LogfsOps.Serves {σ : Type} (fs : LogfsOps σ) (holds : σ → Bytes → Prop)
    (piece room : Nat) : Prop where
  append : ∀ {s log} buf, holds s log → buf.length ≤ piece → log.length + buf.length ≤ room →
    ∃ s', fs.append s buf = (0, s') ∧ holds s' (log ++ buf)
  read : ∀ {s log} off len, holds s log → off + len ≤ log.length →
    ∃ s', fs.read s off len = (some ((log.drop off).take len), s') ∧ holds s' log

/-- The handle on a layer that holds the log of an ideal one. -/
structure Kvraw.Over {σ : Type} (holds : σ → Bytes → Prop) (kvraw : Kvraw σ) (ideal : Kvraw Bytes) :
    Prop where
  size : kvraw.size = ideal.size
  logfs : holds kvraw.logfs ideal.logfs

structure Kvdb.Over {σ : Type} (holds : σ → Bytes → Prop) (db : Kvdb σ) (ideal : Kvdb Bytes) :
    Prop where
  size : db.size = ideal.size
  waste : db.waste = ideal.waste
  index : db.index = ideal.index
  kvraw : db.kvraw.Over holds ideal.kvraw

section
variable {σ : Type} {fs : LogfsOps σ} {holds : σ → Bytes → Prop} {piece room : Nat}
  {kvraw : Kvraw σ} {ideal ideal' : Kvraw Bytes}

/-- A read of the ideal log that answers stays within the log. -/
theorem idealLogfs_read_some {log log' data : Bytes} {off len : Nat}
    (ok : idealLogfs.read log off len = (some data, log')) :
    off + len ≤ log.length ∧ data = (log.drop off).take len ∧ log' = log := by
  obtain ⟨found, rfl⟩ := Prod.mk.inj ok
  split_ifs at found with within
  exact ⟨within, (Option.some.inj found).symm, rfl⟩

theorem Kvraw.Over.read (serves : fs.Serves holds piece room) (h : kvraw.Over holds ideal)
    {off len : Nat} {data log' : Bytes}
    (ok : idealLogfs.read ideal.logfs off len = (some data, log')) :
    log' = ideal.logfs ∧ ∃ l, fs.read kvraw.logfs off len = (some data, l) ∧
      Kvraw.Over holds ⟨kvraw.size, l⟩ ideal := by
  obtain ⟨within, rfl, rfl⟩ := idealLogfs_read_some ok
  obtain ⟨l, read, held⟩ := serves.read off len h.logfs within
  exact ⟨rfl, l, read, h.size, held⟩

theorem Kvraw.Over.readMeta (serves : fs.Serves holds piece room) (h : kvraw.Over holds ideal)
    {off : Nat} {m : Meta} (ok : readMeta idealLogfs ideal off = (some m, ideal')) :
    ideal' = ideal ∧ ∃ kvraw', readMeta fs kvraw off = (some m, kvraw') ∧
      kvraw'.Over holds ideal := by
  unfold KeyValue.readMeta at ok ⊢
  rw [h.size]
  by_cases outside : ideal.size < (off + metaLen) % 2 ^ 64
  · rw [if_pos outside] at ok
    cases ok
  · rw [if_neg outside] at ok ⊢
    cases read : idealLogfs.read ideal.logfs off metaLen with
    | mk data log' =>
      cases data with
      | none => simp [read] at ok
      | some buf =>
        obtain ⟨rfl, l, same, held⟩ := h.read serves read
        simp only [read, same] at ok ⊢
        split_ifs at ok with bad
        · cases ok
        · rw [if_neg bad]
          cases ok
          exact ⟨rfl, _, rfl, rfl, held.logfs⟩

theorem Kvraw.Over.lookup (serves : fs.Serves holds piece room) (h : kvraw.Over holds ideal)
    {keyLen valLen off : Nat} {val : Option Bytes} {f : Found}
    (ok : kvrawLookup idealLogfs ideal keyLen val valLen off = .ok (some f, ideal')) :
    ideal' = ideal ∧ ∃ kvraw', kvrawLookup fs kvraw keyLen val valLen off = .ok (some f, kvraw') ∧
      kvraw'.Over holds ideal := by
  unfold kvrawLookup at ok ⊢
  split_ifs at ok with missing zero
  rw [if_neg missing, if_neg zero]
  cases start : KeyValue.readMeta idealLogfs ideal off with
  | mk m ideal₁ =>
    cases m with
    | none => simp [start] at ok
    | some m =>
      obtain ⟨rfl, kvraw₁, same, held₁⟩ := h.readMeta serves start
      simp only [start, same] at ok ⊢
      cases first : idealLogfs.read ideal₁.logfs (off + metaLen) (min m.keyLen keyLen) with
      | mk key log₁ =>
        cases key with
        | none => simp [first] at ok
        | some key =>
          obtain ⟨rfl, l₁, same₁, held₂⟩ := held₁.read serves first
          simp only [first, same₁] at ok ⊢
          cases second : idealLogfs.read ideal₁.logfs (off + metaLen + m.keyLen)
              (min m.valLen valLen) with
          | mk data log₂ =>
            cases data with
            | none => simp [second] at ok
            | some data =>
              obtain ⟨rfl, l₂, same₂, held₃⟩ := held₂.read serves second
              simp only [second, same₂] at ok ⊢
              cases ok
              exact ⟨rfl, _, rfl, held₃⟩

/-- A walk that ends over the ideal log ends over the layer in the same way. -/
theorem Kvraw.Over.walk (serves : fs.Serves holds piece room) {fuel : Nat} {key : Bytes}
    {val : Option Bytes} {valLen off : Nat} {c : Chain} (h : kvraw.Over holds ideal)
    (ok : chainLookup idealLogfs fuel ideal key val valLen off = .ok (some c, ideal')) :
    ideal' = ideal ∧ ∃ kvraw', chainLookup fs fuel kvraw key val valLen off = .ok (some c, kvraw') ∧
      kvraw'.Over holds ideal := by
  induction fuel generalizing kvraw val off with
  | zero => cases ok
  | succ fuel ih =>
    simp only [chainLookup] at ok ⊢
    split_ifs at ok with zero
    · cases ok
      rw [if_pos zero]
      exact ⟨rfl, kvraw, rfl, h⟩
    · rw [if_neg zero]
      cases first : kvrawLookup idealLogfs ideal (min key.length 256) val valLen off with
      | error e => simp [first] at ok
      | ok found =>
        obtain ⟨_ | f, ideal₁⟩ := found
        · simp [first] at ok
        · obtain ⟨rfl, kvraw₁, same, held₁⟩ := h.lookup serves first
          simp only [first, same] at ok ⊢
          split_ifs at ok with mismatch long whole
          · rw [if_pos mismatch]
            exact ih held₁ ok
          · rw [if_neg mismatch, if_pos long]
            cases second : kvrawLookup idealLogfs ideal₁ f.keyLen f.val 0 off with
            | error e => simp [second] at ok
            | ok again =>
              obtain ⟨_ | g, ideal₂⟩ := again
              · simp [second] at ok
              · obtain ⟨rfl, kvraw₂, same₂, held₂⟩ := held₁.lookup serves second
                simp only [second, same₂] at ok ⊢
                split_ifs at ok with match_
                · cases ok
                  rw [if_pos match_]
                  exact ⟨rfl, kvraw₂, rfl, held₂⟩
                · rw [if_neg match_]
                  exact ih held₂ ok
          · rw [if_neg mismatch, if_neg long, if_pos whole]
            cases ok
            exact ⟨rfl, kvraw₁, rfl, held₁⟩
          · rw [if_neg mismatch, if_neg long, if_neg whole]
            exact ih held₁ ok

/-- An append of a record that the layer has room for. -/
theorem Kvraw.Over.append (serves : fs.Serves holds piece room) (h : kvraw.Over holds ideal)
    {key val : Bytes} {prev : Nat} {result : Option Nat}
    (ok : kvrawAppend idealLogfs ideal key val prev = .ok (result, ideal'))
    (header : metaLen ≤ piece) (key_le : key.length ≤ piece) (val_le : val.length ≤ piece)
    (within : ideal'.logfs.length ≤ room) :
    ∃ kvraw', kvrawAppend fs kvraw key val prev = .ok (result, kvraw') ∧
      kvraw'.Over holds ideal' := by
  unfold kvrawAppend at ok ⊢
  split_ifs at ok with no_key long
  rw [if_neg no_key, if_neg long]
  simp only [idealLogfs, ne_eq, not_true_eq_false, if_false] at ok ⊢
  cases ok
  simp only [List.length_append, Meta.length_encode] at within
  obtain ⟨l₁, append₁, held₁⟩ := serves.append
    (Meta.encode ⟨markK, markV, prev, key.length % 2 ^ 16, val.length % 2 ^ 32⟩) h.logfs
    (by rwa [Meta.length_encode]) (by rw [Meta.length_encode]; omega)
  obtain ⟨l₂, append₂, held₂⟩ := serves.append (key.take (key.length % 2 ^ 16)) held₁
    (by rw [List.length_take]; omega)
    (by rw [List.length_append, Meta.length_encode]; omega)
  obtain ⟨l₃, append₃, held₃⟩ := serves.append (val.take (val.length % 2 ^ 32)) held₂
    (by rw [List.length_take]; omega)
    (by rw [List.length_append, List.length_append, Meta.length_encode]; omega)
  simp only [append₁, append₂, append₃, not_true_eq_false, if_false, h.size]
  exact ⟨_, rfl, rfl, held₃⟩

variable {db : Kvdb σ} {idealDb idealDb' : Kvdb Bytes} {key : Bytes} {val : Option Bytes}
  {valLen : Option Nat} {r : Reply}

theorem Kvdb.Over.appendAt (serves : fs.Serves holds piece room) (h : db.Over holds idealDb)
    {data : Bytes} {ref : Nat} {done : Bool}
    (ok : idealDb.appendAt idealLogfs key data ref = .ok (done, idealDb'))
    (header : metaLen ≤ piece) (key_le : key.length ≤ piece) (data_le : data.length ≤ piece)
    (within : idealDb'.kvraw.logfs.length ≤ room) :
    ∃ db', db.appendAt fs key data ref = .ok (done, db') ∧ db'.Over holds idealDb' := by
  unfold Kvdb.appendAt at ok ⊢
  rw [h.index]
  cases append : kvrawAppend idealLogfs idealDb.kvraw key data (idealDb.index.maps ref).off with
  | error e => simp [append] at ok
  | ok result =>
    obtain ⟨_ | off, kvraw'⟩ := result
    · simp only [append] at ok
      cases ok
      obtain ⟨kvraw₁, same, held⟩ := h.kvraw.append serves append header key_le data_le within
      rw [same]
      exact ⟨_, rfl, h.size, h.waste, rfl, held⟩
    · simp only [append] at ok
      cases ok
      obtain ⟨kvraw₁, same, held⟩ := h.kvraw.append serves append header key_le data_le within
      rw [same]
      exact ⟨_, rfl, h.size, h.waste, rfl, held⟩

/-- The counters do not matter to the layer. -/
theorem Kvdb.Over.counters (h : db.Over holds idealDb) (size waste : UInt64) :
    Kvdb.Over holds { db with size := size, waste := waste }
      { idealDb with size := size, waste := waste } :=
  ⟨rfl, rfl, h.index, h.kvraw⟩

/-- The end of every branch of `mutate` that appends: the replies of a failed and of a successful
append, and what the latter makes of the counters. -/
def Kvdb.finish {τ : Type} (appended : Except Fault (Bool × Kvdb τ)) (failed done : Reply)
    (size waste : UInt64 → UInt64) : Except Fault (Reply × Kvdb τ) :=
  match appended with
  | .error e => .error e
  | .ok (false, db) => .ok (failed, db)
  | .ok (true, db) => .ok (done, { db with size := size db.size, waste := waste db.waste })

theorem Kvdb.Over.finish (serves : fs.Serves holds piece room) (h : db.Over holds idealDb)
    (data : Bytes) {ref : Nat} {failed done : Reply} (size waste : UInt64 → UInt64)
    (ok : Kvdb.finish (idealDb.appendAt idealLogfs key data ref) failed done size waste =
      .ok (r, idealDb'))
    (answers : r ≠ failed) (header : metaLen ≤ piece) (key_le : key.length ≤ piece)
    (data_le : data.length ≤ piece) (within : idealDb'.kvraw.logfs.length ≤ room) :
    ∃ db', Kvdb.finish (db.appendAt fs key data ref) failed done size waste = .ok (r, db') ∧
      db'.Over holds idealDb' := by
  unfold Kvdb.finish at ok ⊢
  cases append : idealDb.appendAt idealLogfs key data ref with
  | error e => simp [append] at ok
  | ok result =>
    obtain ⟨_ | _, next⟩ := result
    · simp only [append] at ok
      cases ok
      exact absurd rfl answers
    · simp only [append] at ok
      cases ok
      obtain ⟨db₁, same, held⟩ := h.appendAt serves append header key_le data_le within
      simp only [same, held.size, held.waste]
      exact ⟨_, rfl, held.counters _ _⟩

/-- A mutation that does not fail over the ideal log. -/
theorem Kvdb.Over.mutateFound (serves : fs.Serves holds piece room) (h : db.Over holds idealDb)
    {mode : Mode} {ref : Nat} {c : Chain}
    (ok : mutateFound idealLogfs idealDb key val valLen mode ref c = .ok (r, idealDb'))
    (answers : r.rv ≠ -1) (header : metaLen ≤ piece) (key_le : key.length ≤ piece)
    (data_le : mode ≠ .remove → ((val.getD []).take (valLen.getD 0)).length ≤ piece)
    (within : idealDb'.kvraw.logfs.length ≤ room) :
    ∃ db', mutateFound fs db key val valLen mode ref c = .ok (r, db') ∧
      db'.Over holds idealDb' := by
  have differs : ∀ r' : Reply, r'.rv = -1 → r ≠ r' := fun r' failed same => answers (same ▸ failed)
  have failed := differs ⟨-1, val, valLen⟩ rfl
  cases mode with
  | remove =>
    simp only [KeyValue.mutateFound] at ok ⊢
    split_ifs at ok with dead
    · cases ok
      rw [if_pos dead]
      exact ⟨db, rfl, h⟩
    · rw [if_neg dead]
      exact h.finish serves [] (· - 1) (· + 1) ok failed header key_le (by simp) within
  | insert =>
    cases valLen with
    | none => cases ok
    | some len =>
      simp only [KeyValue.mutateFound] at ok ⊢
      split_ifs at ok with live
      · cases ok
        rw [if_pos live]
        exact ⟨db, rfl, h⟩
      · rw [if_neg live]
        exact h.finish serves _ (· + 1) id ok failed header key_le
          (data_le (by simp)) within
  | update =>
    cases valLen with
    | none => cases ok
    | some len =>
      simp only [KeyValue.mutateFound] at ok ⊢
      split_ifs at ok with dead
      · rw [if_pos dead, h.size, h.waste]
        exact (h.counters (idealDb.size + 1) idealDb.waste).finish serves _ id id ok failed
          header key_le (data_le (by simp)) within
      · rw [if_neg dead, h.size, h.waste]
        exact (h.counters idealDb.size (idealDb.waste + 1)).finish serves _ id id ok failed
          header key_le (data_le (by simp)) within
  | replace =>
    cases valLen with
    | none => cases ok
    | some len =>
      simp only [KeyValue.mutateFound] at ok ⊢
      split_ifs at ok with dead
      · cases ok
        rw [if_pos dead]
        exact ⟨db, rfl, h⟩
      · rw [if_neg dead]
        exact h.finish serves _ id (· + 1) ok failed header key_le
          (data_le (by simp)) within

theorem Kvdb.Over.mutate (serves : fs.Serves holds piece room) (h : db.Over holds idealDb)
    {overload : Nat → Nat → Bool} {mode : Mode}
    (ok : mutate idealLogfs overload idealDb key val valLen mode = .ok (r, idealDb'))
    (answers : r.rv ≠ -1) (header : metaLen ≤ piece) (key_le : key.length ≤ piece)
    (data_le : mode ≠ .remove → ((val.getD []).take (valLen.getD 0)).length ≤ piece)
    (within : idealDb'.kvraw.logfs.length ≤ room) :
    ∃ db', mutate fs overload db key val valLen mode = .ok (r, db') ∧ db'.Over holds idealDb' := by
  unfold KeyValue.mutate at ok ⊢
  rw [h.index]
  cases located : indexUpdate overload idealDb.index key with
  | error e => simp [located] at ok
  | ok place =>
    obtain ⟨ref, index⟩ := place
    simp only [located, h.kvraw.size] at ok ⊢
    split at ok
    · cases ok
    · cases ok
      exact absurd rfl answers
    · next c _ walk =>
      obtain ⟨rfl, kvraw₁, same, held⟩ := h.kvraw.walk serves walk
      have start : Kvdb.Over holds { db with kvraw := kvraw₁, index := index }
          { idealDb with index := index } := ⟨h.size, h.waste, rfl, held⟩
      simp only [same]
      refine start.mutateFound serves ok answers header key_le (fun other => ?_) within
      have off : (mode == .remove) = false := by simp [other]
      simpa [off] using data_le other

theorem Kvdb.Over.lookup (serves : fs.Serves holds piece room) (h : db.Over holds idealDb)
    (ok : kvdbLookup idealLogfs idealDb key val valLen = .ok (r, idealDb'))
    (answers : r.rv ≠ -1) :
    ∃ db', kvdbLookup fs db key val valLen = .ok (r, db') ∧ db'.Over holds idealDb' := by
  unfold kvdbLookup at ok ⊢
  rw [h.index]
  by_cases bad_key : ¬ keyLenOk key
  · rw [if_pos bad_key] at ok
    cases ok
  by_cases missing : valLen.getD 0 ≠ 0 ∧ val = none
  · rw [if_neg bad_key, if_pos missing] at ok
    cases ok
  rw [if_neg bad_key, if_neg missing] at ok ⊢
  split at ok
  · cases ok
  · cases ok
    exact ⟨db, rfl, h⟩
  · next ref _ =>
    by_cases zero : (idealDb.index.maps ref).off = 0
    · rw [if_pos zero] at ok ⊢
      cases ok
      exact ⟨db, rfl, h⟩
    · simp only [if_neg zero, h.kvraw.size] at ok ⊢
      split at ok
      · cases ok
      · cases ok
        exact absurd rfl answers
      · next c _ walk =>
        obtain ⟨rfl, kvraw₁, same, held⟩ := h.kvraw.walk serves walk
        have found : Kvdb.Over holds { db with kvraw := kvraw₁ } idealDb :=
          ⟨h.size, h.waste, h.index, held⟩
        rw [h.index] at found
        simp only [same]
        by_cases dead : c.off = 0 ∨ c.valLen = 0
        · rw [if_pos dead] at ok ⊢
          cases ok
          exact ⟨_, rfl, found⟩
        · rw [if_neg dead] at ok ⊢
          cases valLen with
          | none => cases ok
          | some cap =>
            cases ok
            exact ⟨_, rfl, found⟩

/-- An operation whose record a layer has room for. -/
def Op.Pieces (op : Op) (piece : Nat) : Prop :=
  op.key.1.length ≤ piece ∧ op.data.length ≤ piece

instance (op : Op) (piece : Nat) : Decidable (op.Pieces piece) :=
  inferInstanceAs (Decidable (_ ∧ _))

/-- An operation that does not fail over the ideal log does over the layer what it does there. -/
theorem Kvdb.Over.step (serves : fs.Serves holds piece room) (h : db.Over holds idealDb)
    {overload : Nat → Nat → Bool} {op : Op}
    (ok : Kvdb.step idealLogfs overload idealDb op = .ok (r, idealDb'))
    (answers : r.rv ≠ -1) (header : metaLen ≤ piece) (pieces : op.Pieces piece)
    (within : idealDb'.kvraw.logfs.length ≤ room) :
    ∃ db', Kvdb.step fs overload db op = .ok (r, db') ∧ db'.Over holds idealDb' := by
  cases is_mutation : op.mode with
  | none =>
    cases op with
    | lookup key out => exact h.lookup serves ok answers
    | _ => cases is_mutation
  | some mode =>
    rw [Kvdb.step_mutate idealLogfs overload idealDb is_mutation] at ok
    rw [Kvdb.step_mutate fs overload db is_mutation]
    refine h.mutate serves ok answers header pieces.1 (fun other => ?_) within
    have data : (op.args.1.getD []).take (op.args.2.getD 0) = op.data := by
      cases op with
      | insert key val | update key val | replace key val => simp [Op.args, Op.data]
      | remove key out => cases is_mutation; exact absurd rfl other
      | lookup key out => cases is_mutation
    rw [data]
    exact pieces.2

end

end OsProjects.KeyValue
