import OsProjects.KeyValue.VisitorRuns

/-!
# When a restore comes back

`kvdb_open_with_restore` reads one header more than the log has. It comes back when all
it meets are whole records with names, and behind them a header that lies on the device
and has no mark; at offset 0 it needs a mark. A log that ends on a block boundary is
continued by what an earlier session left there.
-/
namespace OsProjects.KeyValue
open OsProjects.Library

/-- `kvdb_open_with_restore` returns after some number of passes. -/
def Device.Opens (device : Device) (rand : Nat → Nat → Nat) (overload : Nat → Nat → Bool) : Prop :=
  ∃ (fuel : Nat) (db : Kvdb Logfs), kvdbOpenWithRestore rand overload fuel device = .ok db

/-- What a completely flushed session with the records `rs` leaves. -/
structure Device.Left (device : Device) (rs : List Rec) : Prop where
  log : device.HasLog 0 (dummy :: rs)
  padded : ∀ x, logSize (dummy :: rs) ≤ x →
    x < roundUp (logSize (dummy :: rs)) device.block → device.bytes x = 0

/-- The records behind the dummy are `rs`, and a restore can handle them and see their end. -/
structure Device.Readable (device : Device) (overload : Nat → Nat → Bool) (rs : List Rec) :
    Prop where
  log : device.HasLog 0 (dummy :: rs)
  ends : device.EndsAt (logSize (dummy :: rs))
  sums : ∀ r ∈ rs, r.Sums
  indexed : ∃ index, indexAll overload indexOpen (rs.map Rec.key) = .ok index

section
variable {device : Device} {lfs lfs' : Logfs} {state : Bytes × Nat} {rs : List Rec}

theorem Device.HasLog.cons {off : Nat} {r : Rec} (first : device.HasLog off [r])
    (rest : device.HasLog (off + r.size) rs) : device.HasLog off (r :: rs) := by
  obtain ⟨bytes, _, fits⟩ := first.head
  have inside := rest.inside
  have split : logBytes (r :: rs) = r.bytes ++ logBytes rs := by simp [logBytes]
  refine ⟨?_, ?_, List.forall_mem_cons.mpr ⟨fits, rest.fits⟩⟩
  · rw [logSize_cons, Mem.read_add, bytes, rest.bytes, split]
  · rw [logSize_cons]
    omega

theorem Device.HasLog.first {off : Nat} {r : Rec} (log : device.HasLog off (r :: rs)) :
    device.HasLog off [r] := by
  obtain ⟨bytes, inside, fits⟩ := log.head
  refine ⟨?_, by simpa using inside, by simpa using fits⟩
  simpa [logBytes] using bytes

theorem Device.HasLog.behind {rs' : List Rec} {off : Nat} (log : device.HasLog off (rs ++ rs')) :
    device.HasLog (off + logSize rs) rs' := by
  induction rs generalizing off with
  | nil => exact log
  | cons r rs ih =>
    rw [logSize_cons, ← Nat.add_assoc]
    exact ih log.tail

/-- Two logs at one offset have the same first record. -/
theorem Device.HasLog.head_unique {off : Nat} {r r' : Rec} {rs' : List Rec}
    (log : device.HasLog off (r :: rs)) (log' : device.HasLog off (r' :: rs')) : r = r' := by
  obtain ⟨bytes, _, fits⟩ := log.head
  obtain ⟨bytes', _, fits'⟩ := log'.head
  have header : r.header = r'.header := by
    rw [← fits.decode, ← log.header, log'.header, fits'.decode]
  have keyLen : r.key.length = r'.key.length := congrArg Meta.keyLen header
  have valLen : r.val.length = r'.val.length := congrArg Meta.valLen header
  have size : r.size = r'.size := by rw [Rec.size, Rec.size, keyLen, valLen]
  rw [← size, bytes] at bytes'
  have one : logBytes [r] = logBytes [r'] := by simpa [logBytes] using bytes'
  have same := logBytes_injective (by simpa using fits) (by simpa using fits') one
  exact (List.cons.inj same).1

/-- A log that ends visibly goes on where another one at its offset stops. -/
theorem Device.HasLog.extends {off : Nat} {rs' : List Rec} (log : device.HasLog off rs)
    (log' : device.HasLog off rs') (ends : device.EndsAt (off + logSize rs')) :
    ∃ older, rs' = rs ++ older := by
  induction rs generalizing off rs' with
  | nil => exact ⟨rs', rfl⟩
  | cons r rs ih =>
    cases rs' with
    | nil => exact absurd log.marked ends.2
    | cons r' rs' =>
      obtain rfl := log.head_unique log'
      rw [logSize_cons, ← Nat.add_assoc] at ends
      obtain ⟨older, rfl⟩ := ih log.tail log'.tail ends
      exact ⟨older, rfl⟩

variable (rand : Nat → Nat → Nat)

/-- A read that returns -1 keeps the lock. -/
theorem readBlocks_none {rand : Nat → Nat} {fuel off len : Nat}
    (failed : readBlocks rand fuel lfs off len = .ok (none, lfs')) : lfs'.locked = true := by
  induction fuel generalizing lfs off len with
  | zero => cases failed
  | succ fuel ih =>
    simp only [readBlocks] at failed
    split at failed
    · cases failed
    · split at failed
      · split at failed
        · cases failed
        · split at failed
          · cases failed
          · next rest _ more =>
            cases rest with
            | none =>
              cases failed
              exact ih more
            | some rest => cases failed
      · split at failed
        · cases failed
        · cases failed
          rfl
        · split at failed
          · cases failed
          · split at failed
            · cases failed
            · next rest _ more =>
              cases rest with
              | none =>
                cases failed
                exact ih more
              | some rest => cases failed

theorem logfsReadWithFlush_locked {rand : Nat → Nat} {off len : Nat} (locked : lfs.locked = true)
    (result : Option Bytes × Logfs) : logfsReadWithFlush lfs rand off len false ≠ .ok result := by
  rw [logfsReadWithFlush, if_pos locked]
  simp

/-- A read past the end of the device does not come back, or keeps the lock. -/
theorem Restoring.read_locks (h : Restoring device lfs state) {rand : Nat → Nat} {off len : Nat}
    (some_ : len ≠ 0) (past : device.size < off + len) {reply : Option Bytes}
    (ok : logfsReadWithFlush lfs rand off len false = .ok (reply, lfs')) :
    reply = none ∧ lfs'.locked = true := by
  cases reply with
  | some data => exact absurd ok (h.read_past rand some_ past data lfs')
  | none =>
    rw [logfsReadWithFlush, if_neg (by simp [h.unlocked]), if_neg (by decide)] at ok
    exact ⟨rfl, readBlocks_none ok⟩

variable {kvraw kvraw' : Kvraw Logfs} {v v' : Visitor}

theorem logfsWbDeq_locked (ok : logfsWbDeq lfs = .ok lfs') : lfs'.locked = lfs.locked := by
  unfold logfsWbDeq at ok
  split at ok
  · cases ok
  · cases ok
    rfl

/-- The two reads of a record that goes into the write buffer. -/
theorem visitorBuffer_reads {off : Nat} {m : Meta} {key : Bytes}
    (ok : visitorBuffer rand kvraw off m = .ok (key, kvraw')) :
    ∃ keyRead l₁ valRead l₂,
      logfsReadWithFlush kvraw.logfs (rand ((off + metaLen) % 2 ^ 64)) ((off + metaLen) % 2 ^ 64)
          m.keyLen false = .ok (keyRead, l₁) ∧
        logfsReadWithFlush l₁ (rand ((off + metaLen + m.keyLen) % 2 ^ 64))
          ((off + metaLen + m.keyLen) % 2 ^ 64) m.valLen false = .ok (valRead, l₂) ∧
        key = keyRead.getD (List.replicate m.keyLen 0) ∧ kvraw'.logfs.locked = l₂.locked := by
  simp only [visitorBuffer] at ok
  split at ok
  · cases ok
  · next keyRead l₁ first =>
    split at ok
    · cases ok
    · next valRead l₂ second =>
      refine ⟨keyRead, l₁, valRead, l₂, first, second, ?_⟩
      have added : ∀ buf, (logfsWbAdd l₂ buf).locked = l₂.locked := fun _ => rfl
      have moved : ∀ (l : Logfs) off, (logfsSetTailOffset l off).locked = l.locked := fun _ _ => rfl
      split at ok
      · split at ok
        · cases ok
        · next l₃ deq =>
          obtain ⟨rfl, rfl⟩ := Prod.mk.inj (Except.ok.inj ok)
          have kept := logfsWbDeq_locked deq
          exact ⟨rfl, (moved _ _).trans (kept.trans (added _))⟩
      · obtain ⟨rfl, rfl⟩ := Prod.mk.inj (Except.ok.inj ok)
        exact ⟨rfl, added _⟩

theorem visitorBuffer_nameless {off : Nat} {m : Meta} (nameless : m.keyLen = 0) {key : Bytes}
    (ok : visitorBuffer rand kvraw off m = .ok (key, kvraw')) : key = [] := by
  obtain ⟨keyRead, l₁, valRead, l₂, first, _, rfl, _⟩ := visitorBuffer_reads rand ok
  rw [nameless, logfsReadWithFlush, if_neg (by decide : ¬ false = true)] at first
  split at first
  · cases first
  · cases first
    rfl

/-- A record that leaves the device keeps the lock. -/
theorem visitorBuffer_past (h : Restoring device kvraw.logfs state) (sane : device.Sane) {off : Nat}
    {m : Meta} (header : off + metaLen ≤ device.size)
    (past : device.size < off + metaLen + m.keyLen + m.valLen) {key : Bytes}
    (ok : visitorBuffer rand kvraw off m = .ok (key, kvraw')) : kvraw'.logfs.locked = true := by
  have size_lt := device.size_lt
  obtain ⟨keyRead, l₁, valRead, l₂, first, second, _, locked⟩ := visitorBuffer_reads rand ok
  rw [locked]
  rw [Nat.mod_eq_of_lt (by omega : off + metaLen < 2 ^ 64)] at first
  rcases Nat.lt_or_ge device.size (off + metaLen + m.keyLen) with key_past | key_inside
  · -- the read of the value meets the lock
    obtain ⟨_, kept⟩ := h.read_locks (by omega) key_past first
    exact absurd second (logfsReadWithFlush_locked kept _)
  · obtain ⟨l, read, h₁⟩ := h.read sane (rand (off + metaLen)) key_inside
    obtain ⟨_, rfl⟩ := Prod.mk.inj (Except.ok.inj (first.symm.trans read))
    rw [Nat.mod_eq_of_lt (by omega : off + metaLen + m.keyLen < 2 ^ 64)] at second
    exact (h₁.read_locks (by omega) past second).2

/-- With the lock kept a visitor does not go on. -/
theorem visitorNext_locked (locked : kvraw.logfs.locked = true) (result : Visitor × Kvraw Logfs) :
    visitorNext rand kvraw v ≠ .ok result := by
  have failed : ∀ size, readMeta2 rand ⟨size, kvraw.logfs⟩ v.nextOffset =
      .ok (.corrupt, ⟨size, kvraw.logfs⟩) ∨
        readMeta2 rand ⟨size, kvraw.logfs⟩ v.nextOffset = .error .hang := by
    intro size
    unfold readMeta2
    split_ifs with short
    · exact Or.inl rfl
    · rw [logfsReadWithFlush, if_pos locked]
      exact Or.inr rfl
  unfold visitorNext
  rcases failed ((kvraw.size + metaLen) % 2 ^ 64) with read | read
  · simp only [read]
    rintro ⟨⟩
  · simp only [read]
    rintro ⟨⟩

/-- The record whose header is at `off`. -/
def Device.recAt (device : Device) (off : Nat) : Rec :=
  let m := Meta.decode (device.bytes.read off metaLen)
  ⟨device.bytes.read (off + metaLen) m.keyLen,
    device.bytes.read (off + metaLen + m.keyLen) m.valLen, m.off⟩

theorem Device.recAt_header {off : Nat}
    (marked : device.bytes off = markK ∧ device.bytes (off + 1) = markV) :
    (device.recAt off).header = Meta.decode (device.bytes.read off metaLen) := by
  have mark0 : (Meta.decode (device.bytes.read off metaLen)).mark0 = device.bytes off := rfl
  have mark1 : (Meta.decode (device.bytes.read off metaLen)).mark1 = device.bytes (off + 1) := rfl
  rw [marked.1] at mark0
  rw [marked.2] at mark1
  simp only [Rec.header, Device.recAt, Mem.length_read]
  rw [← mark0, ← mark1]

theorem Device.recAt_bytes {off : Nat}
    (marked : device.bytes off = markK ∧ device.bytes (off + 1) = markV) :
    device.bytes.read off (device.recAt off).size = (device.recAt off).bytes := by
  have whole : (device.bytes.read off metaLen).length = metaLen := Mem.length_read _ _ _
  have bytes : (device.recAt off).bytes = (device.recAt off).header.encode ++
      ((device.recAt off).key ++ (device.recAt off).val) := rfl
  rw [bytes, recAt_header marked, Meta.encode_decode whole, Rec.size, Nat.add_assoc, Mem.read_add,
    Mem.read_add]
  simp only [Device.recAt, Mem.length_read]

/-- Every header with the mark and with a name begins a log of one record, if that lies on the
device. -/
theorem Device.recAt_log {off : Nat}
    (marked : device.bytes off = markK ∧ device.bytes (off + 1) = markV)
    (named : (device.recAt off).key.length ≠ 0)
    (inside : off + (device.recAt off).size ≤ device.size) :
    device.HasLog off [device.recAt off] := by
  have widths : ∀ a w, leNat (((device.bytes.read off metaLen).drop a).take w) < 256 ^ w := by
    intro a w
    refine Nat.lt_of_lt_of_le (leNat_lt _) (Nat.pow_le_pow_right (by decide) ?_)
    exact List.length_take_le _ _
  have keyLen : (device.recAt off).key.length < 256 ^ 2 := by
    rw [Device.recAt, Mem.length_read]
    exact widths 10 2
  have valLen : (device.recAt off).val.length < 256 ^ 4 := by
    rw [Device.recAt, Mem.length_read]
    exact widths 12 4
  have prev : (device.recAt off).prev < 256 ^ 8 := widths 2 8
  refine ⟨by simpa [logBytes] using recAt_bytes marked, by simpa using inside, ?_⟩
  · simp only [List.forall_mem_cons, List.not_mem_nil, false_imp_iff, implies_true, and_true]
    exact ⟨Nat.pos_of_ne_zero named, by omega, by omega, by omega⟩

/-- A visitor that takes a step found the end, a whole record, or something after which it takes no
other: a record that leaves the device, or one without a name, which the index refuses. -/
theorem visitorNext_cases (h : Restoring device kvraw.logfs state) (sane : device.Sane)
    (size : kvraw.size = v.nextOffset) (next : visitorNext rand kvraw v = .ok (v', kvraw')) :
    (device.EndsAt v.nextOffset ∧ v'.valid = false) ∨
      (v'.valid = v.valid ∧ (kvraw'.logfs.locked = true ∨ v'.key = [])) ∨
      ∃ r, device.HasLog v.nextOffset [r] := by
  have size_lt := device.size_lt
  rcases Nat.lt_or_ge device.size (v.nextOffset + metaLen) with past | inside
  · exact absurd next (visitorNext_past rand h past _)
  by_cases marked : device.bytes v.nextOffset = markK ∧ device.bytes (v.nextOffset + 1) = markV
  · have grown : (kvraw.size + metaLen) % 2 ^ 64 = v.nextOffset + metaLen := by
      rw [size]
      exact Nat.mod_eq_of_lt (by omega)
    have start : Restoring device (⟨v.nextOffset + metaLen, kvraw.logfs⟩ : Kvraw Logfs).logfs
      state := h
    obtain ⟨l, read, restoring⟩ := readMeta2_spec rand start sane inside (Nat.le_refl _)
    rw [if_pos marked] at read
    simp only [visitorNext, grown, read] at next
    split at next
    · cases next
    · next key kvraw₁ buffered =>
      obtain ⟨rfl, rfl⟩ := Prod.mk.inj (Except.ok.inj next)
      by_cases named : (device.recAt v.nextOffset).key.length = 0
      · rw [Device.recAt, Mem.length_read] at named
        exact Or.inr (Or.inl ⟨rfl, Or.inr (visitorBuffer_nameless rand named buffered)⟩)
      · rcases Nat.lt_or_ge device.size (v.nextOffset + (device.recAt v.nextOffset).size) with
          leaves | whole
        · refine Or.inr (Or.inl ⟨rfl, Or.inl ?_⟩)
          refine @visitorBuffer_past device state rand _ _ restoring sane _ _ inside ?_ _ buffered
          simp only [Rec.size, Device.recAt, Mem.length_read] at leaves
          omega
        · exact Or.inr (Or.inr ⟨_, Device.recAt_log marked named whole⟩)
  · obtain ⟨l, stops, _⟩ := visitorNext_end rand h sane ⟨inside, marked⟩ size
    obtain ⟨rfl, _⟩ := Prod.mk.inj (Except.ok.inj (next.symm.trans stops))
    exact Or.inl ⟨⟨inside, marked⟩, rfl⟩

/-- What a loop that comes back yields, when all of it has names: the records from the next offset
on, up to an end. -/
theorem visitorLoop_parses {visits : List Visit} (h : Restoring device kvraw.logfs state)
    (sane : device.Sane) (size : kvraw.size = v.nextOffset) (valid : v.valid = true) {fuel : Nat}
    {end_ : Kvraw Logfs} (run : visitorLoop rand fuel kvraw v = .ok (visits, end_))
    (named : ∀ visit ∈ visits.tail, visit.key ≠ []) :
    ∃ rs, device.HasLog v.nextOffset rs ∧ device.EndsAt (v.nextOffset + logSize rs) ∧
      (∀ r ∈ rs, r.Sums) ∧ visits.tail = visitsFrom v.nextOffset rs := by
  induction visits generalizing kvraw v state fuel with
  | nil =>
    obtain ⟨_, _, _, _, _, _, yields⟩ := visitorLoop_pass rand valid run
    cases yields
  | cons visit rest ih =>
    obtain ⟨fuel', v', kvraw', rest', next, more, yields⟩ := visitorLoop_pass rand valid run
    obtain rfl : rest = rest' := (List.cons.inj yields).2
    simp only [List.tail_cons] at named ⊢
    obtain ⟨ends, stops⟩ | ⟨valid', wrong⟩ | ⟨r, log⟩ := visitorNext_cases rand h sane size next
    · have done : rest = [] := by
        cases fuel' with
        | zero => cases more
        | succ fuel' =>
          rw [visitorLoop, if_neg (by simp [stops])] at more
          cases more
          rfl
      refine ⟨[], ⟨rfl, ?_, by simp⟩, ends, by simp, done⟩
      obtain ⟨inside, _⟩ := ends
      simp only [logSize_nil]
      omega
    · obtain ⟨_, _, _, _, next', _, yields'⟩ := visitorLoop_pass rand (valid'.trans valid) more
      rcases wrong with locked | nameless
      · exact absurd next' (visitorNext_locked rand locked _)
      · rw [yields'] at named
        exact absurd nameless (named _ List.mem_cons_self)
    · obtain ⟨l, record, h'⟩ := visitorNext_record rand h sane log size
      obtain ⟨step, rfl⟩ := Prod.mk.inj (Except.ok.inj (next.symm.trans record))
      have valid' : v'.valid = true := by rw [step, valid]
      obtain ⟨_, _, _, _, next', _, yields'⟩ := visitorLoop_pass rand valid' more
      subst step
      have sum : r.Sums := by
        by_contra cut
        have lt := Nat.mod_lt (r.key.length + r.val.length) (by decide : 0 < 2 ^ 32)
        refine absurd next' (visitorNext_short rand h' ?_ _)
        simp only [Rec.Sums, Rec.size] at cut ⊢
        omega
      have size' : v.nextOffset + metaLen + (r.key.length + r.val.length) % 2 ^ 32 =
          v.nextOffset + r.size := by
        rw [Nat.mod_eq_of_lt sum, Rec.size]
        omega
      obtain ⟨rs, behind, ends, sums, yielded⟩ := ih h' size' valid' more
        fun visit mem => named visit (List.mem_of_mem_tail mem)
      refine ⟨r :: rs, log.cons behind, ?_, List.forall_mem_cons.mpr ⟨sum, sums⟩, ?_⟩
      · rwa [logSize_cons, ← Nat.add_assoc]
      · rw [yields'] at yielded ⊢
        simp only [List.tail_cons] at yielded
        rw [yielded]
        rfl

variable {overload : Nat → Nat → Bool}

/-- The body of the restore loop looks at the index and the counters only. -/
theorem restoreStep_kvraw {db db' : Kvdb Logfs} {visit : Visit}
    (ok : restoreStep overload db visit = .ok db') : db'.kvraw = db.kvraw := by
  unfold restoreStep at ok
  split at ok
  · cases ok
  · split_ifs at ok <;> cases ok <;> rfl

/-- The restore loop comes back when the visitor does and the index takes what it yields. -/
theorem restoreVisits_iff (fuel : Nat) (db : Kvdb Logfs) (v : Visitor) :
    (∃ db', restoreVisits rand overload fuel db v = .ok db') ↔
      ∃ visits end_, visitorLoop rand fuel db.kvraw v = .ok (visits, end_) ∧
        ∃ db', restoreLoop overload db visits = .ok db' := by
  induction fuel generalizing db v with
  | zero => simp [restoreVisits, visitorLoop]
  | succ fuel ih =>
    by_cases valid : v.valid = true
    · simp only [restoreVisits, visitorLoop, valid, if_true]
      cases step : restoreStep overload db ⟨v.offset, v.key, v.valLen⟩ with
      | error e =>
        simp only [reduceCtorEq, exists_false, false_iff]
        rintro ⟨visits, end_, loop, db', restored⟩
        split at loop
        · cases loop
        · split at loop
          · cases loop
          · cases loop
            simp [restoreLoop, step] at restored
      | ok db₁ =>
        simp only [restoreStep_kvraw step]
        cases next : visitorNext rand db.kvraw v with
        | error e => simp
        | ok result =>
          obtain ⟨v', kvraw⟩ := result
          -- the index does not depend on the handle
          have handle : ∀ visits, (∃ db', restoreLoop overload { db₁ with kvraw := kvraw } visits =
              .ok db') ↔ ∃ db', restoreLoop overload db₁ visits = .ok db' := fun visits =>
            (restoreLoop_ok_iff _ visits).trans (restoreLoop_ok_iff db₁ visits).symm
          simp only [ih, handle]
          constructor
          · rintro ⟨visits, end_, loop, restored⟩
            exact ⟨⟨v.offset, v.key, v.valLen⟩ :: visits, end_, by simp only [loop],
              by simpa only [restoreLoop, step] using restored⟩
          · rintro ⟨visits, end_, loop, restored⟩
            split at loop
            · cases loop
            · next rest end₁ more =>
              cases loop
              exact ⟨rest, end_, more, by simpa only [restoreLoop, step] using restored⟩
    · simp only [restoreVisits, visitorLoop, valid, Bool.false_eq_true, if_false]
      constructor
      · intro
        exact ⟨[], _, rfl, db, rfl⟩
      · intro
        exact ⟨db, rfl⟩

theorem indexAll_named {index index' : Index} {keys : List Bytes}
    (ok : indexAll overload index keys = .ok index') : ∀ key ∈ keys, key ≠ [] := by
  induction keys generalizing index with
  | nil => simp
  | cons key keys ih =>
    simp only [indexAll] at ok
    split at ok
    · cases ok
    · next more =>
      refine List.forall_mem_cons.mpr ⟨?_, ih ok⟩
      rintro rfl
      cases more

/-- What a restore that returns has met. -/
theorem Device.Opens.readable (sane : device.Sane) (log : device.HasLog 0 [dummy])
    (opens : device.Opens rand overload) : ∃ rs, device.Readable overload rs := by
  obtain ⟨fuel, opened⟩ := opens
  obtain ⟨l, restoring, init⟩ := visitorInit_dummy rand sane log
  simp only [kvdbOpenWithRestore, init] at opened
  cases next : visitorNext rand ⟨dummy.size, l⟩ .first with
  | error e =>
    rw [next] at opened
    simp at opened
  | ok result =>
    obtain ⟨v, kvraw⟩ := result
    rw [next] at opened
    obtain ⟨visits, end_, loop, restored⟩ := (restoreVisits_iff rand _ _ _).mp opened
    obtain ⟨index, indexed⟩ := (restoreLoop_ok_iff _ visits).mp restored
    have run : visitorLoop rand (fuel + 1) ⟨dummy.size, l⟩ .first =
        .ok (⟨0, [], 0⟩ :: visits, end_) := by
      simp only [visitorLoop, Visitor.first, if_true] at next ⊢
      simp only [next, loop]
    have start : Restoring device (⟨dummy.size, l⟩ : Kvraw Logfs).logfs _ := restoring
    obtain ⟨rs, behind, ends, sums, yields⟩ := visitorLoop_parses rand start sane rfl rfl run
      (by simpa using indexAll_named indexed)
    have names : visits.map Visit.key = rs.map Rec.key := by
      rw [List.tail_cons] at yields
      rw [yields]
      exact map_key_visits rs
    refine ⟨rs, log.cons behind, ?_, sums, index, ?_⟩
    · rwa [logSize_cons]
    · rwa [names] at indexed

theorem Device.Readable.opens (sane : device.Sane) (h : device.Readable overload rs) :
    device.Opens rand overload := by
  obtain ⟨l, run, _⟩ := visitorRun_records rand sane h.log h.sums h.ends
  refine ⟨device.size + 2, ?_⟩
  unfold visitorRun at run
  cases init : visitorInit rand ⟨0, logfsOpen device⟩ with
  | error e => simp [init] at run
  | ok start =>
    obtain ⟨v, kvraw⟩ := start
    simp only [init] at run
    simp only [kvdbOpenWithRestore, init]
    exact (restoreVisits_iff rand _ _ _).mpr
      ⟨_, _, run, (kvdbRestore_ok_iff kvraw rs).mpr h.indexed⟩

/-- Without a mark at offset 0 a restore does not return. -/
theorem visitorInit_unmarked (sane : device.Sane)
    (unmarked : ¬ (device.bytes 0 = markK ∧ device.bytes 1 = markV))
    (result : Visitor × Kvraw Logfs) : visitorInit rand ⟨0, logfsOpen device⟩ ≠ .ok result := by
  have start : Restoring device (⟨metaLen, logfsOpen device⟩ : Kvraw Logfs).logfs ([], 0) :=
    Restoring.open_ sane
  have grown : (0 + metaLen) % 2 ^ 64 = metaLen := rfl
  simp only [visitorInit, grown]
  rcases Nat.lt_or_ge device.size metaLen with past | inside
  · cases read : readMeta2 rand ⟨metaLen, logfsOpen device⟩ 0 with
    | error e => simp
    | ok answer =>
      obtain ⟨answer, kvraw⟩ := answer
      obtain rfl := readMeta2_past rand start (by rwa [Nat.zero_add]) answer kvraw read
      simp
  · obtain ⟨l, read, _⟩ := readMeta2_spec rand start sane (by rwa [Nat.zero_add] : 0 + metaLen ≤ _)
      (Nat.le_refl _)
    rw [if_neg unmarked] at read
    simp only [read]
    rintro ⟨⟩

theorem Device.Opens.marked (sane : device.Sane) (opens : device.Opens rand overload) :
    device.bytes 0 = markK ∧ device.bytes 1 = markV := by
  obtain ⟨fuel, db, opened⟩ := opens
  by_contra unmarked
  unfold kvdbOpenWithRestore at opened
  split at opened
  · cases opened
  · next init => exact visitorInit_unmarked rand sane unmarked _ init

/-- A restore that returns has met the records of the session. -/
theorem Device.Opens.continues (sane : device.Sane) (log : device.HasLog 0 (dummy :: rs))
    (opens : device.Opens rand overload) : ∃ older, device.Readable overload (rs ++ older) := by
  obtain ⟨all, readable⟩ := opens.readable rand sane log.first
  obtain ⟨older, rfl⟩ := log.tail.extends readable.log.tail (by
    have ends := readable.ends
    rwa [logSize_cons, ← Nat.zero_add dummy.size] at ends)
  exact ⟨older, readable⟩

/-- The padding is no mark. -/
theorem Device.Left.unmarked (h : device.Left rs)
    (apart : ¬ device.block ∣ logSize (dummy :: rs)) :
    device.bytes (logSize (dummy :: rs)) = 0 := by
  obtain ⟨dvd, le, _⟩ := @roundUp_spec (logSize (dummy :: rs)) device.block device.block_pos
  refine h.padded _ (Nat.le_refl _) (Nat.lt_of_le_of_ne le fun same => apart ?_)
  rw [same]
  exact dvd

end

/-- A restore of a device without a log does not return. On what a completely flushed session has
left it returns exactly when a header without the mark fits behind the log and behind what an
earlier session's log adds to it on a block boundary, no record's lengths are cut, and the index
takes all keys. -/
theorem restore_returns_iff (device : Device) (sane : device.Sane) (rand : Nat → Nat → Nat)
    (overload : Nat → Nat → Bool) :
    (¬ (device.bytes 0 = markK ∧ device.bytes 1 = markV) → ¬ device.Opens rand overload) ∧
      ∀ rs, device.Left rs → (device.Opens rand overload ↔
        ∃ older, (older = [] ∨ device.block ∣ logSize (dummy :: rs)) ∧
          device.Readable overload (rs ++ older)) := by
  refine ⟨fun unmarked opens => unmarked (opens.marked rand sane),
    fun rs left => ⟨fun opens => ?_, fun ⟨older, _, readable⟩ => readable.opens rand sane⟩⟩
  obtain ⟨older, readable⟩ := opens.continues rand sane left.log
  refine ⟨older, ?_, readable⟩
  by_cases aligned : device.block ∣ logSize (dummy :: rs)
  · exact Or.inr aligned
  · -- an older record would start with the mark
    refine Or.inl ?_
    cases older with
    | nil => rfl
    | cons r older =>
      have behind := @Device.HasLog.behind device (dummy :: rs) (r :: older) 0 readable.log
      rw [Nat.zero_add] at behind
      have marked := behind.marked.1
      rw [left.unmarked aligned] at marked
      exact absurd marked (by decide)

theorem restore_returns_iff_two : twoRecDevice.Opens (fun _ _ => 0) loadTest := by
  have left : twoRecDevice.Left [boundaryRec, laterRec] :=
    ⟨twoRecDevice_hasLog, fun x behind _ => twoRecDevice_zeros x behind⟩
  refine ((restore_returns_iff twoRecDevice twoRecDevice_sane (fun _ _ => 0) loadTest).2 _
    left).mpr ⟨[], Or.inl rfl, twoRecDevice_hasLog, by decide +kernel, ?_, ?_⟩
  · simp only [List.append_nil, List.forall_mem_cons]
    exact ⟨by decide, by decide, by simp⟩
  · have indexed : (indexAll loadTest indexOpen [[1], [2]]).toOption.isSome = true := by
      decide +kernel
    cases run : indexAll loadTest indexOpen [[1], [2]] with
    | error e => simp [run, Except.toOption] at indexed
    | ok index => exact ⟨index, run⟩

/-- A device of one block of 64 bytes that a session's log fills. -/
def fullDevice : Device where
  bytes x := (logBytes [dummy, boundaryRec]).getD x 0
  size := 64
  block := 64
  works _ := true
  transfers := 0
  block_pos := twoRecDevice.block_pos
  block_lt := twoRecDevice.block_lt
  size_lt := by decide
  whole := by decide

/-- A restore of a device without a log ends the process, and one of a log that fills the device
reads behind its end. -/
theorem restore_not_returns :
    (blankDevice.Sane ∧ ¬ (blankDevice.bytes 0 = markK ∧ blankDevice.bytes 1 = markV) ∧
      ¬ blankDevice.Opens (fun _ _ => 0) loadTest) ∧
    (fullDevice.Sane ∧ fullDevice.Left [boundaryRec] ∧
      ¬ fullDevice.Opens (fun _ _ => 0) loadTest) := by
  have blank_sane : blankDevice.Sane := ⟨⟨2, rfl⟩, by decide, fun _ => rfl⟩
  have unmarked : ¬ (blankDevice.bytes 0 = markK ∧ blankDevice.bytes 1 = markV) := by decide
  have full_sane : fullDevice.Sane := ⟨⟨6, rfl⟩, by decide, fun _ => rfl⟩
  have size : logSize [dummy, boundaryRec] = 64 := rfl
  have log : fullDevice.HasLog 0 [dummy, boundaryRec] := by
    refine ⟨?_, by decide, ?_⟩
    · rw [← length_logBytes]
      exact Mem.read_getD _
    · simp only [List.forall_mem_cons, List.not_mem_nil, false_imp_iff, implies_true, and_true]
      exact ⟨⟨by decide, by decide, by decide, by decide⟩,
        ⟨by decide, by decide, by decide, by decide⟩⟩
  have whole : roundUp (logSize [dummy, boundaryRec]) fullDevice.block = 64 := rfl
  have left : fullDevice.Left [boundaryRec] := ⟨log, fun x behind before => by
    rw [size] at behind
    rw [whole] at before
    omega⟩
  refine ⟨⟨blank_sane, unmarked, fun opens => unmarked (opens.marked _ blank_sane)⟩,
    full_sane, left, fun opens => ?_⟩
  obtain ⟨older, readable⟩ := opens.continues _ full_sane log
  have inside := readable.ends.1
  have split : logSize (dummy :: ([boundaryRec] ++ older)) = 64 + logSize older := by
    rw [← size, ← logSize_append]
    rfl
  rw [split] at inside
  have device_size : fullDevice.size = 64 := rfl
  simp only [metaLen] at inside
  omega

end OsProjects.KeyValue
