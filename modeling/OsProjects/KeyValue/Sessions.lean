import OsProjects.KeyValue.Reopen

/-!
# Sessions on one device

A session opens the store, asks it and closes it; the next one starts from the device
that the close left. On a device that was zero in the beginning, with blocks of 4096
bytes, all sessions together answer as one map does.
-/
namespace OsProjects.KeyValue
open OsProjects.Library

/-- A session: what `rand()` returns during the reads of its open and of its use, and what it asks. -/
structure Session where
  opening : Nat → Nat → Nat
  rand : Nat → Nat → Nat
  ops : List Op

/-- What a session was told, with `kvdb_size` and `kvdb_waste` at its end. -/
structure Answers where
  replies : List Reply
  size : UInt64
  waste : UInt64

section
variable (overload : Nat → Nat → Bool)

/-- A session on an open store, up to its close. -/
def Session.use (s : Session) (db : Kvdb (Except Fault Volume)) : Except Fault (Answers × Device) :=
  match Kvdb.run (volumeOps s.rand) overload db s.ops with
  | .error e => .error e
  | .ok (replies, db) =>
    match kvdbClose db with
    | .error e => .error e
    | .ok device => .ok (⟨replies, kvdbSize db, kvdbWaste db⟩, device)

/-- A session that opens the store with `kvdb_open`; `none` is an open that returned `NULL`. -/
def Session.start (s : Session) (device : Device) : Except Fault (Option (Answers × Device)) :=
  match kvdbOpen (volumeOps s.rand) (.ok ⟨logfsOpen device, 0⟩) with
  | .error e => .error e
  | .ok none => .ok none
  | .ok (some db) => (s.use overload db).map some

/-- A session that opens the store with `kvdb_open_with_restore`. -/
def Session.resume (s : Session) (device : Device) : Except Fault (Answers × Device) :=
  match kvdbOpenWithRestore s.opening overload (device.size + 2) device with
  | .error e => .error e
  | .ok db => s.use overload db.onVolume

/-- Sessions one after the other, each on the device that the one before it left. -/
def resumeAll : Device → List Session → Except Fault (List Answers × Device)
  | device, [] => .ok ([], device)
  | device, s :: ss =>
    match s.resume overload device with
    | .error e => .error e
    | .ok (answers, device) =>
      match resumeAll device ss with
      | .error e => .error e
      | .ok (rest, device) => .ok (answers :: rest, device)

/-- The life of a store on a device. -/
def lifetime (device : Device) (first : Session) (later : List Session) :
    Except Fault (Option (List Answers × Device)) :=
  match first.start overload device with
  | .error e => .error e
  | .ok none => .ok none
  | .ok (some (answers, device)) =>
    (resumeAll overload device later).map fun r => some (answers :: r.1, r.2)

end

/-- The answers of a session agree with the map. -/
structure KvMap.Answered (m : KvMap) (ops : List Op) (a : Answers) : Prop where
  replies : m.AgreesAll ops a.replies
  size : a.size.toNat = (m.run ops).live.card
  waste : a.waste.toNat = (m.run ops).overwrites + (m.run ops).removals

/-- All sessions talk to one map. -/
def KvMap.AnsweredAll : KvMap → List Session → List Answers → Prop
  | _, [], [] => True
  | m, s :: ss, a :: as => m.Answered s.ops a ∧ (m.run s.ops).AnsweredAll ss as
  | _, _, _ => False

/-- The records of operations. -/
def From (ops : List Op) (rs : List Rec) : Prop :=
  ∀ r ∈ rs, ∃ op ∈ ops, r.key = op.key.1 ∧ r.val = op.data

/-- No two keys of the operations have the same hash. -/
def Apart (ops : List Op) : Prop :=
  ∀ op ∈ ops, ∀ op' ∈ ops, indexKey op.key.1 = indexKey op'.key.1 → op.key.1 = op'.key.1

instance (ops : List Op) : Decidable (Apart ops) :=
  inferInstanceAs (Decidable (∀ op ∈ ops, ∀ op' ∈ ops, _ → _))

/-- An operation whose record is no longer than `n` bytes. -/
def Op.Short (n : Nat) (op : Op) : Prop := metaLen + op.key.1.length + op.data.length ≤ n

instance (n : Nat) (op : Op) : Decidable (op.Short n) := inferInstanceAs (Decidable (_ ≤ _))

/-- A closed device whose log tells the map. -/
structure Device.Stores (device : Device) (rs : List Rec) (m : KvMap) : Prop where
  sane : device.Sane
  block : device.block = 4096
  carries : device.Carries (logBytes (dummy :: rs))
  blank : device.Blank (logBytes (dummy :: rs))
  fits : ∀ r ∈ rs, r.Fits
  threaded : Threaded rs
  tells : m.Tells rs

section
variable (overload : Nat → Nat → Bool) {device : Device} {rs : List Rec} {m : KvMap}
  {ops ops' : List Op}

theorem KvMap.run_append (m : KvMap) (ops ops' : List Op) :
    m.run (ops ++ ops') = (m.run ops).run ops' := List.foldl_append

theorem KvMap.loggedAll_append (m : KvMap) (ops ops' : List Op) :
    m.loggedAll (ops ++ ops') = m.loggedAll ops + (m.run ops).loggedAll ops' := by
  induction ops generalizing m with
  | nil => simp [KvMap.loggedAll, KvMap.run]
  | cons op ops ih =>
    rw [List.cons_append, KvMap.loggedAll, KvMap.loggedAll, ih, Nat.add_assoc]
    rfl

theorem history_mem {e : Entry} (mem : e ∈ history rs) : e.2 ∈ rs := by
  have records : ∀ (rs : List Rec) off, (entriesFrom off rs).map Prod.snd = rs := by
    intro rs
    induction rs with
    | nil => exact fun _ => rfl
    | cons r rs ih =>
      intro off
      rw [entriesFrom, List.map_cons, ih]
  have among := List.mem_map_of_mem (f := Prod.snd) (List.mem_reverse.mp mem)
  rwa [records] at among

theorem From.apart (h : From ops rs) (apart : Apart ops) :
    ∀ e ∈ history rs, ∀ e' ∈ history rs, indexKey e.2.key = indexKey e'.2.key →
      e.2.key = e'.2.key := by
  intro e mem e' mem' same
  obtain ⟨op, among, key, _⟩ := h _ (history_mem mem)
  obtain ⟨op', among', key', _⟩ := h _ (history_mem mem')
  rw [key, key'] at same ⊢
  exact apart op among op' among' same

theorem From.short (h : From ops rs) {n : Nat} (short : ∀ op ∈ ops, op.Short n) :
    ∀ r ∈ rs, r.size ≤ n := by
  intro r mem
  obtain ⟨op, among, key, val⟩ := h r mem
  rw [Rec.size, key, val]
  exact short op among

theorem Op.Short.pieces {op : Op} {n : Nat} (h : op.Short n) : op.Pieces n := by
  unfold Op.Short at h
  exact ⟨by omega, by omega⟩

/-- A session on an open store leaves a closed device whose log tells the map. -/
theorem Session.use_keeps (s : Session) {db : Kvdb (Except Fault Volume)} {ideal : Kvdb Bytes}
    (sane : device.Sane) (block : device.block = 4096)
    (held : db.Over (Volume.Holds device True) ideal) (shows_ : ideal.Shows rs m)
    (short : ∀ op ∈ s.ops, op.Short 4096)
    (fits : logSize (dummy :: rs) + m.loggedAll s.ops ≤ device.size) :
    s.use overload db = .error .exitSoftware ∨
      ∃ answers closed added, s.use overload db = .ok (answers, closed) ∧ m.Answered s.ops answers ∧
        closed.Stores (rs ++ added) (m.run s.ops) ∧ closed.size = device.size ∧
        logSize added = m.loggedAll s.ops ∧ From s.ops added := by
  have serves := volumeOps_serves s.rand device True
  have header : metaLen ≤ device.block := by rw [block]; decide
  obtain stop | ⟨replies, db', ideal', added, run, agrees, held', shows', logged, from_⟩ :=
    held.run serves header device.size_lt overload s.ops shows_
      (fun op mem => block ▸ (short op mem).pieces) fits
  · exact Or.inl (by simp only [Session.use, stop])
  · obtain ⟨closed, close, carries, geometry, blank⟩ := held'.close shows'
    obtain ⟨size, waste⟩ := shows'.counts
    obtain ⟨es, strands⟩ := shows'.strands
    refine Or.inr ⟨⟨replies, db'.size, db'.waste⟩, closed, added,
      by simp only [Session.use, run, close, kvdbSize, kvdbWaste],
      ⟨agrees, by rw [held'.size, size], by rw [held'.waste, waste]⟩,
      ⟨sane.sameGeometry geometry, geometry.block.trans block, carries, blank trivial,
        fun r mem => strands.holds.fits r (List.mem_cons_of_mem _ mem), strands.threaded,
        shows'.tells⟩, geometry.size, logged, from_⟩

/-- So does one that restores the store first. -/
theorem Session.resume_keeps (s : Session) (h : device.Stores rs m) (from_ : From ops rs)
    (apart : Apart (ops ++ s.ops)) (short : ∀ op ∈ ops ++ s.ops, op.Short 4096)
    (fits : logSize (dummy :: rs) + m.loggedAll s.ops + metaLen ≤ device.size) :
    s.resume overload device = .error .exitSoftware ∨
      ∃ answers closed added, s.resume overload device = .ok (answers, closed) ∧
        m.Answered s.ops answers ∧ closed.Stores (rs ++ added) (m.run s.ops) ∧
        closed.size = device.size ∧ logSize added = m.loggedAll s.ops ∧ From s.ops added := by
  have old : Apart ops := fun op mem op' mem' =>
    apart op (List.mem_append_left _ mem) op' (List.mem_append_left _ mem')
  obtain stop | ⟨db, ideal, opened, held, shows_⟩ :=
    kvdbOpenWithRestore_shows s.opening overload True h.sane
      h.block h.carries h.blank (by omega) h.fits
      (from_.short fun op mem => short op (List.mem_append_left _ mem)) h.threaded
      (from_.apart old) h.tells
  · exact Or.inl (by simp only [Session.resume, stop])
  · simp only [Session.resume, opened]
    exact s.use_keeps overload h.sane h.block held shows_
      (fun op mem => short op (List.mem_append_right _ mem)) (by omega)

/-- Later sessions go on with the map that the device tells. -/
theorem resumeAll_keeps (ss : List Session) (h : device.Stores rs m) (from_ : From ops rs)
    (apart : Apart (ops ++ ss.flatMap Session.ops))
    (short : ∀ op ∈ ops ++ ss.flatMap Session.ops, op.Short 4096)
    (fits : logSize (dummy :: rs) + m.loggedAll (ss.flatMap Session.ops) + metaLen ≤ device.size) :
    resumeAll overload device ss = .error .exitSoftware ∨
      ∃ answers closed rs', resumeAll overload device ss = .ok (answers, closed) ∧
        m.AnsweredAll ss answers ∧ closed.Stores rs' (m.run (ss.flatMap Session.ops)) := by
  induction ss generalizing device rs m ops with
  | nil => exact Or.inr ⟨[], device, rs, rfl, trivial, h⟩
  | cons s ss ih =>
    rw [List.flatMap_cons, ← List.append_assoc] at apart short
    rw [List.flatMap_cons, KvMap.loggedAll_append] at fits
    rw [List.flatMap_cons, KvMap.run_append]
    have before : ∀ op ∈ ops ++ s.ops, op ∈ ops ++ s.ops ++ ss.flatMap Session.ops :=
      fun op mem => List.mem_append_left _ mem
    obtain stop | ⟨a, next, added, ok, answered, stores, size, logged, from'⟩ :=
      s.resume_keeps overload h from_
        (fun op mem op' mem' => apart op (before op mem) op' (before op' mem'))
        (fun op mem => short op (before op mem)) (by omega)
    · exact Or.inl (by simp only [resumeAll, stop])
    · have all : From (ops ++ s.ops) (rs ++ added) := by
        intro r mem
        rcases List.mem_append.mp mem with old | new
        · obtain ⟨op, among, same⟩ := from_ r old
          exact ⟨op, List.mem_append_left _ among, same⟩
        · obtain ⟨op, among, same⟩ := from' r new
          exact ⟨op, List.mem_append_right _ among, same⟩
      obtain stop | ⟨answers, closed, rs', rest, later, stores'⟩ := ih stores all apart short (by
        rw [logSize_cons, logSize_append, logged, size]
        rw [logSize_cons] at fits
        omega)
      · exact Or.inl (by simp only [resumeAll, ok, stop])
      · exact Or.inr ⟨a :: answers, closed, rs', by simp only [resumeAll, ok, rest],
          ⟨answered, later⟩, stores'⟩

end

/-- All sessions on a device that was zero in the beginning answer as one map, and the last close
leaves its log, unless the index runs into its `EXIT`: with blocks of 4096 bytes, records no longer
than a block, keys of different hashes, and a device that has room for the log and one header more. -/
theorem sessions_refine_map (device : Device) (sane : device.Sane) (block : device.block = 4096)
    (zeros : ∀ x, device.bytes x = 0) (overload : Nat → Nat → Bool) (first : Session)
    (later : List Session) (apart : Apart ((first :: later).flatMap Session.ops))
    (short : ∀ op ∈ (first :: later).flatMap Session.ops, op.Short 4096)
    (fits : dummy.size + KvMap.empty.loggedAll ((first :: later).flatMap Session.ops) + metaLen ≤
      device.size) :
    lifetime overload device first later = .error .exitSoftware ∨
      ∃ answers closed rs, lifetime overload device first later = .ok (some (answers, closed)) ∧
        KvMap.empty.AnsweredAll (first :: later) answers ∧
        closed.Stores rs (KvMap.empty.run ((first :: later).flatMap Session.ops)) := by
  rw [List.flatMap_cons] at apart short ⊢
  rw [List.flatMap_cons, KvMap.loggedAll_append] at fits
  have opened : Volume.Holds device True (.ok ⟨logfsOpen device, 0⟩) [] :=
    ⟨_, rfl, Logfs.Level.open_ sane, .refl _, fun _ x _ => zeros x⟩
  have header : metaLen ≤ device.block := by rw [block]; decide
  obtain ⟨db, ideal, ok, held, shows_⟩ := Kvdb.Over.opened (volumeOps_serves first.rand device True)
    header (by omega) opened
  obtain stop | ⟨a, next, added, use, answered, stores, size, logged, from_⟩ :=
    first.use_keeps overload sane block held shows_
      (fun op mem => short op (List.mem_append_left _ mem)) (by
        rw [logSize_cons, logSize_nil]
        omega)
  · exact Or.inl (by simp only [lifetime, Session.start, ok, stop]; rfl)
  · rw [List.nil_append] at stores
    obtain stop | ⟨answers, closed, rs, rest, all, stores'⟩ :=
      resumeAll_keeps overload later stores from_ apart short (by
        rw [logSize_cons, logged, size]
        omega)
    · exact Or.inl (by simp only [lifetime, Session.start, ok, use, Except.map, stop])
    · rw [KvMap.run_append]
      exact Or.inr ⟨a :: answers, closed, rs,
        by simp only [lifetime, Session.start, ok, use, Except.map, rest], ⟨answered, all⟩, stores'⟩

/-- A zeroed device of eight blocks of 4096 bytes. -/
def pageDevice : Device := { longRecDevice with bytes := fun _ => 0 }

theorem sessions_refine_map_two :
    let key : Key := ⟨[7], by decide⟩
    let other : Key := ⟨[8, 9], by decide⟩
    let first : Session := ⟨fun _ _ => 0, fun _ _ => 0, [.insert key ⟨[1, 2], by decide⟩,
      .update other ⟨[3], by decide⟩]⟩
    let later : List Session := [⟨fun _ _ => 0, fun _ _ => 0, [.remove key none,
      .lookup other ⟨none, 0, by decide⟩]⟩]
    lifetime loadTest pageDevice first later = .error .exitSoftware ∨
      ∃ answers closed rs, lifetime loadTest pageDevice first later = .ok (some (answers, closed)) ∧
        KvMap.empty.AnsweredAll (first :: later) answers ∧
        closed.Stores rs (KvMap.empty.run ((first :: later).flatMap Session.ops)) :=
  sessions_refine_map pageDevice ⟨⟨12, rfl⟩, by decide, fun _ => rfl⟩ rfl (fun _ => rfl) loadTest _ _
    (by decide) (by decide) (by decide)

end OsProjects.KeyValue
