import OsProjects.KeyValue.Strands
import OsProjects.KeyValue.Volume

/-!
# The store on a device

A run of the store over a layer that serves kvraw answers as the map does. With logfs as
the layer this is the whole stack on a device: what the store was told is what it
answers, and what a close leaves on the device is the log that tells it.
-/
namespace OsProjects.KeyValue
open OsProjects.Library

section
variable {σ : Type} {fs : LogfsOps σ} {holds : σ → Bytes → Prop} {piece room : Nat} {db : Kvdb σ}
  {ideal : Kvdb Bytes} {rs : List Rec} {m : KvMap}

theorem Kvdb.Shows.length_log (h : ideal.Shows rs m) :
    ideal.kvraw.logfs.length = logSize (dummy :: rs) := by
  obtain ⟨es, strands⟩ := h.strands
  have bytes : ideal.kvraw.logfs = logBytes (dummy :: rs) := strands.holds.bytes
  rw [bytes, length_logBytes]

/-- One operation on a store over a layer, with what it adds to the log. -/
theorem Kvdb.Over.does (serves : fs.Serves holds piece room) (header : metaLen ≤ piece)
    (room_lt : room < 2 ^ 64) (overload : Nat → Nat → Bool) (h : db.Over holds ideal)
    (shows_ : ideal.Shows rs m) {op : Op} (pieces : op.Pieces piece)
    (fits : logSize (dummy :: rs) + m.logged op ≤ room) :
    Kvdb.step fs overload db op = .error .exitSoftware ∨
      ∃ r db' ideal' added, Kvdb.step fs overload db op = .ok (r, db') ∧ m.Agrees op r ∧
        db'.Over holds ideal' ∧ ideal'.Shows (rs ++ added) (m.step op) ∧
        logSize added = m.logged op ∧ ∀ a ∈ added, a.key = op.key.1 ∧ a.val = op.data := by
  obtain exits | ⟨r, ideal', added, ok, agrees, answers, shows', logged, from_⟩ :=
    shows_.step overload op (by omega)
  · have same : db.Exits overload op := by
      refine ⟨exits.1, ?_⟩
      rw [h.index]
      exact exits.2
    exact Or.inl same.step
  · have within : ideal'.kvraw.logfs.length ≤ room := by
      rw [shows'.length_log, logSize_cons, logSize_append, logged]
      rw [logSize_cons] at fits
      omega
    obtain ⟨db', done, held⟩ := h.step serves ok answers header pieces within
    exact Or.inr ⟨r, db', ideal', added, done, agrees, held, shows', logged, from_⟩

theorem Kvdb.Over.run (serves : fs.Serves holds piece room) (header : metaLen ≤ piece)
    (room_lt : room < 2 ^ 64) (overload : Nat → Nat → Bool) (ops : List Op) (h : db.Over holds ideal)
    (shows_ : ideal.Shows rs m) (pieces : ∀ op ∈ ops, op.Pieces piece)
    (fits : logSize (dummy :: rs) + m.loggedAll ops ≤ room) :
    Kvdb.run fs overload db ops = .error .exitSoftware ∨
      ∃ replies db' ideal' added, Kvdb.run fs overload db ops = .ok (replies, db') ∧
        m.AgreesAll ops replies ∧ db'.Over holds ideal' ∧
        ideal'.Shows (rs ++ added) (m.run ops) ∧ logSize added = m.loggedAll ops ∧
        ∀ a ∈ added, ∃ op ∈ ops, a.key = op.key.1 ∧ a.val = op.data := by
  induction ops generalizing db ideal rs m with
  | nil =>
    exact Or.inr ⟨[], db, ideal, [], rfl, trivial, h, by simpa [KvMap.run] using shows_, rfl, by simp⟩
  | cons op ops ih =>
    obtain ⟨here, later⟩ := List.forall_mem_cons.mp pieces
    simp only [KvMap.loggedAll] at fits ⊢
    obtain stop | ⟨r, db₁, ideal₁, added₁, ok, agrees, held₁, shows₁, logged₁, from₁⟩ :=
      h.does serves header room_lt overload shows_ here (by omega)
    · exact Or.inl (by simp only [Kvdb.run, stop])
    · obtain stop | ⟨replies, db', ideal', added, run, rest, held, shows', logged, from_⟩ :=
        ih held₁ shows₁ later (by
          simp only [logSize_cons, logSize_append] at fits ⊢
          omega)
      · exact Or.inl (by simp only [Kvdb.run, ok, stop])
      · refine Or.inr ⟨r :: replies, db', ideal', added₁ ++ added, by simp only [Kvdb.run, ok, run],
          ⟨agrees, rest⟩, held, by simpa [KvMap.run] using shows', by rw [logSize_append, logged₁, logged], ?_⟩
        intro a mem
        rcases List.mem_append.mp mem with old | new
        · exact ⟨op, List.mem_cons_self, from₁ a old⟩
        · obtain ⟨op', among, same⟩ := from_ a new
          exact ⟨op', List.mem_cons_of_mem _ among, same⟩

/-- `kvdb_open` puts the dummy record into an empty log. -/
theorem Kvdb.Over.opened (serves : fs.Serves holds piece room) (header : metaLen ≤ piece)
    (enough : dummy.size ≤ room) {logfs : σ} (empty : holds logfs []) :
    ∃ db ideal, kvdbOpen fs logfs = .ok (some db) ∧ db.Over holds ideal ∧
      ideal.Shows [] KvMap.empty := by
  obtain ⟨ideal, ok, shows_⟩ := Kvdb.Shows.opened
  have start : Kvraw.Over holds ⟨0, logfs⟩ ⟨0, []⟩ := ⟨rfl, empty⟩
  unfold kvdbOpen kvrawOpen at ok ⊢
  cases append : kvrawAppend idealLogfs ⟨0, []⟩ [0] [0] 0 with
  | error e => simp [append, bind, Except.bind] at ok
  | ok result =>
    obtain ⟨_ | off, kvraw⟩ := result
    · simp [append, bind, Except.bind, pure, Except.pure] at ok
    · simp only [append, bind, Except.bind, pure, Except.pure] at ok
      cases ok
      have within : kvraw.logfs.length ≤ room := by
        have length := shows_.length_log
        simp only at length
        rw [length]
        exact enough
      have one : metaLen ≤ piece → 1 ≤ piece := fun le => (by decide : 1 ≤ metaLen).trans le
      obtain ⟨kvraw', same, held⟩ := start.append serves append header (one header) (one header)
        within
      refine ⟨⟨0, 0, kvraw', indexOpen⟩, _, ?_, ⟨rfl, rfl, rfl, held⟩, shows_⟩
      simp only [same, bind, Except.bind, pure, Except.pure]

theorem Kvdb.Shows.counts (h : ideal.Shows rs m) :
    ideal.size.toNat = m.live.card ∧ ideal.waste.toNat = m.overwrites + m.removals := by
  obtain ⟨es, strands⟩ := h.strands
  have records := length_le_logSize (dummy :: rs)
  have small := strands.holds.small
  have created := h.tells.created
  have wasted := h.tells.wasted
  have total := tally_total (history rs)
  rw [length_history] at total
  have width : UInt64.size = 2 ^ 64 := rfl
  simp only [List.length_cons] at records
  rw [h.size, h.waste]
  exact ⟨UInt64.toNat_ofNat_of_lt' (by omega), UInt64.toNat_ofNat_of_lt' (by omega)⟩

end

/-- `kvdb_close` on a handle over logfs: the device that logfs leaves. -/
def kvdbClose (db : Kvdb (Except Fault Volume)) : Except Fault Device :=
  match db.kvraw.logfs with
  | .error e => .error e
  | .ok v => logfsClose v.logfs

section
variable {device : Device} {zeroed : Prop} {db : Kvdb (Except Fault Volume)} {ideal : Kvdb Bytes}
  {rs : List Rec} {m : KvMap}

/-- A close leaves the log of the store on the device. -/
theorem Kvdb.Over.close (h : db.Over (Volume.Holds device zeroed) ideal) (shows_ : ideal.Shows rs m) :
    ∃ closed, kvdbClose db = .ok closed ∧ closed.Carries (logBytes (dummy :: rs)) ∧
      closed.SameGeometry device ∧ (zeroed → closed.Blank (logBytes (dummy :: rs))) := by
  obtain ⟨es, strands⟩ := shows_.strands
  have bytes : ideal.kvraw.logfs = logBytes (dummy :: rs) := strands.holds.bytes
  obtain ⟨v, same, level, geometry, blank⟩ := h.kvraw.logfs
  obtain ⟨closed, close, carries, geometry', keeps⟩ := level.close
  rw [bytes] at carries keeps blank
  exact ⟨closed, by simp only [kvdbClose, same, close], carries, geometry'.trans geometry,
    fun zero => keeps (blank zero)⟩

end

/-- The store on a device is a finite map: a run that does not stop in the `EXIT` of the index answers
every operation as the map does, counts as the map does, and closes with a log on the device that
tells this map, as long as no key and no value is longer than a block and the log fits the
device. -/
theorem kvdb_on_device_refines_map (device : Device) (sane : device.Sane)
    (header : metaLen ≤ device.block) (rand : Nat → Nat → Nat) (overload : Nat → Nat → Bool)
    (ops : List Op) (pieces : ∀ op ∈ ops, op.Pieces device.block)
    (fits : dummy.size + KvMap.empty.loggedAll ops ≤ device.size) :
    ∃ db, kvdbOpen (volumeOps rand) (.ok ⟨logfsOpen device, 0⟩) = .ok (some db) ∧
      (Kvdb.run (volumeOps rand) overload db ops = .error .exitSoftware ∨
        ∃ replies db' closed rs, Kvdb.run (volumeOps rand) overload db ops = .ok (replies, db') ∧
          KvMap.empty.AgreesAll ops replies ∧
          (kvdbSize db').toNat = (KvMap.empty.run ops).live.card ∧
          (kvdbWaste db').toNat =
            (KvMap.empty.run ops).overwrites + (KvMap.empty.run ops).removals ∧
          kvdbClose db' = .ok closed ∧ closed.Carries (logBytes (dummy :: rs)) ∧
          (KvMap.empty.run ops).Tells rs) := by
  have serves := volumeOps_serves rand device False
  have opened : Volume.Holds device False (.ok ⟨logfsOpen device, 0⟩) [] :=
    ⟨_, rfl, Logfs.Level.open_ sane, .refl _, False.elim⟩
  obtain ⟨db, ideal, ok, held, shows_⟩ := Kvdb.Over.opened serves header (by omega) opened
  refine ⟨db, ok, ?_⟩
  obtain stop | ⟨replies, db', ideal', added, run, agrees, held', shows', _⟩ :=
    held.run serves header device.size_lt overload ops shows_ pieces (by simpa using fits)
  · exact Or.inl stop
  · obtain ⟨closed, close, carries, _⟩ := held'.close shows'
    obtain ⟨size, waste⟩ := shows'.counts
    exact Or.inr ⟨replies, db', closed, _, run, agrees, by rw [kvdbSize, held'.size, size],
      by rw [kvdbWaste, held'.waste, waste], close, carries, shows'.tells⟩

theorem kvdb_on_device_refines_map_used :
    let key : Key := ⟨[7], by decide⟩
    let ops : List Op := [.insert key ⟨[1, 2], by decide⟩, .insert key ⟨[3], by decide⟩,
      .update key ⟨[4, 5, 6], by decide⟩, .remove key none]
    let fs := volumeOps fun _ _ => 0
    ∃ db, kvdbOpen fs (.ok ⟨logfsOpen twoRecDevice, 0⟩) = .ok (some db) ∧
      (Kvdb.run fs loadTest db ops = .error .exitSoftware ∨
        ∃ replies db' closed rs, Kvdb.run fs loadTest db ops = .ok (replies, db') ∧
          KvMap.empty.AgreesAll ops replies ∧
          (kvdbSize db').toNat = (KvMap.empty.run ops).live.card ∧
          (kvdbWaste db').toNat =
            (KvMap.empty.run ops).overwrites + (KvMap.empty.run ops).removals ∧
          kvdbClose db' = .ok closed ∧ closed.Carries (logBytes (dummy :: rs)) ∧
          (KvMap.empty.run ops).Tells rs) :=
  kvdb_on_device_refines_map twoRecDevice twoRecDevice_sane (by decide) _ loadTest _ (by decide)
    (by decide)

end OsProjects.KeyValue
