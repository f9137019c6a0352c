import OsProjects.KeyValue.LogfsRuns
import OsProjects.KeyValue.Replay
import OsProjects.KeyValue.Visitor

/-!
# What the restore visitor yields

During a restore the device is only read. `Restoring` ties the handle to what has been
put into the write buffer so far and to the tail offset, both as `absorb` says. The
visitor walks over the records of the log; what it does at their end depends on the two
bytes found there and on whether a header still fits the device.
-/
namespace OsProjects.KeyValue
open OsProjects.Library

/-- What an added record makes of a queue in a ring of `size` bytes: it is dropped when it does
not fit, and the ring looks empty when it is filled. -/
def enqueue (size : Nat) (queue bytes : Bytes) : Bytes :=
  if queue.length + bytes.length < size then queue ++ bytes
  else if queue.length + bytes.length = size then [] else queue

/-- Once 4096 bytes are queued a block goes, and the tail offset moves by 4096. -/
def takeOut (block : Nat) (queue : Bytes) (tail : Nat) : Bytes × Nat :=
  if 4096 ≤ queue.length then (queue.drop block, (tail + 4096) % 2 ^ 64) else (queue, tail)

/-- The queue and the tail offset after one more record. -/
def absorb (block : Nat) (state : Bytes × Nat) (bytes : Bytes) : Bytes × Nat :=
  takeOut block (enqueue (wcacheBlocks * block) state.1 bytes) state.2

/-- The log of `rs` lies at `off` of the device. -/
structure Device.HasLog (device : Device) (off : Nat) (rs : List Rec) : Prop where
  bytes : device.bytes.read off (logSize rs) = logBytes rs
  inside : off + logSize rs ≤ device.size
  fits : ∀ r ∈ rs, r.Fits

/-- A device whose block size is a power of two that an `int` holds and whose transfers succeed. -/
structure Device.Sane (device : Device) : Prop where
  power : ∃ k, device.block = 2 ^ k
  block_lt : device.block < 2 ^ 31
  works : ∀ n, device.works n = true

structure Restoring (device : Device) (lfs : Logfs) (state : Bytes × Nat) : Prop where
  unlocked : lfs.locked = false
  bytes : lfs.device.bytes = device.bytes
  geometry : lfs.device.SameGeometry device
  elemSize : lfs.readCache.elemSize = device.block
  coherent : lfs.readCache.Coherent device.bytes
  within : lfs.readCache.Within device.size
  ringSize : lfs.writeBuffer.size = wcacheBlocks * device.block
  queue : lfs.writeBuffer.Holds state.1
  tail : lfs.tailOffset = state.2

section
variable {device : Device} {lfs : Logfs} {state : Bytes × Nat}

theorem Device.HasLog.head {off : Nat} {r : Rec} {rs : List Rec} (h : device.HasLog off (r :: rs)) :
    device.bytes.read off r.size = r.bytes ∧ off + r.size ≤ device.size ∧ r.Fits := by
  have whole := h.bytes
  have inside := h.inside
  rw [logSize_cons] at whole inside
  have split : logBytes (r :: rs) = r.bytes ++ logBytes rs := by simp [logBytes]
  rw [Mem.read_add, split] at whole
  exact ⟨(List.append_inj whole (by simp)).1, by omega, h.fits r List.mem_cons_self⟩

theorem Device.HasLog.tail {off : Nat} {r : Rec} {rs : List Rec} (h : device.HasLog off (r :: rs)) :
    device.HasLog (off + r.size) rs := by
  have whole := h.bytes
  have inside := h.inside
  rw [logSize_cons] at whole inside
  have split : logBytes (r :: rs) = r.bytes ++ logBytes rs := by simp [logBytes]
  rw [Mem.read_add, split] at whole
  exact ⟨(List.append_inj whole (by simp)).2, by omega,
    fun r' mem => h.fits r' (List.mem_cons_of_mem _ mem)⟩

theorem Restoring.open_ (sane : device.Sane) : Restoring device (logfsOpen device) ([], 0) := by
  have rep := logfsOpen_rep sane.power sane.block_lt sane.works
  exact ⟨rfl, rfl, .refl _, rfl, readCacheOpen_coherent _ _ _, readCacheOpen_within _ _ _, rfl,
    rep.queue, rfl⟩

theorem Restoring.read (h : Restoring device lfs state) (sane : device.Sane) (rand : Nat → Nat)
    {off len : Nat} (inside : off + len ≤ device.size) :
    ∃ l, logfsReadWithFlush lfs rand off len false = .ok (some (device.bytes.read off len), l) ∧
      Restoring device l state := by
  have free : ¬ lfs.locked = true := by simp [h.unlocked]
  have index_lt : off % lfs.device.block < 2 ^ 31 := by
    rw [h.geometry.block]
    exact Nat.lt_trans (Nat.mod_lt _ device.block_pos) sane.block_lt
  obtain ⟨data, device', rc, read, bytes, geometry, size, right, within, _⟩ := readBlocks_spec rand
    (fun n _ => h.geometry.works ▸ sane.works n) (h.elemSize.trans h.geometry.block.symm)
    (by rwa [h.geometry.size] : off + len ≤ lfs.device.size) (Nat.lt_succ_self len)
    (Or.inr index_lt)
  rw [Logfs.Coherent, h.bytes] at right
  rw [h.geometry.size] at within
  obtain ⟨exact_, coherent⟩ := right h.coherent
  refine ⟨{ lfs with device := device', readCache := rc }, ?_, h.unlocked, bytes.trans h.bytes,
    geometry.trans h.geometry, size.trans h.elemSize, coherent, within h.within, h.ringSize,
    h.queue, h.tail⟩
  rw [logfsReadWithFlush, if_neg free, if_neg (by decide), ← exact_]
  exact read

theorem Restoring.read_past (h : Restoring device lfs state) (rand : Nat → Nat) {off len : Nat}
    (some_ : len ≠ 0) (past : device.size < off + len) (data : Bytes) (l : Logfs) :
    logfsReadWithFlush lfs rand off len false ≠ .ok (some data, l) := by
  have free : ¬ lfs.locked = true := by simp [h.unlocked]
  rw [logfsReadWithFlush, if_neg free, if_neg (by decide)]
  apply readBlocks_past rand (h.elemSize.trans h.geometry.block.symm) _ some_
  · rwa [h.geometry.size]
  · rw [h.geometry.size]
    exact h.within

theorem Restoring.wbAdd (h : Restoring device lfs state) (bytes : Bytes) :
    Restoring device (logfsWbAdd lfs bytes)
      (enqueue (wcacheBlocks * device.block) state.1 bytes, state.2) := by
  have added : (logfsWbAdd lfs bytes).writeBuffer.size = lfs.writeBuffer.size ∧
      (logfsWbAdd lfs bytes).writeBuffer.Holds
        (enqueue lfs.writeBuffer.size state.1 bytes) := by
    simp only [logfsWbAdd, enqueue]
    rcases Nat.lt_or_ge lfs.writeBuffer.size (state.1.length + bytes.length) with full | room
    · rw [writeBufferAdd_full h.queue full, if_neg (by omega), if_neg (by omega)]
      exact ⟨rfl, h.queue.tail_lt, h.queue.short, h.queue.head, h.queue.ring⟩
    · obtain ⟨wb, add, size, _, fits, fills⟩ := writeBufferAdd_fits h.queue room
      rw [add]
      refine ⟨size, ?_⟩
      split_ifs with less exact_
      · have holds := fits less
        exact ⟨holds.tail_lt, holds.short, holds.head, holds.ring⟩
      · have holds := fills exact_
        exact ⟨holds.tail_lt, holds.short, holds.head, holds.ring⟩
      · omega
  rw [h.ringSize] at added
  exact ⟨h.unlocked, h.bytes, h.geometry, h.elemSize, h.coherent, h.within, added.1, added.2,
    h.tail⟩

theorem Restoring.wbDeq (h : Restoring device lfs state) (sane : device.Sane)
    (some_ : state.1 ≠ []) :
    ∃ l, logfsWbDeq lfs = .ok l ∧ Restoring device l (state.1.drop device.block, state.2) ∧
      l.writeBuffer.lastAvail = 0 := by
  have block_pos := device.block_pos
  have ringSize := h.ringSize
  have divides := (logfsOpen_rep sane.power sane.block_lt sane.works).divides
  obtain ⟨wb, dequeue, holds, size, mark⟩ := writeBufferDequeue_drain h.queue (ringSize ▸ divides)
    some_ block_pos sane.block_lt (by simp only [ringSize, wcacheBlocks]; omega)
  refine ⟨{ lfs with writeBuffer := wb }, ?_, ⟨h.unlocked, h.bytes, h.geometry, h.elemSize,
    h.coherent, h.within, size.trans ringSize, holds, h.tail⟩, mark⟩
  simp only [logfsWbDeq, h.geometry.block, dequeue]

theorem Restoring.setTailOffset (h : Restoring device lfs state) (off : Nat) :
    Restoring device (logfsSetTailOffset lfs off) (state.1, (state.2 + off) % 2 ^ 64) :=
  ⟨h.unlocked, h.bytes, h.geometry, h.elemSize, h.coherent, h.within, h.ringSize, h.queue, by
    simp only [logfsSetTailOffset, h.tail]⟩

variable (rand : Nat → Nat → Nat)

theorem writeBufferAdd_lastAvail (wb : WriteBuffer) (buf : Bytes) :
    (writeBufferAdd wb buf).2.lastAvail = wb.lastAvail := by
  unfold writeBufferAdd
  simp only
  split_ifs <;> rfl

/-- A read without a flush leaves the write buffer. -/
theorem logfsReadWithFlush_writeBuffer {rand : Nat → Nat} {off len : Nat} {reply : Option Bytes}
    {l : Logfs} (ok : logfsReadWithFlush lfs rand off len false = .ok (reply, l)) :
    l.writeBuffer = lfs.writeBuffer := by
  unfold logfsReadWithFlush at ok
  rw [if_neg (by decide : ¬ false = true)] at ok
  split at ok
  · cases ok
  · exact (readBlocks_frame ok).1

/-- One more record goes into the queue as `absorb` says. Its length is added to the mark of the
last peek, and a drain takes the mark back. -/
theorem visitorBuffer_spec {kvraw : Kvraw Logfs} (h : Restoring device kvraw.logfs state)
    (sane : device.Sane)
    {off : Nat} {r : Rec} (bytes : device.bytes.read off r.size = r.bytes)
    (inside : off + r.size ≤ device.size) :
    ∃ l, visitorBuffer rand kvraw off r.header = .ok (r.key, { kvraw with logfs := l }) ∧
      Restoring device l (absorb device.block state r.bytes) ∧
      l.writeBuffer.lastAvail =
        if 4096 ≤ (enqueue (wcacheBlocks * device.block) state.1 r.bytes).length then 0
        else (kvraw.logfs.writeBuffer.lastAvail + r.size) % 2 ^ 64 := by
  have size_lt := device.size_lt
  simp only [Rec.size] at inside
  have keyOff : (off + metaLen) % 2 ^ 64 = off + metaLen := Nat.mod_eq_of_lt (by omega)
  have valOff : (off + metaLen + r.key.length) % 2 ^ 64 = off + metaLen + r.key.length :=
    Nat.mod_eq_of_lt (by omega)
  have split : r.header.encode ++ (r.key ++ r.val) = r.bytes := rfl
  have key : device.bytes.read (off + metaLen) r.key.length = r.key := by
    have le : metaLen + r.key.length ≤ r.size := by simp only [Rec.size]; omega
    rw [← Mem.take_drop_read device.bytes le, bytes, ← split, List.drop_left' (by simp),
      List.take_left' rfl]
  have val : device.bytes.read (off + metaLen + r.key.length) r.val.length = r.val := by
    have rest : r.size - (metaLen + r.key.length) = r.val.length := Nat.add_sub_cancel_left ..
    rw [Nat.add_assoc, ← rest, ← Mem.drop_read, bytes, ← split, ← List.append_assoc,
      List.drop_left' (by simp)]
  obtain ⟨l₁, read₁, h₁⟩ := h.read sane (rand (off + metaLen))
    (by omega : off + metaLen + r.key.length ≤ device.size)
  obtain ⟨l₂, read₂, h₂⟩ := h₁.read sane (rand (off + metaLen + r.key.length))
    (by omega : off + metaLen + r.key.length + r.val.length ≤ device.size)
  have added := h₂.wbAdd r.bytes
  have avail := logfsWbAvail_eq added.queue
  have mark : (logfsWbAdd l₂ r.bytes).writeBuffer.lastAvail =
      (kvraw.logfs.writeBuffer.lastAvail + r.size) % 2 ^ 64 := by
    simp only [logfsWbAdd, writeBufferAdd_lastAvail, logfsReadWithFlush_writeBuffer read₂,
      logfsReadWithFlush_writeBuffer read₁, Rec.length_bytes]
  rw [key] at read₁
  rw [val] at read₂
  have keyLen : r.header.keyLen = r.key.length := rfl
  have valLen : r.header.valLen = r.val.length := rfl
  simp only [visitorBuffer, keyLen, valLen, keyOff, valOff, read₁, read₂, Option.getD_some, split,
    avail, absorb, takeOut]
  split_ifs with full
  · have some_ : enqueue (wcacheBlocks * device.block) state.1 r.bytes ≠ [] :=
      List.ne_nil_of_length_pos (by omega)
    obtain ⟨l₃, deq, h₃, mark₃⟩ := added.wbDeq sane some_
    exact ⟨_, by simp only [deq], h₃.setTailOffset 4096, mark₃⟩
  · exact ⟨_, rfl, added, mark⟩

theorem readMeta2_spec {kvraw : Kvraw Logfs} (h : Restoring device kvraw.logfs state)
    (sane : device.Sane) {off : Nat} (inside : off + metaLen ≤ device.size)
    (size : off + metaLen ≤ kvraw.size) :
    ∃ l, readMeta2 rand kvraw off = .ok
        (if device.bytes off = markK ∧ device.bytes (off + 1) = markV then
          .found (Meta.decode (device.bytes.read off metaLen)) else .ended,
        { kvraw with logfs := l }) ∧ Restoring device l state := by
  have size_lt := device.size_lt
  have off_lt : (off + metaLen) % 2 ^ 64 = off + metaLen := Nat.mod_eq_of_lt (by omega)
  obtain ⟨l, read, h'⟩ := h.read sane (rand off) inside
  refine ⟨l, ?_, h'⟩
  have mark0 : (Meta.decode (device.bytes.read off metaLen)).mark0 = device.bytes off := rfl
  have mark1 : (Meta.decode (device.bytes.read off metaLen)).mark1 = device.bytes (off + 1) := rfl
  simp only [readMeta2, off_lt, if_neg (Nat.not_lt.mpr size), read, mark0, mark1]
  by_cases marked : device.bytes off = markK ∧ device.bytes (off + 1) = markV
  · rw [if_pos marked, if_neg (by simp [marked])]
  · rw [if_neg marked, if_pos (by tauto)]

theorem readMeta2_short {kvraw : Kvraw Logfs} {off : Nat} (off_lt : off + metaLen < 2 ^ 64)
    (short : kvraw.size < off + metaLen) : readMeta2 rand kvraw off = .ok (.corrupt, kvraw) := by
  rw [readMeta2, Nat.mod_eq_of_lt off_lt, if_pos short]

theorem readMeta2_past {kvraw : Kvraw Logfs} (h : Restoring device kvraw.logfs state) {off : Nat}
    (past : device.size < off + metaLen) (result : MetaResult) (kvraw' : Kvraw Logfs)
    (read : readMeta2 rand kvraw off = .ok (result, kvraw')) : result = .corrupt := by
  have failed := h.read_past (rand off) (by decide : metaLen ≠ 0) past
  unfold readMeta2 at read
  split at read
  · cases read
    rfl
  · cases reply : logfsReadWithFlush kvraw.logfs (rand off) off metaLen false with
    | error e => simp [reply] at read
    | ok result =>
      obtain ⟨_ | buf, l⟩ := result
      · simp only [reply] at read
        cases read
        rfl
      · exact absurd reply (failed buf l)

variable {kvraw : Kvraw Logfs} {v : Visitor} {rs : List Rec}

theorem Device.HasLog.header {off : Nat} {r : Rec} (log : device.HasLog off (r :: rs)) :
    device.bytes.read off metaLen = r.header.encode := by
  obtain ⟨bytes, _, _⟩ := log.head
  have le : metaLen ≤ r.size := by
    rw [Rec.size]
    omega
  rw [← Mem.take_read device.bytes le, bytes, Rec.bytes, List.take_left' (by simp)]

theorem Device.HasLog.marked {off : Nat} {r : Rec} (log : device.HasLog off (r :: rs)) :
    device.bytes off = markK ∧ device.bytes (off + 1) = markV := by
  have two : device.bytes off :: device.bytes (off + 1) ::
      device.bytes.read (off + 1 + 1) 14 = r.header.encode := log.header
  simp only [Meta.encode, List.cons.injEq] at two
  exact ⟨two.1, two.2.1⟩

/-- Reading the header of a record of the log. -/
theorem readMeta2_record {l : Logfs} (h : Restoring device l state) (sane : device.Sane)
    {off : Nat} {r : Rec} (log : device.HasLog off (r :: rs)) :
    ∃ l', readMeta2 rand ⟨off + metaLen, l⟩ off = .ok (.found r.header, ⟨off + metaLen, l'⟩) ∧
      Restoring device l' state := by
  obtain ⟨_, inside, fits⟩ := log.head
  have parts : r.size = metaLen + r.key.length + r.val.length := rfl
  have start : Restoring device (⟨off + metaLen, l⟩ : Kvraw Logfs).logfs state := h
  obtain ⟨l', read, h'⟩ := readMeta2_spec rand start sane (by omega : off + metaLen ≤ device.size)
    (Nat.le_refl _)
  rw [if_pos log.marked, log.header, fits.decode] at read
  exact ⟨l', read, h'⟩

/-- A record at the next offset is yielded, but its lengths are added to the size modulo
`2 ^ 32`. -/
theorem visitorNext_record (h : Restoring device kvraw.logfs state) (sane : device.Sane) {r : Rec}
    (log : device.HasLog v.nextOffset (r :: rs)) (size : kvraw.size = v.nextOffset) :
    ∃ l, visitorNext rand kvraw v = .ok
        (⟨v.nextOffset, v.nextOffset + r.size, r.key, r.key.length, r.val.length, v.valid⟩,
          ⟨v.nextOffset + metaLen + (r.key.length + r.val.length) % 2 ^ 32, l⟩) ∧
      Restoring device l (absorb device.block state r.bytes) := by
  obtain ⟨bytes, inside, _⟩ := log.head
  have size_lt := device.size_lt
  have parts : r.size = metaLen + r.key.length + r.val.length := rfl
  have mod_le := Nat.mod_le (r.key.length + r.val.length) (2 ^ 32)
  have grown : (kvraw.size + metaLen) % 2 ^ 64 = v.nextOffset + metaLen := by
    rw [size]
    exact Nat.mod_eq_of_lt (by omega)
  obtain ⟨l₁, read, h₁⟩ := readMeta2_record rand h sane log
  have sized : Restoring device (⟨v.nextOffset + metaLen + (r.key.length + r.val.length) % 2 ^ 32,
    l₁⟩ : Kvraw Logfs).logfs state := h₁
  obtain ⟨l₂, buffered, h₂, _⟩ := visitorBuffer_spec rand sized sane bytes inside
  refine ⟨l₂, ?_, h₂⟩
  have keyLen : r.header.keyLen = r.key.length := rfl
  have valLen : r.header.valLen = r.val.length := rfl
  have size' : (v.nextOffset + metaLen + (r.key.length + r.val.length) % 2 ^ 32) % 2 ^ 64 =
      v.nextOffset + metaLen + (r.key.length + r.val.length) % 2 ^ 32 := Nat.mod_eq_of_lt (by omega)
  have next : (v.nextOffset + metaLen + r.key.length + r.val.length) % 2 ^ 64 =
      v.nextOffset + r.size := by
    rw [Nat.mod_eq_of_lt (by omega)]
    omega
  simp only [visitorNext, grown, read, keyLen, valLen, size', buffered, next]

/-- A visitor whose header leaves the device does not come back. -/
theorem visitorNext_past (h : Restoring device kvraw.logfs state)
    (past : device.size < v.nextOffset + metaLen) (result : Visitor × Kvraw Logfs) :
    visitorNext rand kvraw v ≠ .ok result := by
  have start : Restoring device (⟨(kvraw.size + metaLen) % 2 ^ 64, kvraw.logfs⟩ :
    Kvraw Logfs).logfs state := h
  unfold visitorNext
  cases read : readMeta2 rand ⟨(kvraw.size + metaLen) % 2 ^ 64, kvraw.logfs⟩ v.nextOffset with
  | error e =>
    simp only [read]
    exact nofun
  | ok result =>
    obtain ⟨result, kvraw'⟩ := result
    obtain rfl := readMeta2_past rand start past result kvraw' read
    simp only [read]
    exact nofun

/-- Nor does one whose size has lost `2 ^ 32`. -/
theorem visitorNext_short (h : Restoring device kvraw.logfs state)
    (short : kvraw.size < v.nextOffset) (result : Visitor × Kvraw Logfs) :
    visitorNext rand kvraw v ≠ .ok result := by
  have size_lt := device.size_lt
  rcases Nat.lt_or_ge device.size (v.nextOffset + metaLen) with past | inside
  · exact visitorNext_past rand h past result
  · have grown : (kvraw.size + metaLen) % 2 ^ 64 = kvraw.size + metaLen :=
      Nat.mod_eq_of_lt (by omega)
    have read : readMeta2 rand ⟨kvraw.size + metaLen, kvraw.logfs⟩ v.nextOffset =
        .ok (.corrupt, ⟨kvraw.size + metaLen, kvraw.logfs⟩) :=
      readMeta2_short rand (by omega) (by simp only; omega)
    simp only [visitorNext, grown, read]
    exact nofun

/-- Where the log can end: a header fits behind it and the mark is missing. -/
def Device.EndsAt (device : Device) (off : Nat) : Prop :=
  off + metaLen ≤ device.size ∧ ¬ (device.bytes off = markK ∧ device.bytes (off + 1) = markV)

instance Device.decidableEndsAt (device : Device) (off : Nat) : Decidable (device.EndsAt off) :=
  inferInstanceAs (Decidable (_ ∧ _))

theorem visitorNext_end (h : Restoring device kvraw.logfs state) (sane : device.Sane)
    (ends : device.EndsAt v.nextOffset) (size : kvraw.size = v.nextOffset) :
    ∃ l, visitorNext rand kvraw v = .ok ({ v with valid := false }, ⟨v.nextOffset, l⟩) ∧
      Restoring device l state := by
  obtain ⟨inside, unmarked⟩ := ends
  have size_lt := device.size_lt
  have grown : (kvraw.size + metaLen) % 2 ^ 64 = v.nextOffset + metaLen := by
    rw [size]
    exact Nat.mod_eq_of_lt (by omega)
  have shrunk : (v.nextOffset + metaLen + 2 ^ 64 - metaLen) % 2 ^ 64 = v.nextOffset := by
    rw [Nat.add_right_comm, Nat.add_sub_cancel, Nat.add_mod_right]
    exact Nat.mod_eq_of_lt (by omega)
  have start : Restoring device (⟨v.nextOffset + metaLen, kvraw.logfs⟩ : Kvraw Logfs).logfs state := h
  obtain ⟨l, read, h'⟩ := readMeta2_spec rand start sane inside (Nat.le_refl _)
  rw [if_neg unmarked] at read
  exact ⟨l, by simp only [visitorNext, grown, read, shrunk], h'⟩

/-- A visitor that stops found an end. -/
theorem visitorNext_stops (h : Restoring device kvraw.logfs state) (sane : device.Sane)
    (size : kvraw.size = v.nextOffset) (valid : v.valid = true) {v' : Visitor}
    {kvraw' : Kvraw Logfs} (next : visitorNext rand kvraw v = .ok (v', kvraw'))
    (stops : v'.valid = false) : device.EndsAt v.nextOffset := by
  have size_lt := device.size_lt
  rcases Nat.lt_or_ge device.size (v.nextOffset + metaLen) with past | inside
  · exact absurd next (visitorNext_past rand h past _)
  refine ⟨inside, fun marked => ?_⟩
  have grown : (kvraw.size + metaLen) % 2 ^ 64 = v.nextOffset + metaLen := by
    rw [size]
    exact Nat.mod_eq_of_lt (by omega)
  have start : Restoring device (⟨v.nextOffset + metaLen, kvraw.logfs⟩ : Kvraw Logfs).logfs state := h
  obtain ⟨l, read, _⟩ := readMeta2_spec rand start sane inside (Nat.le_refl _)
  rw [if_pos marked] at read
  simp only [visitorNext, grown, read] at next
  split at next
  · cases next
  · cases next
    exact absurd stops (by simp [valid])

/-- The records from `off` on as the visitor yields them. -/
def visitsFrom (off : Nat) (rs : List Rec) : List Visit :=
  (entriesFrom off rs).map fun e => ⟨e.1, e.2.key, e.2.val.length⟩

/-- The sum of a record's lengths is not cut by `unsigned` arithmetic. -/
def Rec.Sums (r : Rec) : Prop := r.key.length + r.val.length < 2 ^ 32

instance Rec.decidableSums (r : Rec) : Decidable r.Sums := inferInstanceAs (Decidable (_ < _))

/-- The loop yields the records in front of the visitor and stops behind them. -/
theorem visitorLoop_records (h : Restoring device kvraw.logfs state) (sane : device.Sane)
    (log : device.HasLog v.nextOffset rs) (size : kvraw.size = v.nextOffset)
    (valid : v.valid = true) (sums : ∀ r ∈ rs, r.Sums)
    (ends : device.EndsAt (v.nextOffset + logSize rs)) {fuel : Nat} (enough : rs.length + 2 ≤ fuel) :
    ∃ l, visitorLoop rand fuel kvraw v = .ok
        (⟨v.offset, v.key, v.valLen⟩ :: visitsFrom v.nextOffset rs,
          ⟨v.nextOffset + logSize rs, l⟩) ∧
      Restoring device l ((rs.map Rec.bytes).foldl (absorb device.block) state) := by
  induction rs generalizing kvraw v state fuel with
  | nil =>
    obtain ⟨fuel, rfl⟩ := Nat.exists_eq_add_of_le' enough
    obtain ⟨l, next, h'⟩ := visitorNext_end rand h sane ends size
    refine ⟨l, ?_, h'⟩
    simp only [List.length_nil, visitorLoop, valid, if_true, next]
    rfl
  | cons r rs ih =>
    obtain ⟨fuel, rfl⟩ := Nat.exists_eq_add_of_le' (by omega : 1 ≤ fuel)
    obtain ⟨sum, sums⟩ := List.forall_mem_cons.mp sums
    obtain ⟨l₁, next, h₁⟩ := visitorNext_record rand h sane log size
    have whole : v.nextOffset + metaLen + (r.key.length + r.val.length) % 2 ^ 32 =
        v.nextOffset + r.size := by
      rw [Nat.mod_eq_of_lt sum, Rec.size]
      omega
    rw [whole] at next
    rw [logSize_cons, ← Nat.add_assoc] at ends
    obtain ⟨l₂, rest, h₂⟩ := @ih _ ⟨v.nextOffset + r.size, l₁⟩ ⟨v.nextOffset, v.nextOffset + r.size,
      r.key, r.key.length, r.val.length, v.valid⟩ h₁ log.tail rfl valid sums ends fuel
      (by simp only [List.length_cons] at enough; omega)
    refine ⟨l₂, ?_, h₂⟩
    simp only [visitorLoop, valid, if_true, next] at rest ⊢
    rw [rest, logSize_cons, Nat.add_assoc]
    rfl

/-- One pass of the loop that comes back. -/
theorem visitorLoop_pass (valid : v.valid = true) {fuel : Nat} {visits : List Visit}
    {end_ : Kvraw Logfs} (run : visitorLoop rand fuel kvraw v = .ok (visits, end_)) :
    ∃ fuel' v' kvraw' rest, visitorNext rand kvraw v = .ok (v', kvraw') ∧
      visitorLoop rand fuel' kvraw' v' = .ok (rest, end_) ∧
      visits = ⟨v.offset, v.key, v.valLen⟩ :: rest := by
  cases fuel with
  | zero => cases run
  | succ fuel =>
    simp only [visitorLoop, valid, if_true] at run
    cases next : visitorNext rand kvraw v with
    | error e => simp [next] at run
    | ok result =>
      obtain ⟨v', kvraw'⟩ := result
      cases more : visitorLoop rand fuel kvraw' v' with
      | error e => simp [next, more] at run
      | ok result =>
        obtain ⟨rest, end'⟩ := result
        simp only [next, more, Except.ok.injEq, Prod.mk.injEq] at run
        obtain ⟨rfl, rfl⟩ := run
        exact ⟨fuel, v', kvraw', rest, rfl, more, rfl⟩

/-- Behind a record whose lengths were cut the loop does not come back. -/
theorem visitorLoop_sums (h : Restoring device kvraw.logfs state) (sane : device.Sane)
    (log : device.HasLog v.nextOffset rs) (size : kvraw.size = v.nextOffset)
    (valid : v.valid = true) {fuel : Nat} {visits : List Visit} {end_ : Kvraw Logfs}
    (run : visitorLoop rand fuel kvraw v = .ok (visits, end_)) : ∀ r ∈ rs, r.Sums := by
  induction rs generalizing kvraw v state fuel visits with
  | nil => simp
  | cons r rs ih =>
    obtain ⟨fuel', v', kvraw', rest, next, more, _⟩ := visitorLoop_pass rand valid run
    obtain ⟨l, record, h'⟩ := visitorNext_record rand h sane log size
    rw [record] at next
    have valid' : v'.valid = true := by cases next; exact valid
    cases next
    by_cases sum : r.Sums
    · refine List.forall_mem_cons.mpr ⟨sum, ih h' log.tail ?_ valid' more⟩
      simp only [Nat.mod_eq_of_lt sum, Rec.size]
      omega
    · -- the size is behind the next offset
      obtain ⟨_, _, _, _, next, _⟩ := visitorLoop_pass rand valid' more
      have cut := Nat.mod_lt (r.key.length + r.val.length) (by decide : 0 < 2 ^ 32)
      simp only [Rec.Sums] at sum
      refine absurd next (visitorNext_short rand h' ?_ _)
      simp only [Rec.size]
      omega

/-- A loop that yields just the records in front of the visitor found the end behind them. -/
theorem visitorLoop_ends (h : Restoring device kvraw.logfs state) (sane : device.Sane)
    (log : device.HasLog v.nextOffset rs) (size : kvraw.size = v.nextOffset)
    (valid : v.valid = true) {fuel : Nat} {end_ : Kvraw Logfs}
    (run : visitorLoop rand fuel kvraw v =
      .ok (⟨v.offset, v.key, v.valLen⟩ :: visitsFrom v.nextOffset rs, end_)) :
    device.EndsAt (v.nextOffset + logSize rs) := by
  induction rs generalizing kvraw v state fuel with
  | nil =>
    obtain ⟨fuel', v', kvraw', rest, next, more, yields⟩ := visitorLoop_pass rand valid run
    obtain rfl : [] = rest := (List.cons.inj yields).2
    refine visitorNext_stops rand h sane size valid next ?_
    by_contra continues
    obtain ⟨_, _, _, _, _, _, no⟩ := visitorLoop_pass rand (by simpa using continues) more
    cases no
  | cons r rs ih =>
    have sum := visitorLoop_sums rand h sane log size valid run r List.mem_cons_self
    obtain ⟨fuel', v', kvraw', rest, next, more, yields⟩ := visitorLoop_pass rand valid run
    obtain rfl := (List.cons.inj yields).2
    obtain ⟨l, record, h'⟩ := visitorNext_record rand h sane log size
    rw [record] at next
    have valid' : v'.valid = true := by cases next; exact valid
    cases next
    have size' : v.nextOffset + metaLen + (r.key.length + r.val.length) % 2 ^ 32 =
        v.nextOffset + r.size := by
      rw [Nat.mod_eq_of_lt sum, Rec.size]
      omega
    have ends := ih h' log.tail size' valid' more
    rwa [logSize_cons, ← Nat.add_assoc]

/-- The visitor as `kvraw_visitor_init` leaves it to the first `kvraw_visitor_next`. -/
def Visitor.first : Visitor := ⟨0, dummy.size, [], 0, 0, true⟩

/-- `kvraw_visitor_init` puts the dummy record into the write buffer and goes on to the next one. -/
theorem visitorInit_dummy (sane : device.Sane) (log : device.HasLog 0 (dummy :: rs)) :
    ∃ l, Restoring device l (absorb device.block ([], 0) dummy.bytes) ∧
      visitorInit rand ⟨0, logfsOpen device⟩ = visitorNext rand ⟨dummy.size, l⟩ .first := by
  obtain ⟨bytes, inside, _⟩ := log.head
  obtain ⟨l₁, read, h₁⟩ := readMeta2_record rand (Restoring.open_ sane) sane log
  have sized : Restoring device (⟨dummy.size, l₁⟩ : Kvraw Logfs).logfs ([], 0) := h₁
  obtain ⟨l₂, buffered, h₂, _⟩ := visitorBuffer_spec rand sized sane bytes inside
  refine ⟨l₂, h₂, ?_⟩
  have grown : (0 + metaLen) % 2 ^ 64 = 0 + metaLen := rfl
  have sum : (0 + metaLen + (dummy.header.keyLen + dummy.header.valLen) % 2 ^ 32) % 2 ^ 64 =
      dummy.size := rfl
  simp only [visitorInit, grown, read, sum, buffered]
  rfl

/-- A restore is the loop of a visitor that stands on the dummy record, which it does not yield. -/
theorem visitorRun_eq (sane : device.Sane) (log : device.HasLog 0 (dummy :: rs)) :
    ∃ l, Restoring device l (absorb device.block ([], 0) dummy.bytes) ∧
      visitorLoop rand (device.size + 3) ⟨dummy.size, l⟩ .first =
        match visitorRun rand device with
        | .error e => .error e
        | .ok (visits, kvraw) => .ok (⟨0, [], 0⟩ :: visits, kvraw) := by
  obtain ⟨l, restoring, init⟩ := visitorInit_dummy rand sane log
  refine ⟨l, restoring, ?_⟩
  simp only [visitorRun, init, visitorLoop, Visitor.first, if_true]
  cases visitorNext rand ⟨dummy.size, l⟩ ⟨0, dummy.size, [], 0, 0, true⟩ <;> rfl

theorem Device.HasLog.tail_dummy (log : device.HasLog 0 (dummy :: rs)) :
    device.HasLog Visitor.first.nextOffset rs := by
  have rest := log.tail
  rwa [Nat.zero_add] at rest

/-- A restore of a log that ends where a visitor can see it, and whose lengths are not cut. -/
theorem visitorRun_records (sane : device.Sane) (log : device.HasLog 0 (dummy :: rs))
    (sums : ∀ r ∈ rs, r.Sums) (ends : device.EndsAt (logSize (dummy :: rs))) :
    ∃ l, visitorRun rand device = .ok (visits rs, ⟨logSize (dummy :: rs), l⟩) ∧
      Restoring device l (((dummy :: rs).map Rec.bytes).foldl (absorb device.block) ([], 0)) := by
  obtain ⟨l, restoring, run⟩ := visitorRun_eq rand sane log
  have enough : rs.length + 2 ≤ device.size + 3 := by
    have records := length_le_logSize rs
    have inside := log.inside
    simp only [logSize_cons] at inside
    omega
  have start : Restoring device (⟨dummy.size, l⟩ : Kvraw Logfs).logfs _ := restoring
  obtain ⟨l', loop, final⟩ := visitorLoop_records rand start sane log.tail_dummy rfl rfl sums ends
    enough
  refine ⟨l', ?_, final⟩
  rw [loop] at run
  cases yields : visitorRun rand device with
  | error e => simp [yields] at run
  | ok result =>
    obtain ⟨yielded, kvraw⟩ := result
    simp only [yields, Except.ok.injEq, Prod.mk.injEq, List.cons.injEq] at run
    rw [← run.1.2, ← run.2]
    rfl

/-- A restore that comes back has cut no lengths. -/
theorem visitorRun_sums (sane : device.Sane) (log : device.HasLog 0 (dummy :: rs))
    {yielded : List Visit} {kvraw : Kvraw Logfs}
    (ok : visitorRun rand device = .ok (yielded, kvraw)) : ∀ r ∈ rs, r.Sums := by
  obtain ⟨l, restoring, run⟩ := visitorRun_eq rand sane log
  rw [ok] at run
  exact visitorLoop_sums rand restoring sane log.tail_dummy rfl rfl run

end

/-- The visitor yields the records of the log and stops behind them exactly when no record's
lengths are cut, a header fits behind the log, and a log that ends on a block boundary is not
followed by the mark. -/
theorem visitorRun_yields_iff (device : Device) (sane : device.Sane) (rand : Nat → Nat → Nat)
    (rs : List Rec) (log : device.HasLog 0 (dummy :: rs))
    (padded : ∀ x, logSize (dummy :: rs) ≤ x →
      x < roundUp (logSize (dummy :: rs)) device.block → device.bytes x = 0) :
    (∃ kvraw, visitorRun rand device = .ok (visits rs, kvraw)) ↔
      (∀ r ∈ rs, r.Sums) ∧ logSize (dummy :: rs) + metaLen ≤ device.size ∧
        (device.block ∣ logSize (dummy :: rs) →
          ¬ (device.bytes (logSize (dummy :: rs)) = markK ∧
            device.bytes (logSize (dummy :: rs) + 1) = markV)) := by
  constructor
  · rintro ⟨kvraw, ok⟩
    obtain ⟨l, restoring, run⟩ := visitorRun_eq rand sane log
    rw [ok] at run
    obtain ⟨inside, unmarked⟩ := visitorLoop_ends rand restoring sane log.tail_dummy rfl rfl run
    exact ⟨visitorRun_sums rand sane log ok, inside, fun _ => unmarked⟩
  · rintro ⟨sums, inside, unmarked⟩
    have ends : device.EndsAt (logSize (dummy :: rs)) := by
      refine ⟨inside, ?_⟩
      by_cases aligned : device.block ∣ logSize (dummy :: rs)
      · exact unmarked aligned
      · -- the padding is no mark
        rintro ⟨k, _⟩
        obtain ⟨dvd, le, _⟩ := @roundUp_spec (logSize (dummy :: rs)) device.block device.block_pos
        have lt : logSize (dummy :: rs) < roundUp (logSize (dummy :: rs)) device.block := by
          refine Nat.lt_of_le_of_ne le fun same => aligned ?_
          rw [same]
          exact dvd
        rw [padded _ (Nat.le_refl _) lt] at k
        exact absurd k (by decide)
    obtain ⟨l, run, _⟩ := visitorRun_records rand sane log sums ends
    exact ⟨_, run⟩

/-- A record that ends on the first block boundary, and one behind it. -/
def boundaryRec : Rec := ⟨[1], List.replicate 29 7, 0⟩

def laterRec : Rec := ⟨[2], [8], 0⟩

/-- A device of 5 blocks of 64 bytes with the log of two records. -/
def twoRecDevice : Device where
  bytes x := (logBytes [dummy, boundaryRec, laterRec]).getD x 0
  size := 320
  block := 64
  works _ := true
  transfers := 0
  block_pos := by decide
  block_lt := by decide
  size_lt := by decide
  whole := by decide

theorem twoRecDevice_sane : twoRecDevice.Sane := ⟨⟨6, rfl⟩, by decide, fun _ => rfl⟩

theorem twoRecDevice_hasLog : twoRecDevice.HasLog 0 [dummy, boundaryRec, laterRec] := by
  refine ⟨by decide +kernel, by decide, ?_⟩
  simp only [List.forall_mem_cons, List.not_mem_nil, false_imp_iff, implies_true, and_true]
  exact ⟨⟨by decide, by decide, by decide, by decide⟩, ⟨by decide, by decide, by decide, by decide⟩,
    ⟨by decide, by decide, by decide, by decide⟩⟩

theorem twoRecDevice_zeros (x : Nat) (behind : logSize [dummy, boundaryRec, laterRec] ≤ x) :
    twoRecDevice.bytes x = 0 := by
  have past : (logBytes [dummy, boundaryRec, laterRec]).length ≤ x := by
    rw [length_logBytes]
    exact behind
  simp [twoRecDevice, List.getD_eq_getElem?_getD, List.getElem?_eq_none past]

theorem visitorRun_yields_iff_two :
    (∃ kvraw, visitorRun (fun _ _ => 0) twoRecDevice =
        .ok (visits [boundaryRec, laterRec], kvraw)) ↔
      (∀ r ∈ [boundaryRec, laterRec], r.Sums) ∧
        logSize [dummy, boundaryRec, laterRec] + metaLen ≤ twoRecDevice.size ∧
        (twoRecDevice.block ∣ logSize [dummy, boundaryRec, laterRec] →
          ¬ (twoRecDevice.bytes (logSize [dummy, boundaryRec, laterRec]) = markK ∧
            twoRecDevice.bytes (logSize [dummy, boundaryRec, laterRec] + 1) = markV)) :=
  visitorRun_yields_iff twoRecDevice twoRecDevice_sane _ _ twoRecDevice_hasLog
    fun x behind _ => twoRecDevice_zeros x behind

/-- A session whose only record ends on a block boundary, on a device that still holds a longer
log: the visitor yields the record of the earlier session. -/
theorem visitorRun_yields_stale :
    twoRecDevice.Sane ∧ twoRecDevice.HasLog 0 [dummy, boundaryRec] ∧
      roundUp (logSize [dummy, boundaryRec]) twoRecDevice.block = logSize [dummy, boundaryRec] ∧
      ¬ ∃ kvraw, visitorRun (fun _ _ => 0) twoRecDevice = .ok (visits [boundaryRec], kvraw) := by
  have log := twoRecDevice_hasLog
  refine ⟨twoRecDevice_sane, ⟨by decide +kernel, by decide, fun r mem => log.fits r ?_⟩, rfl, ?_⟩
  · simp only [List.mem_cons, List.not_mem_nil, or_false] at mem ⊢
    exact mem.imp_right Or.inl
  · rintro ⟨kvraw, run⟩
    have yields : ((visitorRun (fun _ _ => 0) twoRecDevice).toOption.map Prod.fst) =
        some (visits [boundaryRec, laterRec]) := by decide +kernel
    rw [run] at yields
    have same : visits [boundaryRec] = visits [boundaryRec, laterRec] := Option.some.inj yields
    exact absurd same (by decide +kernel)

end OsProjects.KeyValue
