import OsProjects.KeyValue.WriteBuffer

/-!
# The write buffer as a queue

`WriteBuffer.Holds wb bs` says that the ring queues the bytes `bs`, fewer than its
size. An add that fits enqueues; one that fills the ring exactly leaves a ring that
holds nothing. A drain takes the oldest block, a peek copies the whole queue.
-/
namespace OsProjects.KeyValue
open OsProjects.Library

structure WriteBuffer.Holds (wb : WriteBuffer) (bs : Bytes) : Prop where
  tail_lt : wb.tail < wb.size
  short : bs.length < wb.size
  head : wb.head = slot wb.size wb.tail (bs.length + 1)
  ring : Ring wb.buffer wb.size (slot wb.size wb.tail 1) bs

@[simp] theorem length_padTo {n : Nat} {bs : Bytes} (h : bs.length ≤ n) :
    (padTo n bs).length = n := by
  simp [padTo, h]

theorem take_padTo {n : Nat} {bs : Bytes} : (padTo n bs).take bs.length = bs := by
  simp [padTo]

/-- `roundUp` yields the next multiple. -/
theorem roundUp_spec {n block : Nat} (pos : 0 < block) :
    block ∣ roundUp n block ∧ n ≤ roundUp n block ∧ roundUp n block < n + block := by
  have lt := Nat.mod_lt n pos
  have split := Nat.div_add_mod n block
  simp only [roundUp]
  split_ifs with exact_
  · exact ⟨Nat.dvd_of_mod_eq_zero exact_, Nat.le_refl n, by omega⟩
  · refine ⟨⟨n / block + 1, ?_⟩, by omega, by omega⟩
    rw [Nat.mul_add, Nat.mul_one]
    omega

/-- A multiple of the block that is not below `n` is not below the rounded `n`. -/
theorem roundUp_le {n block m : Nat} (pos : 0 < block) (dvd : block ∣ m) (le : n ≤ m) :
    roundUp n block ≤ m := by
  obtain ⟨⟨k, hk⟩, _, lt⟩ := @roundUp_spec n block pos
  obtain ⟨l, rfl⟩ := dvd
  rw [hk] at lt ⊢
  refine Nat.mul_le_mul_left block ?_
  by_contra gt
  have : block * (l + 1) ≤ block * k := Nat.mul_le_mul_left block (by omega)
  rw [Nat.mul_add, Nat.mul_one] at this
  omega

theorem roundUp_eq_block {n block : Nat} (pos : 0 < n) (le : n ≤ block) :
    roundUp n block = block := by
  simp only [roundUp]
  rcases Nat.lt_or_eq_of_le le with lt | rfl
  · rw [Nat.mod_eq_of_lt lt, if_neg (by omega)]
    omega
  · simp

theorem ofInt_toInt {n : Nat} (lt : n < 2 ^ 31) : ofInt (toInt n) = n := by
  simp only [toInt, ofInt]
  rw [Nat.mod_eq_of_lt (by omega), if_pos lt]
  omega

theorem toInt_pos {n : Nat} (pos : 0 < n) (lt : n < 2 ^ 31) : ¬ toInt n ≤ 0 := by
  simp only [toInt]
  rw [Nat.mod_eq_of_lt (by omega), if_pos lt]
  omega

theorem callRoundUp_eq {n block : Nat} (pos : 0 < block) (lt : roundUp n block < 2 ^ 31) :
    callRoundUp n block = roundUp n block := by
  have le := (@roundUp_spec n block pos).2.1
  have inner : ofInt (toInt n) = n := ofInt_toInt (by omega)
  rw [callRoundUp, inner, Nat.mod_eq_of_lt (by omega), ofInt_toInt lt]

section
variable {wb : WriteBuffer} {bs : Bytes}

theorem writeBufferOpen_holds {size : Nat} (pos : 0 < size) : (writeBufferOpen size).Holds [] := by
  refine ⟨?_, pos, ?_, Ring.nil⟩
  · simp only [writeBufferOpen]
    omega
  · simp only [writeBufferOpen, slot, List.length_nil, Nat.zero_add]
    rw [if_neg (by omega)]
    omega

theorem writeBufferAdd_full (h : wb.Holds bs) {buf : Bytes}
    (full : wb.size < bs.length + buf.length) : writeBufferAdd wb buf = (1, wb) := by
  have tail_lt := h.tail_lt
  have short := h.short
  have head_at := slot_cases wb.size wb.tail (bs.length + 1)
  rw [← h.head] at head_at
  simp only [writeBufferAdd]
  split_ifs <;> first | rfl | omega

/-- The state after an add whose buffer keeps the queue and holds the new bytes behind it. -/
theorem WriteBuffer.Holds.appended (h : wb.Holds bs) {buf : Bytes} {buffer : Mem} {head' : Nat}
    (head_eq : head' = slot wb.size wb.tail
      (if bs.length + buf.length = wb.size then 1 else bs.length + buf.length + 1))
    (kept : ∀ i < bs.length, buffer (slot wb.size (slot wb.size wb.tail 1) i) =
      wb.buffer (slot wb.size (slot wb.size wb.tail 1) i))
    (new : ∀ j b, buf[j]? = some b →
      buffer (slot wb.size (slot wb.size wb.tail 1) (bs.length + j)) = b) :
    (bs.length + buf.length < wb.size →
        WriteBuffer.Holds { wb with buffer := buffer, head := head' } (bs ++ buf)) ∧
      (bs.length + buf.length = wb.size →
        WriteBuffer.Holds { wb with buffer := buffer, head := head' } []) := by
  have tail_lt := h.tail_lt
  refine ⟨fun lt => ⟨tail_lt, by simpa using lt, ?_, ?_⟩, fun full => ⟨tail_lt, ?_, ?_, Ring.nil⟩⟩
  · rw [head_eq, if_neg (by omega), List.length_append]
  · exact (h.ring.congr kept).append new
  · simp only [List.length_nil]
    omega
  · rw [head_eq, if_pos full]
    rfl

/-- `head` is where the byte behind the queue goes. -/
theorem WriteBuffer.Holds.head_slot (h : wb.Holds bs) :
    wb.head = slot wb.size (slot wb.size wb.tail 1) bs.length := by
  have tail_lt := h.tail_lt
  have short := h.short
  rw [h.head, slot_slot tail_lt (by omega), Nat.add_comm]

/-- An add of one contiguous piece. -/
theorem WriteBuffer.Holds.append_flat (h : wb.Holds bs) {buf : Bytes}
    (fits : bs.length + buf.length ≤ wb.size) (flat : wb.head + buf.length ≤ wb.size) :
    (bs.length + buf.length < wb.size → WriteBuffer.Holds { wb with
        buffer := wb.buffer.write wb.head buf
        head := (wb.head + buf.length) % wb.size } (bs ++ buf)) ∧
      (bs.length + buf.length = wb.size → WriteBuffer.Holds { wb with
        buffer := wb.buffer.write wb.head buf
        head := (wb.head + buf.length) % wb.size } []) := by
  have tail_lt := h.tail_lt
  have short := h.short
  have first_at := slot_cases wb.size wb.tail 1
  have head_at := slot_cases wb.size wb.tail (bs.length + 1)
  rw [← h.head] at head_at
  refine h.appended ?_ (fun i hi => Mem.write_outside _ ?_) fun j b hj =>
    Ring.write_slot h.head_slot flat hj
  · have wrapped : (wb.head + buf.length) % wb.size =
        if wb.head + buf.length = wb.size then 0 else wb.head + buf.length := by
      split_ifs with full
      · rw [full, Nat.mod_self]
      · exact Nat.mod_eq_of_lt (by omega)
    have behind := slot_cases wb.size wb.tail (bs.length + buf.length + 1)
    rw [wrapped]
    by_cases full : bs.length + buf.length = wb.size
    · rw [if_pos full]
      split_ifs <;> omega
    · rw [if_neg full]
      split_ifs <;> omega
  · have at_i := slot_cases wb.size (slot wb.size wb.tail 1) i
    omega

/-- An add of two pieces, the second from the start of the ring on. -/
theorem WriteBuffer.Holds.append_wrap (h : wb.Holds bs) {buf : Bytes}
    (fits : bs.length + buf.length ≤ wb.size) (high : wb.tail < wb.head)
    (wraps : wb.size - wb.head < buf.length) :
    (bs.length + buf.length < wb.size → WriteBuffer.Holds { wb with
        buffer := (wb.buffer.write wb.head (buf.take (wb.size - wb.head))).write 0
          (buf.drop (wb.size - wb.head))
        head := (buf.length - (wb.size - wb.head)) % wb.size } (bs ++ buf)) ∧
      (bs.length + buf.length = wb.size → WriteBuffer.Holds { wb with
        buffer := (wb.buffer.write wb.head (buf.take (wb.size - wb.head))).write 0
          (buf.drop (wb.size - wb.head))
        head := (buf.length - (wb.size - wb.head)) % wb.size } []) := by
  have tail_lt := h.tail_lt
  have short := h.short
  have first_at := slot_cases wb.size wb.tail 1
  have head_at := slot_cases wb.size wb.tail (bs.length + 1)
  rw [← h.head] at head_at
  have at_i := slot_cases wb.size (slot wb.size wb.tail 1)
  refine h.appended ?_ (fun i hi => ?_) fun j b hj => ?_
  · have behind := slot_cases wb.size wb.tail (bs.length + buf.length + 1)
    rw [Nat.mod_eq_of_lt (by omega)]
    split_ifs <;> omega
  · have here := at_i i
    rw [Mem.write_outside, Mem.write_outside]
    · simp only [List.length_take]
      omega
    · simp only [List.length_drop]
      omega
  · have lt : j < buf.length := (List.getElem?_eq_some_iff.mp hj).1
    have at_j : slot wb.size (slot wb.size wb.tail 1) (bs.length + j) =
        slot wb.size wb.head j := by
      rw [h.head_slot, slot_slot (slot_lt tail_lt (by omega)) (by omega)]
    rcases Nat.lt_or_ge j (wb.size - wb.head) with first | second
    · rw [at_j, slot, if_pos (by omega), Mem.write_outside]
      swap
      · simp only [List.length_drop]
        omega
      exact Mem.write_inside _ (by rwa [List.getElem?_take_of_lt first])
    · have wrapped_j : wb.head + j - wb.size = 0 + (j - (wb.size - wb.head)) := by omega
      rw [at_j, slot, if_neg (by omega), wrapped_j]
      apply Mem.write_inside
      rwa [List.getElem?_drop, Nat.add_sub_cancel' second]

/-- An add that fits queues the bytes, unless it fills the ring: then nothing seems queued. -/
theorem writeBufferAdd_fits (h : wb.Holds bs) {buf : Bytes}
    (fits : bs.length + buf.length ≤ wb.size) :
    ∃ wb', writeBufferAdd wb buf = (0, wb') ∧ wb'.size = wb.size ∧ wb'.lastAvail = wb.lastAvail ∧
      (bs.length + buf.length < wb.size → wb'.Holds (bs ++ buf)) ∧
      (bs.length + buf.length = wb.size → wb'.Holds []) := by
  have tail_lt := h.tail_lt
  have short := h.short
  have head_at := slot_cases wb.size wb.tail (bs.length + 1)
  rw [← h.head] at head_at
  simp only [writeBufferAdd]
  by_cases low : wb.head ≤ wb.tail
  · rw [if_pos low, if_pos (by omega)]
    exact ⟨_, rfl, rfl, rfl, h.append_flat fits (by omega)⟩
  · rw [if_neg low, if_pos (by omega)]
    by_cases wraps : wb.size - wb.head < buf.length
    · rw [if_pos wraps]
      exact ⟨_, rfl, rfl, rfl, h.append_wrap fits (by omega) wraps⟩
    · rw [if_neg wraps]
      exact ⟨_, rfl, rfl, rfl, h.append_flat fits (by omega)⟩

/-- What is below `2 ^ 64` and divides it. -/
structure Divides64 (size : Nat) : Prop where
  lt : size < 2 ^ 64
  dvd : size ∣ 2 ^ 64

theorem Divides64.le {size : Nat} (h : Divides64 size) : 2 * size ≤ 2 ^ 64 := by
  obtain ⟨lt, k, hk⟩ := h
  have two : 2 ≤ k := by
    by_contra small
    obtain rfl | rfl : k = 0 ∨ k = 1 := by omega
    · omega
    · omega
  have le := Nat.mul_le_mul_left size two
  omega

/-- Moving `head` back from behind the first `n` bytes and `tail` behind the first `k` crosses the
start of the ring only where the wrap of a `size_t` is a multiple of the size. -/
def WriteBuffer.Steady (wb : WriteBuffer) (n k : Nat) : Prop :=
  wb.size ∣ 2 ^ 64 ∨ wb.tail + n + 1 < wb.size ∨ wb.size < wb.tail + k + 1

instance (wb : WriteBuffer) (n k : Nat) : Decidable (wb.Steady n k) :=
  inferInstanceAs (Decidable (_ ∨ _ ∨ _))

theorem subSize_of_le {a b : Nat} (lt : a < 2 ^ 64) (le : b ≤ a) : subSize a b = a - b := by
  rw [subSize, Nat.add_comm, Nat.add_sub_assoc le, Nat.add_mod_left]
  exact Nat.mod_eq_of_lt (by omega)

theorem subSize_mod_wrap {size a b : Nat} (h : Divides64 size) (lt : a < b) (le : b ≤ a + size) :
    subSize a b % size = a + size - b := by
  obtain ⟨k, hk⟩ := h.dvd
  obtain _ | k := k
  · omega
  · rw [subSize, Nat.mod_mod_of_dvd _ h.dvd]
    have split : a + 2 ^ 64 - b = (a + size - b) + size * k := by
      rw [hk, Nat.mul_add, Nat.mul_one]
      omega
    rw [split, Nat.add_mul_mod_self_left]
    exact Nat.mod_eq_of_lt (by omega)

/-- One pass of a dequeue whose `head` is behind the first `n` queued bytes. -/
theorem dequeueFrom_spec (h : wb.Holds bs) (size_lt : wb.size < 2 ^ 64) {block n fuel start : Nat}
    {dontDequeue : Bool} (steady : dontDequeue = false → wb.Steady n (min n block))
    (at_ : start = slot wb.size wb.tail (n + 1)) (le : n ≤ bs.length)
    (room : n + 1 < wb.size) (block_pos : 0 < block) (block_lt : block < 2 ^ 31)
    (rounded : ¬ (dontDequeue = false ∧ block < n) → ¬ (dontDequeue ∧ n ≤ wb.lastAvail) →
      roundUp n block < 2 ^ 31) :
    dequeueFrom wb (toInt block) dontDequeue (fuel + 1) start =
      if n = 0 then .ok (none, wb)
      else if dontDequeue = false ∧ block < n then
        dequeueFrom wb (toInt block) dontDequeue fuel (slot wb.size wb.tail (block + 1))
      else if dontDequeue ∧ n ≤ wb.lastAvail then .ok (none, wb)
      else .ok (some (padTo (roundUp n block) (bs.take n)), { wb with
        lastAvail := if dontDequeue then n else 0
        tail := if dontDequeue then wb.tail else slot wb.size wb.tail n }) := by
  have tail_lt := h.tail_lt
  have first := mod_eq_slot tail_lt (by omega : 1 ≤ wb.size)
  have first_lt := slot_lt tail_lt (by omega : 1 ≤ wb.size)
  have blk := ofInt_toInt block_lt
  have blk_pos := toInt_pos block_pos block_lt
  have call : ¬ (dontDequeue = false ∧ block < n) → ¬ (dontDequeue ∧ n ≤ wb.lastAvail) →
      callRoundUp n block = roundUp n block :=
    fun stays emits => callRoundUp_eq block_pos (rounded stays emits)
  have covers : ¬ roundUp n block < n := Nat.not_lt.mpr (roundUp_spec block_pos).2.1
  have checked : ¬ (toInt block ≤ 0 ∧ n ≠ roundUp n block) := fun both => blk_pos both.1
  rw [dequeueFrom, at_]
  by_cases flat : wb.tail + (n + 1) < wb.size
  · have head : slot wb.size wb.tail (n + 1) = wb.tail + (n + 1) := if_pos flat
    have flat_lt : wb.tail + (n + 1) < 2 ^ 64 := by omega
    have distance : subSize (wb.tail + (n + 1)) wb.tail = n + 1 := by
      rw [subSize_of_le flat_lt (by omega)]
      omega
    have available : subSize (n + 1) 1 = n := subSize_of_le (by omega) (by omega)
    rw [head, if_pos (by omega)]
    simp only [distance, available, blk]
    by_cases zero : n = 0
    · simp only [if_pos zero]
    by_cases more : dontDequeue = false ∧ block < n
    · have back : subSize (wb.tail + (n + 1)) (n - block) % wb.size =
          slot wb.size wb.tail (block + 1) := by
        rw [subSize_of_le flat_lt (by omega), Nat.mod_eq_of_lt (by omega), slot,
          if_pos (by omega)]
        omega
      simp only [if_neg zero, if_pos more, back]
    by_cases old : dontDequeue ∧ n ≤ wb.lastAvail
    · simp only [if_neg zero, if_neg more, if_pos old]
    have bytes : wb.buffer.read ((wb.tail + 1) % wb.size) n = bs.take n := by
      rw [first]
      apply h.ring.read_flat le
      unfold slot
      split_ifs <;> omega
    have tail' : (wb.tail + n) % wb.size = slot wb.size wb.tail n :=
      mod_eq_slot tail_lt (by omega)
    simp only [if_neg zero, if_neg more, if_neg old, call more old, if_neg covers, if_neg checked,
      bytes, tail']
  · have head : slot wb.size wb.tail (n + 1) = wb.tail + (n + 1) - wb.size := if_neg flat
    have available : (wb.size - wb.tail - 1) + (wb.tail + (n + 1) - wb.size) = n := by omega
    rw [head, if_neg (by omega)]
    simp only [available, blk, if_neg blk_pos]
    by_cases zero : n = 0
    · simp only [if_pos zero]
    by_cases more : dontDequeue = false ∧ block < n
    · have back : subSize (wb.tail + (n + 1) - wb.size) (n - block) % wb.size =
          slot wb.size wb.tail (block + 1) := by
        unfold slot
        split_ifs with before
        · have dvd := (steady more.1).resolve_right (by omega)
          rw [subSize_mod_wrap ⟨size_lt, dvd⟩ (by omega) (by omega)]
          omega
        · rw [subSize_of_le (by omega) (by omega), Nat.mod_eq_of_lt (by omega)]
          omega
      simp only [if_neg zero, if_pos more, back]
    by_cases old : dontDequeue ∧ n ≤ wb.lastAvail
    · simp only [if_neg zero, if_neg more, if_pos old]
    have bytes : wb.buffer.read ((wb.tail + 1) % wb.size) (wb.size - wb.tail - 1) ++
        wb.buffer.read 0 (n - (wb.size - wb.tail - 1)) = bs.take n := by
      rw [first]
      by_cases last : wb.tail + 1 < wb.size
      · have place : slot wb.size wb.tail 1 = wb.tail + 1 := if_pos last
        have short := h.short
        have wrap := h.ring.read_wrap first_lt le (by omega) (by omega)
        rw [place, ← Nat.sub_sub] at wrap
        rwa [place]
      · have place : slot wb.size wb.tail 1 = 0 := by
          unfold slot
          rw [if_neg last]
          omega
        have origin := h.ring.read_flat le (by omega)
        rw [place] at origin ⊢
        have none_left : wb.size - wb.tail - 1 = 0 := by omega
        rw [none_left]
        exact origin
    have tail' : dontDequeue = false →
        subSize (n - (wb.size - wb.tail - 1)) 1 % wb.size = slot wb.size wb.tail n := by
      intro takes
      unfold slot
      split_ifs with before
      · have used : n - (wb.size - wb.tail - 1) = 0 := by omega
        have short : n ≤ block := Nat.le_of_not_lt fun lt => more ⟨takes, lt⟩
        have dvd := (steady takes).resolve_right (by omega)
        rw [used, subSize_mod_wrap ⟨size_lt, dvd⟩ (by omega) (by omega)]
        omega
      · rw [subSize_of_le (by omega) (by omega), Nat.mod_eq_of_lt (by omega)]
        omega
    simp only [if_neg zero, if_neg more, if_neg old, call more old, if_neg checked, bytes]
    cases dontDequeue with
    | true => simp only [reduceIte]
    | false => rw [tail' rfl]

/-- With one free byte `head` is `tail` and the count wraps, but the retry lands as usual. -/
theorem dequeueFrom_brimful (h : wb.Holds bs) (size_le : 2 * wb.size ≤ 2 ^ 64) {block fuel : Nat}
    (block_lt : block < 2 ^ 31) (room : block + 1 < wb.size) (full : bs.length + 1 = wb.size) :
    dequeueFrom wb (toInt block) false (fuel + 1) wb.head =
      dequeueFrom wb (toInt block) false fuel (slot wb.size wb.tail (block + 1)) := by
  have tail_lt := h.tail_lt
  have blk := ofInt_toInt block_lt
  have head : wb.head = wb.tail := by
    rw [h.head, full, slot, if_neg (by omega), Nat.add_sub_cancel]
  have distance : subSize wb.tail wb.tail = 0 := by
    rw [subSize_of_le (by omega) (Nat.le_refl _), Nat.sub_self]
  have available : subSize 0 1 = 2 ^ 64 - 1 := rfl
  have back : subSize wb.tail (2 ^ 64 - 1 - block) % wb.size =
      slot wb.size wb.tail (block + 1) := by
    have small : wb.tail + (block + 1) < 2 ^ 64 := by omega
    have sum : wb.tail + 2 ^ 64 - (2 ^ 64 - 1 - block) = wb.tail + (block + 1) := by omega
    rw [subSize, sum, Nat.mod_eq_of_lt small]
    exact mod_eq_slot tail_lt (by omega)
  rw [dequeueFrom, head, if_pos (Nat.le_refl _)]
  simp only [distance, available, blk, back]
  rw [if_neg (by omega), if_pos ⟨trivial, by omega⟩]

/-- Nothing queued: no buffer, whatever the block and the mode. -/
theorem writeBufferDequeue_empty (h : wb.Holds []) (size_lt : wb.size < 2 ^ 64) (room : 1 < wb.size)
    (block : Nat) (dontDequeue : Bool) : writeBufferDequeue wb block dontDequeue = .ok (none, wb) := by
  have tail_lt := h.tail_lt
  have head_at := slot_cases wb.size wb.tail 1
  rw [show slot wb.size wb.tail 1 = wb.head from h.head.symm] at head_at
  rw [writeBufferDequeue, dequeueFrom]
  by_cases flat : wb.tail ≤ wb.head
  · have distance : subSize wb.head wb.tail = 1 := by
      rw [subSize_of_le (by omega) flat]
      omega
    simp only [if_pos flat, distance]
    rfl
  · have none_left : wb.size - wb.tail - 1 + wb.head = 0 := by omega
    simp only [if_neg flat, none_left, reduceIte]

/-- A drain takes the oldest block off the queue, padded with zeros when the queue is shorter. -/
theorem writeBufferDequeue_steady (h : wb.Holds bs) (size_le : 2 * wb.size ≤ 2 ^ 64) {block : Nat}
    (steady : wb.Steady bs.length (min bs.length block)) (some_ : bs ≠ []) (block_pos : 0 < block)
    (block_lt : block < 2 ^ 31) (room : block + 1 < wb.size) :
    ∃ wb', writeBufferDequeue wb block false = .ok (some (padTo block (bs.take block)), wb') ∧
      wb'.Holds (bs.drop block) ∧ wb'.size = wb.size ∧ wb'.lastAvail = 0 := by
  have tail_lt := h.tail_lt
  have short := h.short
  have pos : 0 < bs.length := List.length_pos_of_ne_nil some_
  -- the queue that is left starts behind the first `n` bytes
  have left : ∀ n, n ≤ bs.length → bs.drop n = bs.drop block →
      WriteBuffer.Holds { wb with lastAvail := 0, tail := slot wb.size wb.tail n }
        (bs.drop block) := by
    intro n le same
    rw [← same]
    refine ⟨slot_lt tail_lt (by omega), by simp only [List.length_drop]; omega, ?_, ?_⟩
    · rw [h.head, List.length_drop, slot_slot tail_lt (by omega)]
      congr 1
      omega
    · have rest := h.ring.drop (slot_lt tail_lt (by omega)) (by omega) n le
      rw [slot_slot tail_lt (by omega)] at rest
      rw [slot_slot tail_lt (by omega)]
      rwa [Nat.add_comm]
  -- one pass that has at most a block in front of it
  have emits : ∀ n fuel, 0 < n → n ≤ bs.length → n ≤ block → wb.Steady n n →
      dequeueFrom wb (toInt block) false (fuel + 1) (slot wb.size wb.tail (n + 1)) =
        .ok (some (padTo block (bs.take n)),
          { wb with lastAvail := 0, tail := slot wb.size wb.tail n }) := by
    intro n fuel n_pos le le_block steady
    have rounded := roundUp_eq_block n_pos le_block
    rw [dequeueFrom_spec h (by omega) (fun _ => by rwa [Nat.min_eq_left le_block]) rfl le (by omega)
        block_pos block_lt fun _ _ => by rwa [rounded],
      if_neg (by omega), if_neg (by omega), if_neg (by simp), rounded]
    rfl
  rw [writeBufferDequeue]
  rcases Nat.lt_or_ge block bs.length with more | last
  · have retry : dequeueFrom wb (toInt block) false (wb.size + 1 + 1) wb.head =
        dequeueFrom wb (toInt block) false (wb.size + 1) (slot wb.size wb.tail (block + 1)) := by
      by_cases full : bs.length + 1 = wb.size
      · exact dequeueFrom_brimful h size_le block_lt room full
      · rw [dequeueFrom_spec h (by omega) (fun _ => steady) h.head (Nat.le_refl _) (by omega) block_pos
          block_lt
          (fun stays => (stays ⟨rfl, more⟩).elim), if_neg (by omega), if_pos ⟨rfl, more⟩]
    rw [Nat.min_eq_right (Nat.le_of_lt more)] at steady
    have steady' : wb.Steady block block := by
      simp only [WriteBuffer.Steady] at steady ⊢
      omega
    rw [retry, emits block _ block_pos (by omega) (Nat.le_refl _) steady']
    exact ⟨_, rfl, left block (by omega) rfl, rfl, rfl⟩
  · rw [Nat.min_eq_left last] at steady
    rw [h.head, emits bs.length _ pos (Nat.le_refl _) last steady, List.take_of_length_le last,
      List.take_length]
    refine ⟨_, rfl, left bs.length (Nat.le_refl _) ?_, rfl, rfl⟩
    rw [List.drop_length, List.drop_of_length_le last]

theorem writeBufferDequeue_drain (h : wb.Holds bs) (size : Divides64 wb.size) {block : Nat}
    (some_ : bs ≠ []) (block_pos : 0 < block) (block_lt : block < 2 ^ 31)
    (room : block + 1 < wb.size) :
    ∃ wb', writeBufferDequeue wb block false = .ok (some (padTo block (bs.take block)), wb') ∧
      wb'.Holds (bs.drop block) ∧ wb'.size = wb.size ∧ wb'.lastAvail = 0 :=
  writeBufferDequeue_steady h size.le (Or.inl size.dvd) some_ block_pos block_lt room

/-- A peek copies the queue, unless nothing was added since the last peek. -/
theorem writeBufferDequeue_peek (h : wb.Holds bs) (size_lt : wb.size < 2 ^ 64) {block : Nat}
    (room : bs.length + 1 < wb.size) (block_pos : 0 < block) (block_lt : block < 2 ^ 31)
    (rounded : wb.lastAvail < bs.length → roundUp bs.length block < 2 ^ 31) :
    writeBufferDequeue wb block true =
      if bs.length ≤ wb.lastAvail then .ok (none, wb)
      else .ok (some (padTo (roundUp bs.length block) bs), { wb with lastAvail := bs.length }) := by
  rw [writeBufferDequeue, dequeueFrom_spec h size_lt (by simp) h.head (Nat.le_refl _) room block_pos
    block_lt (fun _ emits => rounded (by simpa using emits)), List.take_length]
  by_cases old : bs.length ≤ wb.lastAvail
  · simp [old]
  · rw [if_neg (by omega), if_neg (by simp), if_neg (by simp [old]), if_neg old]
    rfl

end

end OsProjects.KeyValue
