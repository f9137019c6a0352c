import OsProjects.KeyValue.WriteBufferRing
import OsProjects.Library.Refinement

/-!
# The write buffer as a bounded queue

What the write buffer is for: a queue of 32 blocks of bytes. An add takes all of its
bytes or none, a drain gives the oldest block, and a peek gives all the bytes unless
there are no more of them than at the last peek. The ring answers like this queue until
an add fills it to the last byte, or a peek finds one free byte or a length that does
not fit in an `int`.
-/
namespace OsProjects.KeyValue
open OsProjects.Library

inductive RingCall where
  | add (buf : Bytes)
  | dequeue (dontDequeue : Bool)

inductive RingReply where
  | added (code : Nat)
  | buffer (bytes : Option Bytes)
  deriving DecidableEq

def WriteBuffer.answer (block : Nat) (wb : WriteBuffer) :
    RingCall → Except Fault (RingReply × WriteBuffer)
  | .add buf => .ok (.added (writeBufferAdd wb buf).1, (writeBufferAdd wb buf).2)
  | .dequeue dontDequeue =>
    match writeBufferDequeue wb block dontDequeue with
    | .error e => .error e
    | .ok (bytes, wb) => .ok (.buffer bytes, wb)

/-- The queue, and how many bytes the last peek gave if no drain came after it. -/
structure ByteQueue (capacity : Nat) where
  fifo : Fifo UInt8 capacity
  peeked : Nat

def ByteQueue.open_ (capacity : Nat) : ByteQueue capacity := ⟨Fifo.empty, 0⟩

def ByteQueue.answer {capacity : Nat} (block : Nat) (q : ByteQueue capacity) :
    RingCall → RingReply × ByteQueue capacity
  | .add buf =>
    match q.fifo.enqueue buf with
    | some fifo => (.added 0, { q with fifo := fifo })
    | none => (.added 1, q)
  | .dequeue false =>
    if q.fifo.items = [] then (.buffer none, q)
    else (.buffer (some (padTo block (q.fifo.items.take block))), ⟨q.fifo.discard block, 0⟩)
  | .dequeue true =>
    if q.fifo.items.length ≤ q.peeked then (.buffer none, q)
    else
      (.buffer (some (padTo (roundUp q.fifo.items.length block) q.fifo.items)),
        { q with peeked := q.fifo.items.length })

/-- The request does not meet a ring that is as good as full. -/
def ByteQueue.Regular {capacity : Nat} (block : Nat) (q : ByteQueue capacity) : RingCall → Prop
  | .add buf => q.fifo.items.length + buf.length ≠ capacity
  | .dequeue false => True
  | .dequeue true => q.peeked < q.fifo.items.length →
    q.fifo.items.length + 1 ≠ capacity ∧ roundUp q.fifo.items.length block < 2 ^ 31

instance {capacity : Nat} (block : Nat) (q : ByteQueue capacity) :
    ∀ c, Decidable (q.Regular block c)
  | .add _ => inferInstanceAs (Decidable (_ ≠ _))
  | .dequeue false => isTrue trivial
  | .dequeue true => inferInstanceAs (Decidable (_ < _ → _ ∧ _ < _))

/-- The ring holds what is queued, and knows the last peek. -/
structure WriteBuffer.Queues {capacity : Nat} (wb : WriteBuffer) (q : ByteQueue capacity) :
    Prop where
  holds : wb.Holds q.fifo.items
  size : wb.size = capacity
  peeked : wb.lastAvail = q.peeked
  below : q.peeked + 1 < capacity

theorem writeBuffer_answer {block : Nat} (wb : WriteBuffer) (q : ByteQueue (32 * block))
    (c : RingCall) (block_pos : 0 < block) (block_lt : block < 2 ^ 31)
    (size : Divides64 (32 * block)) (h : wb.Queues q) (regular : q.Regular block c) :
    ∃ wb', wb.answer block c = .ok ((q.answer block c).1, wb') ∧
      wb'.Queues (q.answer block c).2 := by
  obtain ⟨holds, wb_size, peeked, below⟩ := h
  have divides : Divides64 wb.size := wb_size ▸ size
  have short := holds.short
  cases c with
  | add buf =>
    have not_full : q.fifo.items.length + buf.length ≠ 32 * block := regular
    simp only [WriteBuffer.answer, ByteQueue.answer, Fifo.enqueue, List.length_append]
    by_cases fits : q.fifo.items.length + buf.length ≤ 32 * block
    · obtain ⟨wb', add, size', last, queued, _⟩ :=
        writeBufferAdd_fits holds (by omega : _ + buf.length ≤ wb.size)
      rw [dif_pos fits, add]
      exact ⟨wb', rfl, queued (by omega), size'.trans wb_size, last.trans peeked, below⟩
    · rw [dif_neg fits, writeBufferAdd_full holds (by omega)]
      exact ⟨wb, rfl, holds, wb_size, peeked, below⟩
  | dequeue dontDequeue =>
    cases dontDequeue with
    | false =>
      simp only [WriteBuffer.answer, ByteQueue.answer]
      by_cases none_ : q.fifo.items = []
      · have empty : wb.Holds [] := none_ ▸ holds
        rw [if_pos none_, writeBufferDequeue_empty empty divides.lt (by omega)]
        exact ⟨wb, rfl, holds, wb_size, peeked, below⟩
      · obtain ⟨wb', drain, left, size', last⟩ :=
          writeBufferDequeue_drain holds divides none_ block_pos block_lt (by omega)
        rw [if_neg none_, drain]
        refine ⟨wb', rfl, left, size'.trans wb_size, last, ?_⟩
        change 0 + 1 < 32 * block
        omega
    | true =>
      have clear : q.peeked < q.fifo.items.length →
        q.fifo.items.length + 1 ≠ 32 * block ∧ roundUp q.fifo.items.length block < 2 ^ 31 := regular
      have room : q.fifo.items.length + 1 < wb.size := by
        by_contra full
        have := clear (by omega)
        omega
      have peek := writeBufferDequeue_peek holds divides.lt room block_pos block_lt
        fun new => (clear (by omega)).2
      simp only [WriteBuffer.answer, ByteQueue.answer]
      rw [peek, peeked]
      by_cases old : q.fifo.items.length ≤ q.peeked
      · simp only [if_pos old]
        exact ⟨wb, rfl, holds, wb_size, peeked, below⟩
      · simp only [if_neg old]
        refine ⟨_, rfl, ⟨holds.tail_lt, holds.short, holds.head, holds.ring⟩, wb_size, rfl, ?_⟩
        change q.fifo.items.length + 1 < 32 * block
        omega

/-- From opening on, with a block size that an `int` can hold, the ring gives the replies of the
bounded queue as long as no request meets a ring that is as good as full. -/
theorem write_buffer_fifo (k : Nat) (int : k < 31) (calls : List RingCall)
    (regular : Along (ByteQueue.answer (2 ^ k)) (ByteQueue.Regular (2 ^ k))
      (ByteQueue.open_ (32 * 2 ^ k)) calls) :
    ∃ wb, replies (WriteBuffer.answer (2 ^ k)) (writeBufferOpen (32 * 2 ^ k)) calls =
        .ok ((specified (ByteQueue.answer (2 ^ k)) (ByteQueue.open_ (32 * 2 ^ k)) calls).1, wb) ∧
      wb.Holds
        (specified (ByteQueue.answer (2 ^ k)) (ByteQueue.open_ (32 * 2 ^ k)) calls).2.fifo.items := by
  have block_pos : 0 < 2 ^ k := Nat.two_pow_pos k
  have block_lt : 2 ^ k < 2 ^ 31 := Nat.pow_lt_pow_right (by decide) int
  have size : Divides64 (32 * 2 ^ k) := by
    refine ⟨by omega, ?_⟩
    rw [show 32 = 2 ^ 5 from rfl, ← Nat.pow_add]
    apply Nat.pow_dvd_pow
    omega
  have start : (writeBufferOpen (32 * 2 ^ k)).Queues (ByteQueue.open_ (32 * 2 ^ k)) := by
    refine ⟨writeBufferOpen_holds (by omega), rfl, rfl, ?_⟩
    change 0 + 1 < 32 * 2 ^ k
    omega
  obtain ⟨wb, answers, queues⟩ := replies_refine
    (fun wb q c h regular => writeBuffer_answer wb q c block_pos block_lt size h regular)
    calls _ _ start regular
  exact ⟨wb, answers, queues.holds⟩

theorem write_buffer_fifo_three :
    ∃ wb, replies (WriteBuffer.answer (2 ^ 1)) (writeBufferOpen (32 * 2 ^ 1))
        [.add [1, 2, 3], .dequeue true, .dequeue false, .dequeue false, .dequeue false] =
        .ok ([.added 0, .buffer (some [1, 2, 3, 0]), .buffer (some [1, 2]),
          .buffer (some [3, 0]), .buffer none], wb) ∧ wb.Holds [] :=
  write_buffer_fifo 1 (by decide) _ (by decide +kernel)

/-- An add of 32 blocks of 512 bytes to the empty ring is accepted, and the ring is empty. -/
theorem write_buffer_fills :
    ∃ wb, replies (WriteBuffer.answer 512) (writeBufferOpen (32 * 512))
        [.add (List.replicate 16384 7), .dequeue false] = .ok ([.added 0, .buffer none], wb) ∧
      (specified (ByteQueue.answer 512) (ByteQueue.open_ (32 * 512))
        [.add (List.replicate 16384 7), .dequeue false]).1 ≠ [.added 0, .buffer none] := by
  have length : (List.replicate 16384 (7 : UInt8)).length = 16384 := List.length_replicate
  generalize List.replicate 16384 (7 : UInt8) = full at length ⊢
  obtain ⟨wb, add, size, _, _, fills⟩ :=
    writeBufferAdd_fits (writeBufferOpen_holds (by decide : 0 < 32 * 512))
      (by rw [length]; decide : _ + full.length ≤ _)
  have wb_size : wb.size = 16384 := size
  have empty : wb.Holds [] := fills (by rw [length]; rfl)
  have drain := writeBufferDequeue_empty empty (by omega) (by omega) 512 false
  refine ⟨wb, by simp only [replies, WriteBuffer.answer, add, drain], ?_⟩
  have some_ : full ≠ [] := List.ne_nil_of_length_pos (by omega)
  simp [specified, ByteQueue.answer, ByteQueue.open_, Fifo.enqueue, Fifo.empty, length, some_]

end OsProjects.KeyValue
