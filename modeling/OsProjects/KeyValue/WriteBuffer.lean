import OsProjects.KeyValue.System
import OsProjects.Library.Ring

/-!
# The write buffer of logfs (`logfs.c`)

A ring of `size` bytes. `head` is the next free slot and `tail` the last one taken out,
so that a full ring looks like an empty one. All sums are `size_t`. `device_blk_sz` is
an `int`, and `roundUp` is called through a prototype that takes and returns an `int`.
-/
namespace OsProjects.KeyValue
open OsProjects.Library

structure WriteBuffer where
  buffer : Mem
  head : Nat
  tail : Nat
  size : Nat
  lastAvail : Nat

/-- Subtraction of `size_t`. -/
def subSize (a b : Nat) : Nat := (a + 2 ^ 64 - b) % 2 ^ 64

/-- Conversion to `int`. -/
def toInt (n : Nat) : Int :=
  if n % 2 ^ 32 < 2 ^ 31 then (n % 2 ^ 32 : Nat) else (n % 2 ^ 32 : Nat) - 2 ^ 32

/-- Conversion of an `int` to `size_t`. -/
def ofInt (i : Int) : Nat := (i % 2 ^ 64).toNat

/-- `roundUp` of `utils.c`. -/
def roundUp (available blockSize : Nat) : Nat :=
  let remainder := available % blockSize
  let paddingSize := if remainder = 0 then 0 else blockSize - remainder
  available + paddingSize

/-- A call of `roundUp` through the prototype of `utils.h`. -/
def callRoundUp (available blockSize : Nat) : Nat :=
  ofInt (toInt (roundUp (ofInt (toInt available)) blockSize % 2 ^ 64))

/-- A buffer of `n` zero bytes into which `bs` is copied. -/
def padTo (n : Nat) (bs : Bytes) : Bytes := bs ++ List.replicate (n - bs.length) 0

def writeBufferOpen (size : Nat) : WriteBuffer := ⟨fun _ => 0, 0, size - 1, size, 0⟩

/-- The return value is 1 when the bytes do not fit. -/
def writeBufferAdd (wb : WriteBuffer) (buf : Bytes) : Nat × WriteBuffer :=
  let len := buf.length
  if wb.head ≤ wb.tail then
    let available := wb.tail - wb.head + 1
    if len ≤ available then
      (0, { wb with
        buffer := wb.buffer.write wb.head buf
        head := (wb.head + len) % wb.size })
    else (1, wb)
  else
    let available := (wb.size - wb.head) + wb.tail + 1
    if len ≤ available then
      let spaceLeft := wb.size - wb.head
      if spaceLeft < len then
        (0, { wb with
          buffer := (wb.buffer.write wb.head (buf.take spaceLeft)).write 0 (buf.drop spaceLeft)
          head := (len - spaceLeft) % wb.size })
      else
        (0, { wb with
          buffer := wb.buffer.write wb.head buf
          head := (wb.head + len) % wb.size })
    else (1, wb)

/-- `write_buffer_dequeue` from its label `retry`, with the local `head`. -/
def dequeueFrom (wb : WriteBuffer) (blk : Int) (dontDequeue : Bool) :
    Nat → Nat → Except Fault (Option Bytes × WriteBuffer)
  | 0, _ => .error .hang
  | fuel + 1, head =>
    if wb.tail ≤ head then
      let available := subSize (subSize head wb.tail) 1
      if available = 0 then .ok (none, wb)
      else if dontDequeue = false ∧ ofInt blk < available then
        dequeueFrom wb blk dontDequeue fuel (subSize head (available - ofInt blk) % wb.size)
      else if dontDequeue ∧ available ≤ wb.lastAvail then .ok (none, wb)
      else
        let roundUpSize := callRoundUp available (ofInt blk)
        if roundUpSize < available then .error .exit
        else if blk ≤ 0 ∧ available ≠ roundUpSize then .error .exit
        else
          .ok (some (padTo roundUpSize (wb.buffer.read ((wb.tail + 1) % wb.size) available)),
            { wb with
              lastAvail := if dontDequeue then available else 0
              tail := if dontDequeue then wb.tail else (wb.tail + available) % wb.size })
    else
      let available := (wb.size - wb.tail - 1) + head
      if available = 0 then .ok (none, wb)
      else if dontDequeue = false ∧ ofInt blk < available then
        dequeueFrom wb blk dontDequeue fuel (subSize head (available - ofInt blk) % wb.size)
      else if dontDequeue ∧ available ≤ wb.lastAvail then .ok (none, wb)
      else
        let roundUpSize := callRoundUp available (if blk ≤ 0 then available else ofInt blk)
        if blk ≤ 0 ∧ available ≠ roundUpSize then .error .exit
        else
          let spaceLeft := wb.size - wb.tail - 1
          let remaining := available - spaceLeft
          .ok (some (padTo roundUpSize (wb.buffer.read ((wb.tail + 1) % wb.size) spaceLeft ++
              wb.buffer.read 0 remaining)),
            { wb with
              lastAvail := if dontDequeue then available else 0
              tail := if dontDequeue then wb.tail else subSize remaining 1 % wb.size })

/-- `write_buffer_dequeue`: the bytes to write to the device, or NULL. After one retry at most
a block is left. -/
def writeBufferDequeue (wb : WriteBuffer) (block : Nat) (dontDequeue : Bool) :
    Except Fault (Option Bytes × WriteBuffer) :=
  dequeueFrom wb (toInt block) dontDequeue (wb.size + 2) wb.head

end OsProjects.KeyValue
