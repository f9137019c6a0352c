import OsProjects.Library.Memory

/-!
# The persistent region (`scm.c`)

A file is mapped at a fixed address. Its first word is the number of utilized bytes;
behind it stand the blocks, each with a header of a two-byte flag and an eight-byte
size. Addresses are those of the mapping, and sizes are `size_t` values.
-/
namespace OsProjects.Persistent
open OsProjects.Library

inductive Fault where
  | segv
  | hang
  | assertion
  deriving DecidableEq, Repr

/-- `VIRT_ADDR` -/
def virtAddr : Nat := 0x600000000000

/-- `sizeof (short) + sizeof (size_t)` -/
def headerLen : Nat := 10

/-- An open region; `mapped` holds because `mmap` has placed the whole file. -/
@[ext] structure Scm where
  mem : Mem
  utilized : Nat
  capacity : Nat
  mapped : virtAddr + capacity < 2 ^ 64

/-- `scm->addr`, behind the utilized word. -/
def Scm.addr (_ : Scm) : Nat := virtAddr + 8

/-- `scm_open` on a file of `capacity` bytes. Truncation to the same size changes no byte. -/
def scmOpen (file : Mem) (capacity : Nat) (mapped : virtAddr + capacity < 2 ^ 64)
    (truncate : Bool) : Scm :=
  let mem : Mem := fun a => if virtAddr ≤ a then file (a - virtAddr) else 0
  { mem, capacity, mapped, utilized := if truncate then 0 else mem.load 8 virtAddr }

/-- `scm_close` leaves the bytes of the mapping in the file. -/
def scmClose (scm : Scm) : Bytes := scm.mem.read virtAddr scm.capacity

/-- The loop over the headers that looks for a free block of at least `n` bytes. -/
def scan (scm : Scm) (n : Nat) : Nat → Nat → Except Fault (Option Nat × Scm)
  | 0, _ => .error .hang
  | fuel + 1, p =>
    if p < scm.addr + scm.capacity - 2 - 8 - 8 then
      if p < virtAddr then .error .segv
      else
        let mallocd := scm.mem.load 8 (p + 2)
        if scm.mem.load 2 p = 0 ∧ n ≤ mallocd then
          .ok (some (p + headerLen), { scm with mem := scm.mem.store 2 p 1 })
        else scan scm n fuel ((p + headerLen + mallocd) % 2 ^ 64)
    else .ok (none, scm)

/-- The sum and the size are computed in `size_t`. A scan that visits more than `capacity`
addresses visits one twice and does not end. -/
def scmMalloc (scm : Scm) (n : Nat) : Except Fault (Option Nat × Scm) :=
  let p := (scm.addr + scm.utilized) % 2 ^ 64
  let size := (headerLen + n) % 2 ^ 64
  let sum := (scm.utilized + size) % 2 ^ 64
  if scm.capacity < sum then scan scm n (scm.capacity + 1) scm.addr
  else
    .ok (some (p + headerLen), { scm with
      mem := ((scm.mem.store 2 p 1).store 8 (p + 2) n).store 8 (scm.addr - 8) sum
      utilized := sum })

/-- A pointer out of range is only reported; the flag is cleared all the same. -/
def scmFree (scm : Scm) (p : Nat) : Scm :=
  { scm with mem := scm.mem.store 2 (p - headerLen) 0 }

def scmStrdup (scm : Scm) (s : Bytes) : Except Fault (Option Nat × Scm) :=
  match scmMalloc scm (s.length + 1) with
  | .error e => .error e
  | .ok (none, scm) => .ok (none, scm)
  | .ok (some p, scm) => .ok (some p, { scm with mem := scm.mem.write p (s ++ [0]) })

def scmUtilized (scm : Scm) : Nat := scm.utilized

def scmCapacity (scm : Scm) : Nat := scm.capacity

def scmMbase (scm : Scm) : Nat := scm.addr + headerLen

end OsProjects.Persistent
