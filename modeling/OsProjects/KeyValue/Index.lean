import OsProjects.KeyValue.System
import OsProjects.Library.Probing
import Mathlib.Data.Set.Card

/-!
# The in-memory index (`index.c`)

A hash table from 64-bit hash keys to log offsets, with open addressing. A slot
whose key is 0 is free, so hash 0 is stored as 1. The probe sum wraps at `2 ^ 64`
before it is reduced modulo the capacity, as in the source.

The source compares the load with `LOAD` in floating point. `overload size capacity`
stands for that comparison, and nothing below depends on how it comes out.
-/
namespace OsProjects.KeyValue
open OsProjects.Library

/-- A `char` read through `(uint64_t)p[i]`: the byte is sign extended. -/
def charToU64 (b : UInt8) : UInt64 :=
  if b.toNat < 128 then b.toUInt64 else b.toUInt64 - 256

def rotl (x : UInt64) (n : UInt64) : UInt64 := (x <<< n) ||| (x >>> (64 - n))

structure HashState where
  a : UInt64
  b : UInt64
  c : UInt64
  d : UInt64

/-- The four additions that absorb one byte. -/
def HashState.absorb (s : HashState) (p : UInt64) : HashState where
  a := s.a + p * 592821132889
  b := s.b + p * 963726515729
  c := s.c + p * 1765037224331
  d := s.d + p * 2428095424619

/-- `d ^= c; c = rotl(c, n); d += c;` and its three rotations over the state. -/
def HashState.mixDC (s : HashState) (n : UInt64) : HashState :=
  let c := rotl s.c n
  { s with c := c, d := (s.d ^^^ s.c) + c }

def HashState.mixAD (s : HashState) (n : UInt64) : HashState :=
  let d := rotl s.d n
  { s with d := d, a := (s.a ^^^ s.d) + d }

def HashState.mixBA (s : HashState) (n : UInt64) : HashState :=
  let a := rotl s.a n
  { s with a := a, b := (s.b ^^^ s.a) + a }

def HashState.mixCB (s : HashState) (n : UInt64) : HashState :=
  let b := rotl s.b n
  { s with b := b, c := (s.c ^^^ s.b) + b }

/-- The body of the loop over the bytes of the key. -/
def HashState.round (s : HashState) (p : UInt8) : HashState :=
  ((((((((((s.absorb (charToU64 p)).mixDC 15).mixAD 52).mixBA 26).mixCB 51).mixDC 28).mixAD 9).mixBA
    47).mixCB 54).mixDC 32).mixAD 25 |>.mixBA 63

def hash (buf : Bytes) : UInt64 :=
  let k := UInt64.ofNat buf.length * 414507281407
  let s := buf.foldl HashState.round ⟨k, k, k, k⟩
  s.a + s.b + s.c + s.d

/-- The key under which the index files a byte string: its hash, with 0 moved to 1. -/
def indexKey (key : Bytes) : Nat :=
  let k := (hash key).toNat
  if k = 0 then k + 1 else k

theorem indexKey_ne_zero (key : Bytes) : indexKey key ≠ 0 := by
  simp only [indexKey]
  split <;> omega

/-- One entry of `maps`. -/
@[ext] structure Map where
  key : Nat
  off : Nat
  deriving DecidableEq, Repr

structure Index where
  size : Nat
  capacity : Nat
  maps : Nat → Map

/-- The table `malloc` and `memset` leave: every slot free. -/
def create (capacity : Nat) : Index := ⟨0, capacity, fun _ => ⟨0, 0⟩⟩

def indexOpen : Index := create 0

/-- The slot of the `i`-th probe. -/
def probe (capacity key i : Nat) : Nat := (key + i) % 2 ^ 64 % capacity

/-- The probe loop of `update`, with `n` probes left of which the next is the `i`-th. -/
def updateLoop (index : Index) (key : Nat) : Nat → Nat → Except Fault (Nat × Index)
  | 0, _ => .error .exitSoftware
  | n + 1, i =>
    let j := probe index.capacity key i
    if (index.maps j).key = 0 then
      .ok (j, { index with
        maps := Function.update index.maps j ⟨key, 0⟩
        size := index.size + 1 })
    else if (index.maps j).key = key then
      .ok (j, { index with maps := Function.update index.maps j { index.maps j with key := key } })
    else updateLoop index key n (i + 1)

/-- Find or insert `key`; the result is the slot whose `off` the source returns a reference to. -/
def update (index : Index) (key : Nat) : Except Fault (Nat × Index) :=
  updateLoop index key index.capacity 0

/-- A store through the reference that `update` returned. -/
def Index.store (index : Index) (j off : Nat) : Index :=
  { index with maps := Function.update index.maps j { index.maps j with off := off } }

/-- The loop of `grow` over the first `n` slots of the old table. -/
def rehash (old : Index) : Nat → Index → Except Fault Index
  | 0, new => .ok new
  | n + 1, new => do
    let new ← rehash old n new
    if (old.maps n).key = 0 then
      pure new
    else
      let (j, new) ← update new (old.maps n).key
      pure (new.store j (old.maps n).off)

section
variable (overload : Nat → Nat → Bool)

def grow (index : Index) : Except Fault Index :=
  if index.capacity = 0 ∨ overload index.size index.capacity then
    rehash index index.capacity (create ((index.capacity + 97) * 3 / 2))
  else .ok index

def indexUpdate (index : Index) (key : Bytes) : Except Fault (Nat × Index) :=
  if key = [] then .error .assertion
  else do
    let index ← grow overload index
    update index (indexKey key)

end

/-- The probe loop of `index_lookup`. -/
def lookupLoop (index : Index) (key : Nat) : Nat → Nat → Option Nat
  | 0, _ => none
  | n + 1, i =>
    let j := probe index.capacity key i
    if (index.maps j).key = 0 then none
    else if (index.maps j).key = key then some j
    else lookupLoop index key n (i + 1)

def indexLookup (index : Index) (key : Bytes) : Except Fault (Option Nat) :=
  if key = [] then .error .assertion
  else .ok (lookupLoop index (indexKey key) index.capacity 0)

end OsProjects.KeyValue
