import OsProjects.KeyValue.Kvdb
import OsProjects.KeyValue.Logfs

/-!
# The restore visitor (`kvraw.c`)

The visitor reads the records of a device from offset 0 on, without flushing, and puts
each of them into the write buffer again. The log ends where the next two bytes are not
the mark. `rand off` is what `rand()` returns during the read at offset `off`.
-/
namespace OsProjects.KeyValue
open OsProjects.Library

structure Visitor where
  offset : Nat
  nextOffset : Nat
  key : Bytes
  keyLen : Nat
  valLen : Nat
  valid : Bool

/-- The results of `read_meta2`: -1, -2 and 0. -/
inductive MetaResult where
  | corrupt
  | ended
  | found (m : Meta)

section
variable (rand : Nat → Nat → Nat)

def readMeta2 (kvraw : Kvraw Logfs) (off : Nat) : Except Fault (MetaResult × Kvraw Logfs) :=
  if kvraw.size < (off + metaLen) % 2 ^ 64 then .ok (.corrupt, kvraw)
  else
    match logfsReadWithFlush kvraw.logfs (rand off) off metaLen false with
    | .error e => .error e
    | .ok (none, l) => .ok (.corrupt, { kvraw with logfs := l })
    | .ok (some buf, l) =>
      let m := Meta.decode buf
      if m.mark0 ≠ markK ∨ m.mark1 ≠ markV then .ok (.ended, { kvraw with logfs := l })
      else .ok (.found m, { kvraw with logfs := l })

/-- The end of both visitor functions: the record of `m` at `off` goes into the write buffer, and
once 4096 bytes are queued a block is taken out. The results of the reads are not looked at; after
a failed one the next read waits forever. -/
def visitorBuffer (kvraw : Kvraw Logfs) (off : Nat) (m : Meta) :
    Except Fault (Bytes × Kvraw Logfs) :=
  let keyOff := (off + metaLen) % 2 ^ 64
  match logfsReadWithFlush kvraw.logfs (rand keyOff) keyOff m.keyLen false with
  | .error e => .error e
  | .ok (keyRead, l) =>
    let key := keyRead.getD (List.replicate m.keyLen 0)
    let valOff := (off + metaLen + m.keyLen) % 2 ^ 64
    match logfsReadWithFlush l (rand valOff) valOff m.valLen false with
    | .error e => .error e
    | .ok (valRead, l) =>
      let val := valRead.getD (List.replicate m.valLen 0)
      let l := logfsWbAdd l (m.encode ++ (key ++ val))
      if 4096 ≤ logfsWbAvail l then
        match logfsWbDeq l with
        | .error e => .error e
        | .ok l => .ok (key, { kvraw with logfs := logfsSetTailOffset l 4096 })
      else .ok (key, { kvraw with logfs := l })

/-- `kvraw_visitor_next`. The sum of the lengths that is added to the size is an `unsigned`. -/
def visitorNext (kvraw : Kvraw Logfs) (v : Visitor) : Except Fault (Visitor × Kvraw Logfs) :=
  let kvraw := { kvraw with size := (kvraw.size + metaLen) % 2 ^ 64 }
  match readMeta2 rand kvraw v.nextOffset with
  | .error e => .error e
  | .ok (.corrupt, _) => .error .exit
  | .ok (.ended, kvraw) =>
    .ok ({ v with valid := false },
      { kvraw with size := (kvraw.size + 2 ^ 64 - metaLen) % 2 ^ 64 })
  | .ok (.found m, kvraw) =>
    let offset := v.nextOffset
    let kvraw := { kvraw with size := (kvraw.size + (m.keyLen + m.valLen) % 2 ^ 32) % 2 ^ 64 }
    match visitorBuffer rand kvraw offset m with
    | .error e => .error e
    | .ok (key, kvraw) =>
      .ok ({ v with
        offset := offset
        nextOffset := (offset + metaLen + m.keyLen + m.valLen) % 2 ^ 64
        key := key
        keyLen := m.keyLen
        valLen := m.valLen }, kvraw)

/-- `kvraw_visitor_init`. It never stores what `read_meta2` returns in its `rv`, so that a missing
mark ends the process as well. -/
def visitorInit (kvraw : Kvraw Logfs) : Except Fault (Visitor × Kvraw Logfs) :=
  let v : Visitor := ⟨0, 0, [], 0, 0, false⟩
  let kvraw := { kvraw with size := (kvraw.size + metaLen) % 2 ^ 64 }
  match readMeta2 rand kvraw v.offset with
  | .error e => .error e
  | .ok (.corrupt, _) => .error .exit
  | .ok (.ended, _) => .error .exit
  | .ok (.found m, kvraw) =>
    let kvraw := { kvraw with size := (kvraw.size + (m.keyLen + m.valLen) % 2 ^ 32) % 2 ^ 64 }
    match visitorBuffer rand kvraw v.offset m with
    | .error e => .error e
    | .ok (_, kvraw) =>
      visitorNext rand kvraw
        { v with nextOffset := metaLen + m.keyLen + m.valLen, valid := true }

/-- The loop of `kvdb_open_internal` over a visitor: what it yields, and the handle at the end. -/
def visitorLoop : Nat → Kvraw Logfs → Visitor → Except Fault (List Visit × Kvraw Logfs)
  | 0, _, _ => .error .hang
  | fuel + 1, kvraw, v =>
    if v.valid then
      match visitorNext rand kvraw v with
      | .error e => .error e
      | .ok (v', kvraw) =>
        match visitorLoop fuel kvraw v' with
        | .error e => .error e
        | .ok (visits, kvraw) => .ok (⟨v.offset, v.key, v.valLen⟩ :: visits, kvraw)
    else .ok ([], kvraw)

/-- A restore of an opened device. The records lie on the device one behind the other. -/
def visitorRun (device : Device) : Except Fault (List Visit × Kvraw Logfs) :=
  match visitorInit rand ⟨0, logfsOpen device⟩ with
  | .error e => .error e
  | .ok (v, kvraw) => visitorLoop rand (device.size + 2) kvraw v

variable (overload : Nat → Nat → Bool)

/-- The restore loop of `kvdb_open_internal`, with `fuel` passes. -/
def restoreVisits : Nat → Kvdb Logfs → Visitor → Except Fault (Kvdb Logfs)
  | 0, _, _ => .error .hang
  | fuel + 1, db, v =>
    if v.valid then
      match restoreStep overload db ⟨v.offset, v.key, v.valLen⟩ with
      | .error e => .error e
      | .ok db =>
        match visitorNext rand db.kvraw v with
        | .error e => .error e
        | .ok (v, kvraw) => restoreVisits fuel { db with kvraw := kvraw } v
    else .ok db

/-- `kvdb_open_with_restore` on an opened device. -/
def kvdbOpenWithRestore (fuel : Nat) (device : Device) : Except Fault (Kvdb Logfs) :=
  match visitorInit rand ⟨0, logfsOpen device⟩ with
  | .error e => .error e
  | .ok (v, kvraw) => restoreVisits rand overload fuel ⟨0, 0, kvraw, indexOpen⟩ v

end

end OsProjects.KeyValue
