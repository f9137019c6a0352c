import OsProjects.KeyValue.Index
import OsProjects.KeyValue.Kvraw

/-!
# The store (`kvdb.c`)

The index maps the hash of a key to the newest record of that hash, and the records
of one hash are chained backwards through the log. Every mutation appends a record;
a removal appends one with an empty value.

Pointers are modelled by `Option`: `none` is NULL. A call returns its result code
together with the value buffer and `*val_len` as it leaves them.
-/
namespace OsProjects.KeyValue
open OsProjects.Library

structure Kvdb (σ : Type) where
  size : UInt64
  waste : UInt64
  kvraw : Kvraw σ
  index : Index

/-- The `MUTATE_` modes. -/
inductive Mode where
  | remove
  | insert
  | update
  | replace
  deriving DecidableEq, Repr

/-- The out parameters of a finished `chain_lookup`. -/
structure Chain where
  val : Option Bytes
  valLen : Nat
  off : Nat

structure Reply where
  rv : Int
  val : Option Bytes
  valLen : Option Nat
  deriving DecidableEq, Repr

/-- One record as the restore visitor hands it over. -/
structure Visit where
  offset : Nat
  key : Bytes
  valLen : Nat
  deriving DecidableEq, Repr

section
variable {σ : Type} (fs : LogfsOps σ) (overload : Nat → Nat → Bool)

/-- The walk of `chain_lookup` from the record at `off`; `fuel` bounds the iterations
of its loop. The first lookup reads at most 256 bytes of the key and compares at most
as many of them as a pointer has; a longer key is read again in full. -/
def chainLookup : Nat → Kvraw σ → Bytes → Option Bytes → Nat → Nat →
    Except Fault (Option Chain × Kvraw σ)
  | 0, _, _, _, _, _ => .error .hang
  | fuel + 1, kvraw, key, val, valLen, off =>
    if off = 0 then .ok (some ⟨val, valLen, 0⟩, kvraw)
    else
      match kvrawLookup fs kvraw (min key.length 256) val valLen off with
      | .error e => .error e
      | .ok (none, kvraw) => .ok (none, kvraw)
      | .ok (some f, kvraw) =>
        if f.keyLen ≠ key.length ∨
            f.key.take (min key.length 8) ≠ key.take (min key.length 8) then
          chainLookup fuel kvraw key f.val valLen f.off
        else if 8 < f.keyLen then
          match kvrawLookup fs kvraw f.keyLen f.val 0 off with
          | .error e => .error e
          | .ok (none, kvraw) => .ok (none, kvraw)
          | .ok (some g, kvraw) =>
            if g.key.take key.length = key then .ok (some ⟨g.val, g.valLen, off⟩, kvraw)
            else chainLookup fuel kvraw key g.val valLen g.off
        else if f.key.take key.length = key then .ok (some ⟨f.val, f.valLen, off⟩, kvraw)
        else chainLookup fuel kvraw key f.val valLen f.off

/-- `kvraw_append(kvdb->kvraw, key, key_len, data, data_len, ref)`: the previous offset is
read from the slot `ref`, and on success the slot receives the offset of the new record. -/
def Kvdb.appendAt (db : Kvdb σ) (key data : Bytes) (ref : Nat) :
    Except Fault (Bool × Kvdb σ) :=
  match kvrawAppend fs db.kvraw key data (db.index.maps ref).off with
  | .error e => .error e
  | .ok (none, kvraw) => .ok (false, { db with kvraw := kvraw })
  | .ok (some off, kvraw) =>
    .ok (true, { db with kvraw := kvraw, index := db.index.store ref off })

/-- The part of `mutate` after the chain lookup. -/
def mutateFound (db : Kvdb σ) (key : Bytes) (val : Option Bytes) (valLen : Option Nat)
    (mode : Mode) (ref : Nat) (c : Chain) : Except Fault (Reply × Kvdb σ) :=
  match mode with
  | .remove =>
    if c.off = 0 ∨ c.valLen = 0 then .ok (⟨1, val, valLen⟩, db)
    else
      match db.appendAt fs key [] ref with
      | .error e => .error e
      | .ok (false, db) => .ok (⟨-1, val, valLen⟩, db)
      | .ok (true, db) =>
        .ok (⟨0, val, valLen.map fun _ => c.valLen⟩,
          { db with size := db.size - 1, waste := db.waste + 1 })
  | .insert =>
    match valLen with
    | none => .error .nullPointer
    | some len =>
      if c.off ≠ 0 ∧ c.valLen ≠ 0 then .ok (⟨1, val, valLen⟩, db)
      else
        match db.appendAt fs key ((val.getD []).take len) ref with
        | .error e => .error e
        | .ok (false, db) => .ok (⟨-1, val, valLen⟩, db)
        | .ok (true, db) => .ok (⟨0, val, valLen⟩, { db with size := db.size + 1 })
  | .update =>
    match valLen with
    | none => .error .nullPointer
    | some len =>
      let db :=
        if c.off = 0 ∨ c.valLen = 0 then { db with size := db.size + 1 }
        else { db with waste := db.waste + 1 }
      match db.appendAt fs key ((val.getD []).take len) ref with
      | .error e => .error e
      | .ok (false, db) => .ok (⟨-1, val, valLen⟩, db)
      | .ok (true, db) => .ok (⟨0, val, valLen⟩, db)
  | .replace =>
    match valLen with
    | none => .error .nullPointer
    | some len =>
      if c.off = 0 ∨ c.valLen = 0 then .ok (⟨1, val, valLen⟩, db)
      else
        match db.appendAt fs key ((val.getD []).take len) ref with
        | .error e => .error e
        | .ok (false, db) => .ok (⟨-1, val, valLen⟩, db)
        | .ok (true, db) => .ok (⟨0, val, valLen⟩, { db with waste := db.waste + 1 })

def mutate (db : Kvdb σ) (key : Bytes) (val : Option Bytes) (valLen : Option Nat) (mode : Mode) :
    Except Fault (Reply × Kvdb σ) :=
  match indexUpdate overload db.index key with
  | .error e => .error e
  | .ok (ref, index) =>
    let reads : Bool := mode == .remove && valLen.isSome
    let val_ := if reads then val else none
    let valLen_ := if reads then valLen.getD 0 else 0
    match chainLookup fs (db.kvraw.size + 1) db.kvraw key val_ valLen_ (index.maps ref).off with
    | .error e => .error e
    | .ok (none, kvraw) => .ok (⟨-1, val, valLen⟩, { db with kvraw := kvraw, index := index })
    | .ok (some c, kvraw) =>
      mutateFound fs { db with kvraw := kvraw, index := index } key (if reads then c.val else val)
        valLen mode ref c

/-- `assert( key_len && (KVDB_MAX_KEY_LEN >= key_len) )` -/
def keyLenOk (key : Bytes) : Prop := key.length ≠ 0 ∧ key.length ≤ 0xffff

instance (key : Bytes) : Decidable (keyLenOk key) := inferInstanceAs (Decidable (_ ∧ _))

/-- `assert( val_len && (KVDB_MAX_VAL_LEN >= val_len) )` -/
def valLenOk (val : Bytes) : Prop := val.length ≠ 0 ∧ val.length ≤ 0xffffffff

instance (val : Bytes) : Decidable (valLenOk val) := inferInstanceAs (Decidable (_ ∧ _))

def kvdbRemove (db : Kvdb σ) (key : Bytes) (val : Option Bytes) (valLen : Option Nat) :
    Except Fault (Reply × Kvdb σ) :=
  if ¬ keyLenOk key then .error .assertion
  else if valLen = some 0 ∧ val = none then .error .assertion
  else mutate fs overload db key val valLen .remove

def kvdbInsert (db : Kvdb σ) (key val : Bytes) : Except Fault (Reply × Kvdb σ) :=
  if ¬ keyLenOk key then .error .assertion
  else if ¬ valLenOk val then .error .assertion
  else mutate fs overload db key (some val) (some val.length) .insert

def kvdbUpdate (db : Kvdb σ) (key val : Bytes) : Except Fault (Reply × Kvdb σ) :=
  if ¬ keyLenOk key then .error .assertion
  else if ¬ valLenOk val then .error .assertion
  else mutate fs overload db key (some val) (some val.length) .update

def kvdbReplace (db : Kvdb σ) (key val : Bytes) : Except Fault (Reply × Kvdb σ) :=
  if ¬ keyLenOk key then .error .assertion
  else if ¬ valLenOk val then .error .assertion
  else mutate fs overload db key (some val) (some val.length) .replace

def kvdbLookup (db : Kvdb σ) (key : Bytes) (val : Option Bytes) (valLen : Option Nat) :
    Except Fault (Reply × Kvdb σ) :=
  if ¬ keyLenOk key then .error .assertion
  else if valLen.getD 0 ≠ 0 ∧ val = none then .error .assertion
  else
    match indexLookup db.index key with
    | .error e => .error e
    | .ok none => .ok (⟨1, val, valLen⟩, db)
    | .ok (some ref) =>
      if (db.index.maps ref).off = 0 then .ok (⟨1, val, valLen⟩, db)
      else
        let val_ := if valLen.isSome then val else none
        match chainLookup fs (db.kvraw.size + 1) db.kvraw key val_ (valLen.getD 0)
            (db.index.maps ref).off with
        | .error e => .error e
        | .ok (none, kvraw) => .ok (⟨-1, val, valLen⟩, { db with kvraw := kvraw })
        | .ok (some c, kvraw) =>
          let val := if valLen.isSome then c.val else val
          if c.off = 0 ∨ c.valLen = 0 then .ok (⟨1, val, valLen⟩, { db with kvraw := kvraw })
          else
            -- the closing debugf reads `*val_len` also when it is NULL
            match valLen with
            | none => .error .nullPointer
            | some _ => .ok (⟨0, val, some c.valLen⟩, { db with kvraw := kvraw })

def kvdbSize (db : Kvdb σ) : UInt64 := db.size

def kvdbWaste (db : Kvdb σ) : UInt64 := db.waste

/-- `kvdb_open` on a freshly opened logfs. -/
def kvdbOpen (logfs : σ) : Except Fault (Option (Kvdb σ)) :=
  match kvrawOpen fs logfs with
  | .error e => .error e
  | .ok none => .ok none
  | .ok (some kvraw) => .ok (some ⟨0, 0, kvraw, indexOpen⟩)

/-- The body of the restore loop of `kvdb_open_internal`. -/
def restoreStep (db : Kvdb σ) (v : Visit) : Except Fault (Kvdb σ) :=
  match indexUpdate overload db.index v.key with
  | .error e => .error e
  | .ok (ref, index) =>
    if v.valLen = 0 then
      .ok { db with size := db.size - 1, waste := db.waste + 1, index := index.store ref 0 }
    else if (index.maps ref).off ≠ 0 then
      .ok { db with waste := db.waste + 1, index := index.store ref v.offset }
    else
      .ok { db with size := db.size + 1, index := index.store ref v.offset }

/-- The restore loop over the records the visitor yields. -/
def restoreLoop (db : Kvdb σ) : List Visit → Except Fault (Kvdb σ)
  | [] => .ok db
  | v :: vs =>
    match restoreStep overload db v with
    | .error e => .error e
    | .ok db => restoreLoop db vs

/-- `kvdb_open_internal` with restore, for a visitor that yields `visits` and leaves the
handle `kvraw`. -/
def kvdbRestore (kvraw : Kvraw σ) (visits : List Visit) : Except Fault (Kvdb σ) :=
  restoreLoop overload ⟨0, 0, kvraw, indexOpen⟩ visits

end

end OsProjects.KeyValue
