import OsProjects.KeyValue.System

/-!
# Records in the log (`kvraw.c`)

A record is a packed 16-byte header, the key and the value, appended to logfs in
three pieces. The header stores the mark `KV`, the offset of the previous record of
the same chain, and the two lengths. `LogfsOps` is what this layer uses of
`logfs.h`; the model is generic in the state behind it.
-/
namespace OsProjects.KeyValue
open OsProjects.Library

/-- `logfs_append` and `logfs_read`. An append returns 0 on success; a read fills
the buffer or returns an error. -/
structure LogfsOps (σ : Type) where
  append : σ → Bytes → Int × σ
  read : σ → Nat → Nat → Option Bytes × σ

/-- The header contract of logfs when no operation fails. -/
structure LogfsOps.Honours {σ : Type} (fs : LogfsOps σ) (contents : σ → Bytes) : Prop where
  append_ok : ∀ s buf, (fs.append s buf).1 = 0
  append_contents : ∀ s buf, contents (fs.append s buf).2 = contents s ++ buf
  read_ok : ∀ s off len, off + len ≤ (contents s).length →
    (fs.read s off len).1 = some (((contents s).drop off).take len)
  read_contents : ∀ s off len, contents (fs.read s off len).2 = contents s

/-- The log held as one byte string. -/
def idealLogfs : LogfsOps Bytes where
  append log buf := (0, log ++ buf)
  read log off len :=
    (if off + len ≤ log.length then some ((log.drop off).take len) else none, log)

theorem idealLogfs_honours : idealLogfs.Honours id where
  append_ok _ _ := rfl
  append_contents _ _ := rfl
  read_ok s off len within := by simp only [id_eq] at within ⊢; simp [idealLogfs, within]
  read_contents _ _ _ := rfl

/-- `META_LEN` -/
def metaLen : Nat := 16

def markK : UInt8 := 75
def markV : UInt8 := 86

/-- The packed `struct meta`. -/
structure Meta where
  mark0 : UInt8
  mark1 : UInt8
  off : Nat
  keyLen : Nat
  valLen : Nat
  deriving DecidableEq, Repr

def Meta.encode (m : Meta) : Bytes :=
  m.mark0 :: m.mark1 :: (leBytes 8 m.off ++ leBytes 2 m.keyLen ++ leBytes 4 m.valLen)

def Meta.decode (buf : Bytes) : Meta where
  mark0 := buf.getD 0 0
  mark1 := buf.getD 1 0
  off := leNat ((buf.drop 2).take 8)
  keyLen := leNat ((buf.drop 10).take 2)
  valLen := leNat ((buf.drop 12).take 4)

@[simp] theorem Meta.length_encode (m : Meta) : m.encode.length = metaLen := by
  simp [Meta.encode, metaLen]

/-- Decoding inverts encoding for fields that fit their widths. -/
theorem Meta.decode_encode (m : Meta) (off : m.off < 2 ^ 64) (keyLen : m.keyLen < 2 ^ 16)
    (valLen : m.valLen < 2 ^ 32) : Meta.decode m.encode = m := by
  have hoff : ((leBytes 8 m.off ++ leBytes 2 m.keyLen ++ leBytes 4 m.valLen).take 8) =
      leBytes 8 m.off := by simp
  have hkey : (((leBytes 8 m.off ++ leBytes 2 m.keyLen ++ leBytes 4 m.valLen).drop 8).take 2) =
      leBytes 2 m.keyLen := by simp
  have hval : (((leBytes 8 m.off ++ leBytes 2 m.keyLen ++ leBytes 4 m.valLen).drop 10).take 4) =
      leBytes 4 m.valLen := by
    have past : (leBytes 8 m.off).drop 10 = [] := List.drop_eq_nil_of_le (by simp)
    simp [List.drop_append, past]
  simp only [Meta.decode, Meta.encode, List.drop_succ_cons, hkey, hval]
  cases m
  simp only [List.drop_zero, hoff, leNat_leBytes] at *
  simp only [List.getD_cons_zero, List.getD_cons_succ, Meta.mk.injEq, true_and]
  exact ⟨Nat.mod_eq_of_lt off, Nat.mod_eq_of_lt keyLen, Nat.mod_eq_of_lt valLen⟩

/-- Every header can be written back as it was read. -/
theorem Meta.encode_decode {buf : Bytes} (whole : buf.length = metaLen) :
    (Meta.decode buf).encode = buf := by
  obtain ⟨k, v, rest, rfl⟩ : ∃ k v rest, buf = k :: v :: rest := by
    match buf, whole with
    | k :: v :: rest, _ => exact ⟨k, v, rest, rfl⟩
  have length : rest.length = 14 := by simpa [metaLen] using whole
  have piece : ∀ a w, a + w ≤ 14 →
      leBytes w (leNat ((rest.drop a).take w)) = (rest.drop a).take w := by
    intro a w within
    have round := leBytes_leNat ((rest.drop a).take w)
    rwa [List.length_take, List.length_drop, Nat.min_eq_left (by omega)] at round
  have last : (rest.drop 10).take 4 = rest.drop 10 := List.take_of_length_le (by simp [length])
  have off := piece 0 8 (by decide)
  have keyLen := piece 8 2 (by decide)
  have valLen : leBytes 4 (leNat ((rest.drop 10).take 4)) = rest.drop 10 :=
    (piece 10 4 (by decide)).trans last
  have split : (rest.drop 8).take 2 ++ rest.drop 10 = rest.drop 8 := by
    have round := List.take_append_drop 2 (rest.drop 8)
    rwa [List.drop_drop] at round
  simp only [List.drop_zero] at off
  simp only [Meta.decode, Meta.encode, List.getD_cons_zero, List.getD_cons_succ,
    List.drop_succ_cons, List.drop_zero, off, keyLen, valLen, List.append_assoc, split,
    List.take_append_drop]

structure Kvraw (σ : Type) where
  size : Nat
  logfs : σ

/-- `memcpy(dst, data, len)` into a caller's buffer; `none` is the NULL pointer. -/
def fill (dst : Option Bytes) (data : Bytes) : Option Bytes :=
  dst.map fun b => data ++ b.drop data.length

/-- What a successful `kvraw_lookup` leaves in its out parameters: the key bytes read,
the record's key length, the value buffer, the value length and the previous offset. -/
structure Found where
  key : Bytes
  keyLen : Nat
  val : Option Bytes
  valLen : Nat
  off : Nat

section
variable {σ : Type} (fs : LogfsOps σ)

def readMeta (kvraw : Kvraw σ) (off : Nat) : Option Meta × Kvraw σ :=
  if kvraw.size < (off + metaLen) % 2 ^ 64 then (none, kvraw)
  else
    match fs.read kvraw.logfs off metaLen with
    | (none, l) => (none, { kvraw with logfs := l })
    | (some buf, l) =>
      let m := Meta.decode buf
      if m.mark0 ≠ markK ∨ m.mark1 ≠ markV ∨
          kvraw.size < (off + metaLen + m.keyLen + m.valLen) % 2 ^ 64 then
        (none, { kvraw with logfs := l })
      else (some m, { kvraw with logfs := l })

/-- `keyLen` and `valLen` are the capacities passed in; the key buffer of every caller
is non-NULL. `none` is the return value -1. -/
def kvrawLookup (kvraw : Kvraw σ) (keyLen : Nat) (val : Option Bytes) (valLen off : Nat) :
    Except Fault (Option Found × Kvraw σ) :=
  if valLen ≠ 0 ∧ val = none then .error .assertion
  else if off = 0 then .error .assertion
  else
    match readMeta fs kvraw off with
    | (none, kvraw) => .ok (none, kvraw)
    | (some m, kvraw) =>
      match fs.read kvraw.logfs (off + metaLen) (min m.keyLen keyLen) with
      | (none, l) => .ok (none, { kvraw with logfs := l })
      | (some key, l) =>
        match fs.read l (off + metaLen + m.keyLen) (min m.valLen valLen) with
        | (none, l) => .ok (none, { kvraw with logfs := l })
        | (some data, l) =>
          .ok (some ⟨key, m.keyLen, fill val data, m.valLen, m.off⟩, { kvraw with logfs := l })

/-- `some off` is the new `*off` of a successful append, `none` the return value -1. -/
def kvrawAppend (kvraw : Kvraw σ) (key val : Bytes) (off : Nat) :
    Except Fault (Option Nat × Kvraw σ) :=
  if key.length = 0 ∨ 0xffff < key.length then .error .assertion
  else if 0xffffffff < val.length then .error .assertion
  else
    let off_ := kvraw.size
    let m : Meta := ⟨markK, markV, off, key.length % 2 ^ 16, val.length % 2 ^ 32⟩
    match fs.append kvraw.logfs m.encode with
    | (rv, l) =>
      if rv ≠ 0 then .ok (none, { kvraw with logfs := l })
      else
        match fs.append l (key.take m.keyLen) with
        | (rv, l) =>
          if rv ≠ 0 then .ok (none, { kvraw with logfs := l })
          else
            match fs.append l (val.take m.valLen) with
            | (rv, l) =>
              if rv ≠ 0 then .ok (none, { kvraw with logfs := l })
              else .ok (some off_, ⟨(kvraw.size + (metaLen + m.keyLen + m.valLen)) % 2 ^ 64, l⟩)

/-- `kvraw_open` without restore on a freshly opened logfs: it appends the dummy record. -/
def kvrawOpen (logfs : σ) : Except Fault (Option (Kvraw σ)) := do
  match ← kvrawAppend fs ⟨0, logfs⟩ [0] [0] 0 with
  | (none, _) => pure none
  | (some _, kvraw) => pure (some kvraw)

end

end OsProjects.KeyValue
