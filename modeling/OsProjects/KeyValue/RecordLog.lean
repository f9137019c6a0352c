import OsProjects.KeyValue.Kvraw

/-!
# The log as a list of records

`Kvraw.Holds` ties a kvraw handle to the records it has appended. Under the logfs
contract an append adds one record at the old size, and a lookup at the offset of a
stored record reads that record back.
-/
namespace OsProjects.KeyValue
open OsProjects.Library

/-- One record; an empty value is a tombstone. -/
structure Rec where
  key : Bytes
  val : Bytes
  prev : Nat
  deriving DecidableEq, Repr

def Rec.header (r : Rec) : Meta := ⟨markK, markV, r.prev, r.key.length, r.val.length⟩

def Rec.bytes (r : Rec) : Bytes := r.header.encode ++ (r.key ++ r.val)

def Rec.size (r : Rec) : Nat := metaLen + r.key.length + r.val.length

/-- The fields fit the header. -/
structure Rec.Fits (r : Rec) : Prop where
  key_pos : 0 < r.key.length
  key_le : r.key.length ≤ 0xffff
  val_le : r.val.length ≤ 0xffffffff
  prev_lt : r.prev < 2 ^ 64

def logBytes (rs : List Rec) : Bytes := rs.flatMap Rec.bytes

def logSize (rs : List Rec) : Nat := (rs.map Rec.size).sum

@[simp] theorem Rec.length_bytes (r : Rec) : r.bytes.length = r.size := by
  simp [Rec.bytes, Rec.size]
  omega

@[simp] theorem length_logBytes (rs : List Rec) : (logBytes rs).length = logSize rs := by
  simp [logBytes, logSize, List.length_flatMap]

@[simp] theorem logSize_nil : logSize [] = 0 := rfl

@[simp] theorem logSize_cons (r : Rec) (rs : List Rec) :
    logSize (r :: rs) = r.size + logSize rs := by
  simp [logSize]

@[simp] theorem logSize_append (rs rs' : List Rec) :
    logSize (rs ++ rs') = logSize rs + logSize rs' := by
  simp [logSize]

theorem logBytes_append (rs rs' : List Rec) :
    logBytes (rs ++ rs') = logBytes rs ++ logBytes rs' := by
  simp [logBytes]

theorem Rec.size_pos (r : Rec) : 0 < r.size := by
  simp only [Rec.size, metaLen]
  omega

theorem length_le_logSize (rs : List Rec) : rs.length ≤ logSize rs := by
  induction rs with
  | nil => simp
  | cons r rs ih =>
    have := r.size_pos
    simp only [List.length_cons, logSize_cons]
    omega

theorem Rec.Fits.decode {r : Rec} (h : r.Fits) : Meta.decode r.header.encode = r.header :=
  Meta.decode_encode _ h.prev_lt
    (by have := h.key_le; simp only [Rec.header]; omega)
    (by have := h.val_le; simp only [Rec.header]; omega)

/-- The bytes of a log determine its records. -/
theorem logBytes_injective {rs rs' : List Rec} (fits : ∀ r ∈ rs, r.Fits) (fits' : ∀ r ∈ rs', r.Fits)
    (same : logBytes rs = logBytes rs') : rs = rs' := by
  induction rs generalizing rs' with
  | nil =>
    cases rs' with
    | nil => rfl
    | cons r' rs' =>
      have := congrArg List.length same
      have := r'.size_pos
      simp at *
      omega
  | cons r rs ih =>
    cases rs' with
    | nil =>
      have := congrArg List.length same
      have := r.size_pos
      simp at *
      omega
    | cons r' rs' =>
      obtain ⟨fit, rest⟩ := List.forall_mem_cons.mp fits
      obtain ⟨fit', rest'⟩ := List.forall_mem_cons.mp fits'
      have split : ∀ (r : Rec) (rs : List Rec), logBytes (r :: rs) =
          r.header.encode ++ (r.key ++ (r.val ++ logBytes rs)) := by simp [logBytes, Rec.bytes]
      rw [split, split] at same
      obtain ⟨header, same⟩ := List.append_inj same (by simp)
      have header : r.header = r'.header := by rw [← fit.decode, header, fit'.decode]
      simp only [Rec.header, Meta.mk.injEq, true_and] at header
      obtain ⟨prev, keyLen, valLen⟩ := header
      obtain ⟨key, same⟩ := List.append_inj same keyLen
      obtain ⟨val, tail⟩ := List.append_inj same valLen
      obtain ⟨k, v, p⟩ := r
      obtain ⟨k', v', p'⟩ := r'
      simp only at key val prev
      rw [ih rest rest' tail, key, val, prev]

/-- The record `r` starts at offset `off` of the log of `rs`. -/
def Stored (rs : List Rec) (off : Nat) (r : Rec) : Prop :=
  ∃ before after, rs = before ++ r :: after ∧ logSize before = off

theorem Stored.append {rs : List Rec} {off : Nat} {r : Rec} (h : Stored rs off r)
    (rs' : List Rec) : Stored (rs ++ rs') off r := by
  obtain ⟨before, after, rfl, hoff⟩ := h
  exact ⟨before, after ++ rs', by simp, hoff⟩

theorem Stored.last (rs : List Rec) (r : Rec) : Stored (rs ++ [r]) (logSize rs) r :=
  ⟨rs, [], rfl, rfl⟩

theorem Stored.mem {rs : List Rec} {off : Nat} {r : Rec} (h : Stored rs off r) : r ∈ rs := by
  obtain ⟨before, after, rfl, _⟩ := h
  simp

theorem Stored.bound {rs : List Rec} {off : Nat} {r : Rec} (h : Stored rs off r) :
    off + r.size ≤ logSize rs := by
  obtain ⟨before, after, rfl, rfl⟩ := h
  simp only [logSize_append, logSize_cons]
  omega

/-- The bytes of the log from the start of a stored record. -/
theorem Stored.drop_eq {rs : List Rec} {off : Nat} {r : Rec} (h : Stored rs off r) :
    ∃ rest, (logBytes rs).drop off = r.header.encode ++ (r.key ++ (r.val ++ rest)) := by
  obtain ⟨before, after, rfl, rfl⟩ := h
  refine ⟨logBytes after, ?_⟩
  have split : logBytes (before ++ r :: after) = logBytes before ++ (r.bytes ++ logBytes after) := by
    simp [logBytes]
  rw [split, List.drop_left' (by simp)]
  simp [Rec.bytes]

section slices
variable {rs : List Rec} {off : Nat} {r : Rec}

theorem Stored.header_slice (h : Stored rs off r) :
    ((logBytes rs).drop off).take metaLen = r.header.encode := by
  obtain ⟨rest, e⟩ := h.drop_eq
  rw [e, List.take_left' (by simp)]

theorem Stored.key_slice (h : Stored rs off r) (n : Nat) (le : n ≤ r.key.length) :
    ((logBytes rs).drop (off + metaLen)).take n = r.key.take n := by
  obtain ⟨rest, e⟩ := h.drop_eq
  rw [← List.drop_drop, e, List.drop_left' (by simp), List.take_append_of_le_length le]

theorem Stored.val_slice (h : Stored rs off r) (n : Nat) (le : n ≤ r.val.length) :
    ((logBytes rs).drop (off + metaLen + r.key.length)).take n = r.val.take n := by
  obtain ⟨rest, e⟩ := h.drop_eq
  rw [Nat.add_assoc, ← List.drop_drop, e, ← List.append_assoc, List.drop_left' (by simp),
    List.take_append_of_le_length le]

end slices

section
variable {σ : Type} {fs : LogfsOps σ} {contents : σ → Bytes}

/-- The handle's log consists of the records `rs`, and its size is the log's length. -/
structure Kvraw.Holds (contents : σ → Bytes) (kvraw : Kvraw σ) (rs : List Rec) : Prop where
  bytes : contents kvraw.logfs = logBytes rs
  size : kvraw.size = logSize rs
  small : logSize rs < 2 ^ 64
  fits : ∀ r ∈ rs, r.Fits

theorem readMeta_spec (honours : fs.Honours contents) {kvraw : Kvraw σ} {rs : List Rec}
    (h : kvraw.Holds contents rs) {off : Nat} {r : Rec} (stored : Stored rs off r) :
    ∃ l, readMeta fs kvraw off = (some r.header, { kvraw with logfs := l }) ∧
      contents l = contents kvraw.logfs := by
  have bound := stored.bound
  have small := h.small
  have fits := h.fits r stored.mem
  have within : off + metaLen ≤ (contents kvraw.logfs).length := by
    rw [h.bytes, length_logBytes]
    simp only [Rec.size] at bound
    omega
  have data := honours.read_ok kvraw.logfs off metaLen within
  rw [h.bytes, stored.header_slice] at data
  refine ⟨(fs.read kvraw.logfs off metaLen).2, ?_, honours.read_contents _ _ _⟩
  have decode := fits.decode
  have first : ¬ kvraw.size < (off + metaLen) % 2 ^ 64 := by
    rw [h.size]
    simp only [Rec.size] at bound
    omega
  have whole : ¬ kvraw.size < (off + metaLen + r.key.length + r.val.length) % 2 ^ 64 := by
    rw [h.size]
    simp only [Rec.size] at bound
    omega
  rw [readMeta, if_neg first, ← Prod.mk.eta (p := fs.read kvraw.logfs off metaLen), data]
  simp only [decode]
  simpa [Rec.header] using whole

/-- A lookup at the offset of a stored record yields that record. -/
theorem kvrawLookup_spec (honours : fs.Honours contents) {kvraw : Kvraw σ} {rs : List Rec}
    (h : kvraw.Holds contents rs) {off : Nat} {r : Rec} (stored : Stored rs off r)
    (ne : off ≠ 0) (keyLen : Nat) (val : Option Bytes) (valLen : Nat)
    (buffer : valLen ≠ 0 → val ≠ none) :
    ∃ kvraw', kvrawLookup fs kvraw keyLen val valLen off =
        .ok (some ⟨r.key.take keyLen, r.key.length, fill val (r.val.take valLen), r.val.length,
          r.prev⟩, kvraw') ∧
      kvraw'.Holds contents rs := by
  obtain ⟨l, meta_eq, same⟩ := readMeta_spec honours h stored
  have bound := stored.bound
  simp only [Rec.size] at bound
  have key_le := Nat.min_le_left r.key.length keyLen
  have val_le := Nat.min_le_left r.val.length valLen
  have key_read := honours.read_ok l (off + metaLen) (min r.key.length keyLen)
    (by rw [same, h.bytes, length_logBytes]; omega)
  rw [same, h.bytes, stored.key_slice _ key_le] at key_read
  have same' : contents (fs.read l (off + metaLen) (min r.key.length keyLen)).2 = logBytes rs := by
    rw [honours.read_contents, same, h.bytes]
  have val_read := honours.read_ok (fs.read l (off + metaLen) (min r.key.length keyLen)).2
    (off + metaLen + r.key.length) (min r.val.length valLen)
    (by rw [same', length_logBytes]; omega)
  rw [same', stored.val_slice _ val_le] at val_read
  have guard : ¬ (valLen ≠ 0 ∧ val = none) := fun g => buffer g.1 g.2
  have key_take : r.key.take (min r.key.length keyLen) = r.key.take keyLen := by
    rw [Nat.min_comm, ← List.take_take, List.take_length]
  have val_take : r.val.take (min r.val.length valLen) = r.val.take valLen := by
    rw [Nat.min_comm, ← List.take_take, List.take_length]
  refine ⟨{ kvraw with logfs := (fs.read (fs.read l (off + metaLen) (min r.key.length keyLen)).2
    (off + metaLen + r.key.length) (min r.val.length valLen)).2 }, ?_, ?_⟩
  · rw [kvrawLookup, if_neg guard, if_neg ne, meta_eq]
    simp only [Rec.header]
    rw [← Prod.mk.eta (p := fs.read l (off + metaLen) (min r.key.length keyLen)), key_read]
    simp only
    rw [← Prod.mk.eta (p := fs.read (fs.read l (off + metaLen) (min r.key.length keyLen)).2
      (off + metaLen + r.key.length) (min r.val.length valLen)), val_read]
    simp [key_take, val_take]
  · exact ⟨by rw [honours.read_contents]; exact same', h.size, h.small, h.fits⟩

/-- An append adds one record at the end of the log and returns its offset. -/
theorem kvrawAppend_spec (honours : fs.Honours contents) {kvraw : Kvraw σ} {rs : List Rec}
    (h : kvraw.Holds contents rs) (key val : Bytes) (off : Nat) (fits : Rec.Fits ⟨key, val, off⟩)
    (small : logSize rs + Rec.size ⟨key, val, off⟩ < 2 ^ 64) :
    ∃ kvraw', kvrawAppend fs kvraw key val off = .ok (some (logSize rs), kvraw') ∧
      kvraw'.Holds contents (rs ++ [⟨key, val, off⟩]) := by
  obtain ⟨key_pos, key_le, val_le, prev_lt⟩ := fits
  simp only at key_pos key_le val_le prev_lt
  have key_mod : key.length % 2 ^ 16 = key.length := Nat.mod_eq_of_lt (by omega)
  have val_mod : val.length % 2 ^ 32 = val.length := Nat.mod_eq_of_lt (by omega)
  have key_guard : ¬ (key.length = 0 ∨ 0xffff < key.length) := by omega
  have val_guard : ¬ 0xffffffff < val.length := by omega
  let m : Meta := ⟨markK, markV, off, key.length % 2 ^ 16, val.length % 2 ^ 32⟩
  let l := (fs.append (fs.append (fs.append kvraw.logfs m.encode).2 (key.take m.keyLen)).2
    (val.take m.valLen)).2
  refine ⟨⟨(kvraw.size + (metaLen + m.keyLen + m.valLen)) % 2 ^ 64, l⟩, ?_, ?_⟩
  · simp only [kvrawAppend, if_neg key_guard, if_neg val_guard, honours.append_ok, ne_eq,
      not_true_eq_false, if_false, h.size, l, m]
  · refine ⟨?_, ?_, ?_, ?_⟩
    · simp only [l, m, honours.append_contents, h.bytes, key_mod, val_mod, List.take_length,
        logBytes_append]
      simp [logBytes, Rec.bytes, Rec.header]
    · simp only [Rec.size] at small
      simp only [m, key_mod, val_mod, h.size, logSize_append, logSize_cons, logSize_nil, Rec.size]
      rw [Nat.mod_eq_of_lt (by omega)]
      omega
    · simpa using small
    · intro r hr
      rcases List.mem_append.mp hr with hr | hr
      · exact h.fits r hr
      · obtain rfl := List.mem_singleton.mp hr
        exact ⟨key_pos, key_le, val_le, prev_lt⟩

/-- The dummy record that `kvraw_open` puts at offset 0. -/
def dummy : Rec := ⟨[0], [0], 0⟩

@[simp] theorem size_dummy : dummy.size = 18 := rfl

theorem kvrawOpen_spec (honours : fs.Honours contents) {logfs : σ} (fresh : contents logfs = []) :
    ∃ kvraw, kvrawOpen fs logfs = .ok (some kvraw) ∧ kvraw.Holds contents [dummy] := by
  have start : (⟨0, logfs⟩ : Kvraw σ).Holds contents [] :=
    ⟨fresh, rfl, by decide, by simp⟩
  obtain ⟨kvraw, ok, holds⟩ := kvrawAppend_spec honours start [0] [0] 0
    ⟨by decide, by decide, by decide, by decide⟩ (by decide)
  exact ⟨kvraw, by simp [kvrawOpen, ok, bind, Except.bind, pure, Except.pure], holds⟩

end

end OsProjects.KeyValue
