import OsProjects.KeyValue.Kvdb
import OsProjects.KeyValue.RecordLog

/-!
# Chains of records with one hash

The entries of a log are its records after the dummy with their offsets. The entries
of one hash, newest first, form a chain when every record stores the offset of the
next one. Walking a chain finds the newest record of a key, whatever other keys share
the hash.
-/
namespace OsProjects.KeyValue
open OsProjects.Library

/-- A record with its offset. -/
abbrev Entry := Nat × Rec

/-- The entries of a run of records that starts at offset `off`, oldest first. -/
def entriesFrom : Nat → List Rec → List Entry
  | _, [] => []
  | off, r :: rs => (off, r) :: entriesFrom (off + r.size) rs

/-- The entries after the dummy record, newest first. -/
def history (rs : List Rec) : List Entry := (entriesFrom dummy.size rs).reverse

theorem entriesFrom_append (off : Nat) (rs rs' : List Rec) :
    entriesFrom off (rs ++ rs') = entriesFrom off rs ++ entriesFrom (off + logSize rs) rs' := by
  induction rs generalizing off with
  | nil => simp [entriesFrom]
  | cons r rs ih => simp [entriesFrom, ih, Nat.add_assoc]

@[simp] theorem history_nil : history [] = [] := rfl

theorem history_snoc (rs : List Rec) (r : Rec) :
    history (rs ++ [r]) = (logSize (dummy :: rs), r) :: history rs := by
  simp [history, entriesFrom_append, entriesFrom]

@[simp] theorem length_entriesFrom (off : Nat) (rs : List Rec) :
    (entriesFrom off rs).length = rs.length := by
  induction rs generalizing off with
  | nil => rfl
  | cons r rs ih => simp [entriesFrom, ih]

@[simp] theorem length_history (rs : List Rec) : (history rs).length = rs.length := by
  simp [history]

theorem entriesFrom_stored {before rs : List Rec} {e : Entry}
    (h : e ∈ entriesFrom (logSize before) rs) : Stored (before ++ rs) e.1 e.2 := by
  induction rs generalizing before with
  | nil => simp [entriesFrom] at h
  | cons r rs ih =>
    rcases List.mem_cons.mp h with rfl | h
    · exact ⟨before, rs, rfl, rfl⟩
    · have step : logSize before + r.size = logSize (before ++ [r]) := by simp
      rw [step] at h
      simpa using ih h

theorem history_stored {rs : List Rec} {e : Entry} (h : e ∈ history rs) :
    Stored (dummy :: rs) e.1 e.2 := by
  have : e ∈ entriesFrom (logSize [dummy]) rs := by simpa [history] using h
  simpa using entriesFrom_stored this

theorem le_of_mem_entriesFrom {off : Nat} {rs : List Rec} {e : Entry}
    (h : e ∈ entriesFrom off rs) : off ≤ e.1 := by
  induction rs generalizing off with
  | nil => simp [entriesFrom] at h
  | cons r rs ih =>
    rcases List.mem_cons.mp h with rfl | h
    · exact Nat.le_refl _
    · exact Nat.le_trans (Nat.le_add_right _ _) (ih h)

/-- Offset 0 belongs to the dummy, so it can end a chain. -/
theorem history_off_ne_zero {rs : List Rec} {e : Entry} (h : e ∈ history rs) : e.1 ≠ 0 := by
  have := le_of_mem_entriesFrom (List.mem_reverse.mp h)
  simp only [size_dummy] at this
  omega

/-- The offset at which a chain starts, 0 for the empty chain. -/
def headOff : List Entry → Nat
  | [] => 0
  | e :: _ => e.1

/-- Every record stores the offset of the next one. -/
def Linked : List Entry → Prop
  | [] => True
  | e :: es => e.2.prev = headOff es ∧ Linked es

/-- The entries whose keys have the index key `h`. -/
def classOf (h : Nat) (es : List Entry) : List Entry := es.filter fun e => indexKey e.2.key = h

theorem classOf_cons (h : Nat) (e : Entry) (es : List Entry) :
    classOf h (e :: es) = if indexKey e.2.key = h then e :: classOf h es else classOf h es := by
  by_cases same : indexKey e.2.key = h <;> simp [classOf, same]

/-- The newest entry of a key. -/
def newest (key : Bytes) (es : List Entry) : Option Entry := es.find? fun e => e.2.key = key

theorem newest_cons (key : Bytes) (e : Entry) (es : List Entry) :
    newest key (e :: es) = if e.2.key = key then some e else newest key es := by
  by_cases same : e.2.key = key <;> simp [newest, same]

theorem newest_mem {key : Bytes} {es : List Entry} {e : Entry} (h : newest key es = some e) :
    e ∈ es ∧ e.2.key = key := by
  exact ⟨List.mem_of_find?_eq_some h, by simpa using List.find?_some h⟩

/-- Entries of other hashes do not matter to the search for a key. -/
theorem newest_classOf (key : Bytes) (es : List Entry) :
    newest key (classOf (indexKey key) es) = newest key es := by
  induction es with
  | nil => rfl
  | cons e es ih =>
    by_cases same : e.2.key = key
    · simp [classOf_cons, newest_cons, same]
    · by_cases hash_same : indexKey e.2.key = indexKey key
      · simp [classOf_cons, newest_cons, same, hash_same, ih]
      · simp [classOf_cons, newest_cons, same, hash_same, ih]

/-- The value stored last under a key; empty when there is none. -/
def latest (key : Bytes) (es : List Entry) : Bytes := ((newest key es).map fun e => e.2.val).getD []

theorem latest_cons (key : Bytes) (e : Entry) (es : List Entry) :
    latest key (e :: es) = if e.2.key = key then e.2.val else latest key es := by
  by_cases same : e.2.key = key <;> simp [latest, newest_cons, same]

/-- The number of entries that `p` selects by themselves and the entries before them. -/
def tally (p : Entry → List Entry → Bool) : List Entry → Nat
  | [] => 0
  | e :: es => tally p es + (p e es).toNat

/-- A value stored under a key without one. -/
def creates (e : Entry) (es : List Entry) : Bool := e.2.val ≠ [] ∧ latest e.2.key es = []

/-- A value stored over another one. -/
def overwrites (e : Entry) (es : List Entry) : Bool := e.2.val ≠ [] ∧ latest e.2.key es ≠ []

/-- A tombstone. -/
def removes (e : Entry) (_ : List Entry) : Bool := e.2.val = []

theorem tally_total (es : List Entry) :
    tally creates es + tally overwrites es + tally removes es = es.length := by
  induction es with
  | nil => rfl
  | cons e es ih =>
    simp only [tally, creates, overwrites, removes, List.length_cons]
    by_cases tomb : e.2.val = []
    · simp [tomb]
      omega
    · by_cases live : latest e.2.key es = []
      · simp [tomb, live]
        omega
      · simp [tomb, live]
        omega

/-- What a finished chain walk reports about the newest record of its key. -/
structure Chain.Reports (c : Chain) (val : Option Bytes) (cap : Nat) (found : Option Entry) :
    Prop where
  off : c.off = headOff found.toList
  valLen : c.valLen = (found.map fun e => e.2.val.length).getD cap
  length : c.val.map List.length = val.map List.length
  copied : ∀ e, found = some e →
    (c.val.getD []).take (min cap e.2.val.length) = e.2.val.take (min cap e.2.val.length)

theorem take_ne_of_ne {a b : Bytes} {n : Nat} (h : a.take n ≠ b.take n) : a ≠ b :=
  fun e => h (by rw [e])

section
variable {val : Option Bytes} {valLen : Nat} {data : Bytes}

theorem length_fill (fits : valLen ≤ (val.getD []).length) :
    (fill val (data.take valLen)).map List.length = val.map List.length := by
  cases val with
  | none => rfl
  | some b =>
    simp only [fill, Option.map_some, List.length_append, List.length_take, List.length_drop,
      Option.getD_some, Option.some.injEq] at *
    omega

theorem getD_length_eq {a b : Option Bytes} (h : a.map List.length = b.map List.length) :
    (a.getD []).length = (b.getD []).length := by
  cases a <;> cases b <;> simp_all

theorem take_fill (fits : valLen ≤ (val.getD []).length) :
    ((fill val (data.take valLen)).getD []).take (min valLen data.length) =
      data.take (min valLen data.length) := by
  cases val with
  | none =>
    have : valLen = 0 := by simpa using fits
    simp [fill, this]
  | some b =>
    simp only [fill, Option.map_some, Option.getD_some]
    rw [List.take_left' (by simp), List.take_eq_take_min]

end

section
variable {σ : Type} {fs : LogfsOps σ} {contents : σ → Bytes}

/-- The outcome of a walk along a chain: each record is read into the buffer until one has the
key. -/
def walk (key : Bytes) (valLen : Nat) : List Entry → Option Bytes → Chain
  | [], val => ⟨val, valLen, 0⟩
  | e :: es, val =>
    if e.2.key = key then ⟨fill val (e.2.val.take valLen), e.2.val.length, e.1⟩
    else walk key valLen es (fill val (e.2.val.take valLen))

theorem walk_reports (key : Bytes) {valLen : Nat} (es : List Entry) {val : Option Bytes}
    (fits : valLen ≤ (val.getD []).length) :
    (walk key valLen es val).Reports val valLen (newest key es) := by
  induction es generalizing val with
  | nil => exact ⟨rfl, rfl, rfl, by simp [newest]⟩
  | cons e es ih =>
    have length := @length_fill val valLen e.2.val fits
    rw [newest_cons, walk]
    split_ifs with same
    · refine ⟨rfl, rfl, length, ?_⟩
      rintro e ⟨⟩
      exact take_fill fits
    · have reports := @ih (fill val (e.2.val.take valLen)) (by rwa [getD_length_eq length])
      exact ⟨reports.off, reports.valLen, reports.length.trans length, reports.copied⟩

theorem fill_ne_none {val : Option Bytes} {valLen : Nat} (buffer : valLen ≠ 0 → val ≠ none)
    (data : Bytes) : valLen ≠ 0 → fill val data ≠ none := by
  cases val <;> simp_all [fill]

/-- The prefix comparison and the second read do not show: the walk reads the records of the chain
and stops at the first whose whole key is the given one. -/
theorem chainLookup_walk (honours : fs.Honours contents) {rs : List Rec} (key : Bytes)
    {valLen : Nat} (es : List Entry) (stored : ∀ e ∈ es, Stored rs e.1 e.2 ∧ e.1 ≠ 0) (linked : Linked es)
    (fuel : Nat) (enough : es.length < fuel) {kvraw : Kvraw σ} (h : kvraw.Holds contents rs)
    (val : Option Bytes) (buffer : valLen ≠ 0 → val ≠ none) :
    ∃ kvraw', chainLookup fs fuel kvraw key val valLen (headOff es) =
        .ok (some (walk key valLen es val), kvraw') ∧ kvraw'.Holds contents rs := by
  induction es generalizing fuel kvraw val with
  | nil =>
    obtain ⟨fuel, rfl⟩ : ∃ n, fuel = n + 1 := ⟨fuel - 1, by omega⟩
    exact ⟨kvraw, by simp [chainLookup, headOff, walk], h⟩
  | cons e es ih =>
    obtain ⟨fuel, rfl⟩ : ∃ n, fuel = n + 1 := ⟨fuel - 1, by omega⟩
    obtain ⟨off, r⟩ := e
    obtain ⟨⟨here, ne⟩, later⟩ := List.forall_mem_cons.mp stored
    obtain ⟨prev, linked⟩ := linked
    simp only at here ne prev
    have enough' : es.length < fuel := by
      simp only [List.length_cons] at enough
      omega
    obtain ⟨kvraw₁, first, h₁⟩ := kvrawLookup_spec honours h here ne (min key.length 256)
      val valLen buffer
    -- another key: the walk goes on
    have next : ∀ kvraw' : Kvraw σ, kvraw'.Holds contents rs → r.key ≠ key →
        ∃ kvraw'', chainLookup fs fuel kvraw' key (fill val (r.val.take valLen)) valLen r.prev =
          .ok (some (walk key valLen ((off, r) :: es) val), kvraw'') ∧
          kvraw''.Holds contents rs := by
      intro kvraw' h' other
      rw [walk, if_neg other, prev]
      exact ih later linked fuel enough' h' _ (fill_ne_none buffer _)
    -- the key itself: the walk stops here
    have stop : r.key = key → walk key valLen ((off, r) :: es) val =
        ⟨fill val (r.val.take valLen), r.val.length, off⟩ := by
      intro same
      rw [walk, if_pos same]
    simp only [headOff, chainLookup, if_neg ne, first]
    split_ifs with mismatch long whole
    · have other : r.key ≠ key := by
        rcases mismatch with len | head
        · exact fun e => len (by rw [e])
        · refine take_ne_of_ne (n := min key.length 8) fun e => head ?_
          rw [List.take_take, ← e]
          congr 1
          omega
      exact next kvraw₁ h₁ other
    · obtain ⟨len, _⟩ := not_or.mp mismatch
      simp only [ne_eq, not_not] at len
      obtain ⟨kvraw₂, second, h₂⟩ := kvrawLookup_spec honours h₁ here ne r.key.length
        (fill val (r.val.take valLen)) 0 (by simp)
      have same_val : fill (fill val (r.val.take valLen)) (r.val.take 0) =
          fill val (r.val.take valLen) := by
        cases val <;> simp [fill]
      simp only [second, List.take_length, same_val]
      have full : r.key.take key.length = r.key := by rw [← len, List.take_length]
      rw [full]
      split_ifs with match_
      · exact ⟨kvraw₂, by rw [stop match_], h₂⟩
      · exact next kvraw₂ h₂ match_
    · obtain ⟨len, _⟩ := not_or.mp mismatch
      simp only [ne_eq, not_not] at len
      have full : (r.key.take (min key.length 256)).take key.length = r.key := by
        rw [List.take_take, List.take_of_length_le (by omega)]
      rw [full] at whole
      exact ⟨kvraw₁, by rw [stop whole], h₁⟩
    · obtain ⟨len, _⟩ := not_or.mp mismatch
      simp only [ne_eq, not_not] at len
      have full : (r.key.take (min key.length 256)).take key.length = r.key := by
        rw [List.take_take, List.take_of_length_le (by omega)]
      rw [full] at whole
      exact next kvraw₁ h₁ whole

/-- A length without a buffer meets the assertion of `kvraw_lookup` at the first record. -/
theorem chainLookup_bufferless (fs : LogfsOps σ) (fuel : Nat) (kvraw : Kvraw σ) (key : Bytes)
    {cap off : Nat} (pos : cap ≠ 0) :
    chainLookup fs (fuel + 1) kvraw key none cap off =
      if off = 0 then .ok (some ⟨none, cap, 0⟩, kvraw) else .error .assertion := by
  rw [chainLookup]
  split_ifs with zero
  · rfl
  · simp [kvrawLookup, pos]

/-- The walk along a chain finds the newest record of its key and reads its value. -/
theorem chainLookup_spec (honours : fs.Honours contents) {rs : List Rec} (key : Bytes)
    {valLen : Nat} (es : List Entry) (stored : ∀ e ∈ es, Stored rs e.1 e.2 ∧ e.1 ≠ 0) (linked : Linked es)
    (fuel : Nat) (enough : es.length < fuel) {kvraw : Kvraw σ} (h : kvraw.Holds contents rs)
    (val : Option Bytes) (fits : valLen ≤ (val.getD []).length) :
    ∃ c kvraw', chainLookup fs fuel kvraw key val valLen (headOff es) = .ok (some c, kvraw') ∧
      kvraw'.Holds contents rs ∧ c.Reports val valLen (newest key es) := by
  have buffer : valLen ≠ 0 → val ≠ none := by
    rintro pos rfl
    simp only [Option.getD_none, List.length_nil] at fits
    omega
  obtain ⟨kvraw', run, holds⟩ := chainLookup_walk honours key es stored linked fuel enough h val
    buffer
  exact ⟨walk key valLen es val, kvraw', run, holds, walk_reports key es fits⟩

end

end OsProjects.KeyValue
