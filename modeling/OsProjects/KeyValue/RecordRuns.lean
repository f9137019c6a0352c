import OsProjects.KeyValue.Chains
import OsProjects.Library.Refinement
import Mathlib.Data.List.ReduceOption

/-!
# Appends and lookups in any order

A kvraw handle refines a list of records that appends extend and lookups leave alone. So
the records lie one behind the other after the dummy, and as long as the handle is open a
lookup at the offset of an appended record reads this record back.
-/
namespace OsProjects.KeyValue
open OsProjects.Library

/-- A call on a kvraw handle. An append is given the three parts of a record. -/
inductive RawCall where
  | append (r : Rec)
  | lookup (keyLen : Nat) (val : Option Bytes) (valLen off : Nat)

/-- The arguments that the assertions admit. -/
def RawCall.Proper : RawCall → Prop
  | .append r => r.Fits
  | .lookup _ val valLen off => (valLen ≠ 0 → val ≠ none) ∧ off ≠ 0

def RawCall.record : RawCall → Option Rec
  | .append r => some r
  | .lookup .. => none

/-- The appended records, oldest first. -/
def records (calls : List RawCall) : List Rec := calls.filterMap RawCall.record

/-- An append that succeeds replies with its record and the offset of it. -/
def kvrawCall {σ : Type} (fs : LogfsOps σ) (kvraw : Kvraw σ) :
    RawCall → Except Fault (Option Entry × Kvraw σ)
  | .append r =>
    match kvrawAppend fs kvraw r.key r.val r.prev with
    | .error e => .error e
    | .ok (off, kvraw) => .ok (off.map fun off => (off, r), kvraw)
  | .lookup keyLen val valLen off =>
    match kvrawLookup fs kvraw keyLen val valLen off with
    | .error e => .error e
    | .ok (_, kvraw) => .ok (none, kvraw)

/-- What a call is for: an append puts its record at the end of the list. -/
def extend (rs : List Rec) (call : RawCall) : Option Entry × List Rec :=
  (call.record.map fun r => (logSize rs, r), rs ++ call.record.toList)

theorem records_cons (call : RawCall) (calls : List RawCall) :
    records (call :: calls) = call.record.toList ++ records calls := by
  cases call <;> rfl

theorem specified_extend (rs : List Rec) (calls : List RawCall) :
    (specified extend rs calls).2 = rs ++ records calls ∧
      (specified extend rs calls).1.reduceOption = entriesFrom (logSize rs) (records calls) := by
  induction calls generalizing rs with
  | nil => simp [specified, records, entriesFrom]
  | cons call calls ih =>
    obtain ⟨log, entries⟩ := ih (extend rs call).2
    simp only [specified, records_cons]
    constructor
    · rw [log, extend, List.append_assoc]
    · cases call with
      | append r =>
        have size : logSize (extend rs (.append r)).2 = logSize rs + r.size := by
          simp [extend, RawCall.record]
        rw [size] at entries
        simp only [RawCall.record, Option.toList_some, List.singleton_append, entriesFrom,
          ← entries]
        exact List.reduceOption_cons_of_some _ _
      | lookup keyLen val valLen off =>
        have same : (extend rs (.lookup keyLen val valLen off)).2 = rs := List.append_nil rs
        rw [same] at entries
        rw [same]
        exact (List.reduceOption_cons_of_none _).trans entries

/-- The records of a log are disjoint, and the later ones lie behind the earlier ones. -/
theorem entriesFrom_apart (off : Nat) (rs : List Rec) :
    (entriesFrom off rs).Pairwise fun a b => a.1 + a.2.size ≤ b.1 := by
  induction rs generalizing off with
  | nil => exact List.Pairwise.nil
  | cons r rs ih =>
    apply List.Pairwise.cons _ (ih _)
    exact fun e mem => le_of_mem_entriesFrom mem

theorem map_snd_entriesFrom (off : Nat) (rs : List Rec) :
    (entriesFrom off rs).map Prod.snd = rs := by
  induction rs generalizing off with
  | nil => rfl
  | cons r rs ih => simp [entriesFrom, ih]

section
variable {σ : Type} {fs : LogfsOps σ} {contents : σ → Bytes} {kvraw : Kvraw σ} {rs : List Rec}

theorem readMeta_keeps (honours : fs.Honours contents) (kvraw : Kvraw σ) (off : Nat) :
    ∃ m l, readMeta fs kvraw off = (m, { kvraw with logfs := l }) ∧
      contents l = contents kvraw.logfs := by
  have kept := honours.read_contents kvraw.logfs off metaLen
  unfold readMeta
  split_ifs
  · exact ⟨none, kvraw.logfs, rfl, rfl⟩
  · cases read : fs.read kvraw.logfs off metaLen with
    | mk buf l =>
      rw [read] at kept
      cases buf with
      | none => exact ⟨none, l, rfl, kept⟩
      | some buf =>
        simp only
        split_ifs
        · exact ⟨none, l, rfl, kept⟩
        · exact ⟨some _, l, rfl, kept⟩

/-- A lookup at any offset changes no record. -/
theorem kvrawLookup_keeps (honours : fs.Honours contents) (h : kvraw.Holds contents rs)
    {keyLen valLen off : Nat} {val : Option Bytes} (buffer : valLen ≠ 0 → val ≠ none)
    (ne : off ≠ 0) :
    ∃ reply kvraw', kvrawLookup fs kvraw keyLen val valLen off = .ok (reply, kvraw') ∧
      kvraw'.Holds contents rs := by
  have holds : ∀ l, contents l = contents kvraw.logfs →
      Kvraw.Holds contents { kvraw with logfs := l } rs := fun l same =>
    ⟨same.trans h.bytes, h.size, h.small, h.fits⟩
  have guard : ¬ (valLen ≠ 0 ∧ val = none) := fun g => buffer g.1 g.2
  obtain ⟨m, l, meta_eq, same⟩ := readMeta_keeps honours kvraw off
  rw [kvrawLookup, if_neg guard, if_neg ne, meta_eq]
  cases m with
  | none => exact ⟨none, _, rfl, holds l same⟩
  | some m =>
    have kept := honours.read_contents l (off + metaLen) (min m.keyLen keyLen)
    simp only
    cases read : fs.read l (off + metaLen) (min m.keyLen keyLen) with
    | mk key l₁ =>
      rw [read] at kept
      have same₁ := kept.trans same
      cases key with
      | none => exact ⟨none, _, rfl, holds l₁ same₁⟩
      | some key =>
        have kept := honours.read_contents l₁ (off + metaLen + m.keyLen) (min m.valLen valLen)
        simp only
        cases read₂ : fs.read l₁ (off + metaLen + m.keyLen) (min m.valLen valLen) with
        | mk data l₂ =>
          rw [read₂] at kept
          have same₂ := kept.trans same₁
          cases data with
          | none => exact ⟨none, _, rfl, holds l₂ same₂⟩
          | some data => exact ⟨some _, _, rfl, holds l₂ same₂⟩

theorem kvrawCall_extends (honours : fs.Honours contents) (h : kvraw.Holds contents rs)
    {call : RawCall} (proper : call.Proper) (small : logSize (extend rs call).2 < 2 ^ 64) :
    ∃ kvraw', kvrawCall fs kvraw call = .ok ((extend rs call).1, kvraw') ∧
      kvraw'.Holds contents (extend rs call).2 := by
  cases call with
  | append r =>
    obtain ⟨key, val, prev⟩ := r
    simp only [extend, RawCall.record, Option.toList_some, logSize_append, logSize_cons,
      logSize_nil, Nat.add_zero] at small
    obtain ⟨kvraw', append, holds⟩ := kvrawAppend_spec honours h key val prev proper small
    exact ⟨kvraw', by simp only [kvrawCall, append]; rfl, holds⟩
  | lookup keyLen val valLen off =>
    obtain ⟨buffer, ne⟩ := proper
    obtain ⟨reply, kvraw', lookup, holds⟩ :=
      @kvrawLookup_keeps _ _ _ _ _ honours h keyLen valLen off val buffer ne
    refine ⟨kvraw', by simp only [kvrawCall, lookup]; rfl, ?_⟩
    simpa [extend, RawCall.record] using holds

theorem proper_along (rs : List Rec) {calls : List RawCall}
    (proper : ∀ call ∈ calls, call.Proper) (small : logSize (rs ++ records calls) < 2 ^ 64) :
    Along extend (fun rs call => call.Proper ∧ logSize (extend rs call).2 < 2 ^ 64) rs calls := by
  induction calls generalizing rs with
  | nil => trivial
  | cons call calls ih =>
    have split : rs ++ records (call :: calls) = (extend rs call).2 ++ records calls := by
      rw [records_cons, extend, List.append_assoc]
    rw [split] at small
    refine ⟨⟨proper call List.mem_cons_self, ?_⟩, ?_⟩
    · rw [logSize_append] at small
      omega
    · exact ih _ (fun c mem => proper c (List.mem_cons_of_mem _ mem)) small

end

/-- Over a logfs that honours its contract, a handle opened without restore gives the appended
records increasing offsets, and every later lookup at one of them yields the record: the lengths,
the first bytes of key and value that fit the buffers, and the previous offset. -/
theorem kvraw_lookup_appended {σ : Type} (fs : LogfsOps σ) (contents : σ → Bytes)
    (honours : fs.Honours contents) (logfs : σ) (fresh : contents logfs = [])
    (calls : List RawCall) (proper : ∀ call ∈ calls, call.Proper)
    (small : logSize (dummy :: records calls) < 2 ^ 64) :
    ∃ kvraw os kvraw', kvrawOpen fs logfs = .ok (some kvraw) ∧
      replies (kvrawCall fs) kvraw calls = .ok (os, kvraw') ∧
      os.reduceOption.map Prod.snd = records calls ∧
      os.reduceOption.Pairwise (fun a b => a.1 < b.1) ∧
      os.reduceOption.Pairwise (fun a b => a.1 + a.2.size ≤ b.1) ∧
      ∀ e ∈ os.reduceOption, e.1 ≠ 0 ∧
        ∀ keyLen val valLen, (valLen ≠ 0 → val ≠ none) → ∃ kvraw'',
          kvrawLookup fs kvraw' keyLen val valLen e.1 =
            .ok (some ⟨e.2.key.take keyLen, e.2.key.length, fill val (e.2.val.take valLen),
              e.2.val.length, e.2.prev⟩, kvraw'') := by
  obtain ⟨kvraw, opened, start⟩ := kvrawOpen_spec honours fresh
  have along := proper_along [dummy] proper small
  obtain ⟨kvraw', run, holds⟩ := @replies_refine _ _ _ _ _ (kvrawCall fs) extend _
    (Kvraw.Holds contents)
    (fun _ _ _ holds ok => kvrawCall_extends honours holds ok.1 ok.2) calls kvraw [dummy]
    start along
  obtain ⟨log, entries⟩ := specified_extend [dummy] calls
  rw [log] at holds
  have apart := entriesFrom_apart (logSize [dummy]) (records calls)
  refine ⟨kvraw, _, kvraw', opened, run, ?_, ?_, ?_, ?_⟩ <;> rw [entries]
  · exact map_snd_entriesFrom _ _
  · apply apart.imp
    intro a b behind
    have := a.2.size_pos
    omega
  · exact apart
  · intro e mem
    have stored := entriesFrom_stored mem
    have behind := le_of_mem_entriesFrom mem
    have ne : e.1 ≠ 0 := by
      simp only [logSize_cons, size_dummy] at behind
      omega
    refine ⟨ne, fun keyLen val valLen buffer => ?_⟩
    obtain ⟨kvraw'', lookup, _⟩ := kvrawLookup_spec honours holds stored ne keyLen val valLen buffer
    exact ⟨kvraw'', lookup⟩

/-- Two records of one key, the second a tombstone, with a lookup of the first between them. -/
def tombstoneCalls : List RawCall :=
  [.append ⟨[7], [1, 2], 0⟩, .lookup 1 (some [0]) 1 18, .append ⟨[7], [], 18⟩]

theorem tombstoneCalls_proper : ∀ call ∈ tombstoneCalls, call.Proper := by
  simp only [tombstoneCalls, List.forall_mem_cons, RawCall.Proper]
  refine ⟨⟨?_, ?_, ?_, ?_⟩, ⟨fun _ => Option.some_ne_none _, ?_⟩, ⟨?_, ?_, ?_, ?_⟩, ?_⟩ <;> simp

theorem kvraw_lookup_appended_tombstone :
    ∃ kvraw os kvraw', kvrawOpen idealLogfs [] = .ok (some kvraw) ∧
      replies (kvrawCall idealLogfs) kvraw tombstoneCalls = .ok (os, kvraw') ∧
      os.reduceOption.map Prod.snd = [⟨[7], [1, 2], 0⟩, ⟨[7], [], 18⟩] ∧
      os.reduceOption.Pairwise (fun a b => a.1 + a.2.size ≤ b.1) ∧
      ∀ e ∈ os.reduceOption, ∃ kvraw'', kvrawLookup idealLogfs kvraw' 5 (some [0]) 1 e.1 =
        .ok (some ⟨e.2.key.take 5, e.2.key.length, fill (some [0]) (e.2.val.take 1),
          e.2.val.length, e.2.prev⟩, kvraw'') := by
  obtain ⟨kvraw, os, kvraw', opened, run, all, _, apart, lookups⟩ := kvraw_lookup_appended
    idealLogfs id idealLogfs_honours [] rfl tombstoneCalls tombstoneCalls_proper (by decide)
  exact ⟨kvraw, os, kvraw', opened, run, all, apart,
    fun e mem => (lookups e mem).2 5 (some [0]) 1 fun _ => Option.some_ne_none _⟩

end OsProjects.KeyValue
