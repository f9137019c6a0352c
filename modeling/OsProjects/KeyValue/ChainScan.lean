import OsProjects.KeyValue.Chains
import OsProjects.Library.Steps

/-!
# The chain lookup and a plain scan

In a log whose previous offsets point backwards every offset starts a chain. On each of
these chains `chain_lookup` leaves the caller what a scan would leave that always reads
the whole key and compares nothing but whole keys.
-/
namespace OsProjects.KeyValue
open OsProjects.Library

/-- Every previous offset is 0 or the offset of a record before. -/
def Chained (rs : List Rec) : Prop :=
  Steps (fun before r => r.prev = 0 ∨ ∃ r', Stored before r.prev r') rs

/-- The entries of a chain among the entries of a log, which come newest first. -/
def chainIn : List Entry → Nat → List Entry
  | [], _ => []
  | e :: es, off => if off ≠ 0 ∧ e.1 = off then e :: chainIn es e.2.prev else chainIn es off

/-- The chain that starts at an offset of the log, up to the previous offset 0. -/
def chainFrom (rs : List Rec) (off : Nat) : List Entry := chainIn (entriesFrom 0 rs).reverse off

/-- The plain scan: one lookup for each record, with room for every key. -/
def plainLookup {σ : Type} (fs : LogfsOps σ) : Nat → Kvraw σ → Bytes → Option Bytes → Nat → Nat →
    Except Fault (Option Chain × Kvraw σ)
  | 0, _, _, _, _, _ => .error .hang
  | fuel + 1, kvraw, key, val, valLen, off =>
    if off = 0 then .ok (some ⟨val, valLen, 0⟩, kvraw)
    else
      match kvrawLookup fs kvraw 0xffff val valLen off with
      | .error e => .error e
      | .ok (none, kvraw) => .ok (none, kvraw)
      | .ok (some f, kvraw) =>
        if f.key = key then .ok (some ⟨f.val, f.valLen, off⟩, kvraw)
        else plainLookup fs fuel kvraw key f.val valLen f.off

theorem stored_snoc {rs : List Rec} {r r' : Rec} {off : Nat} :
    Stored (rs ++ [r]) off r' ↔ Stored rs off r' ∨ off = logSize rs ∧ r' = r := by
  constructor
  · rintro ⟨before, after, split, rfl⟩
    obtain ⟨_, rfl, rfl⟩ | ⟨more, _, rfl⟩ := concat_eq_append_cons.mp split
    · exact Or.inr ⟨rfl, rfl⟩
    · exact Or.inl ⟨before, more, rfl, rfl⟩
  · rintro (stored | ⟨rfl, rfl⟩)
    · exact stored.append [r]
    · exact Stored.last rs r'

theorem chainFrom_snoc (rs : List Rec) (r : Rec) (off : Nat) :
    chainFrom (rs ++ [r]) off =
      if off ≠ 0 ∧ logSize rs = off then (logSize rs, r) :: chainFrom rs r.prev
      else chainFrom rs off := by
  simp [chainFrom, entriesFrom_append, entriesFrom, chainIn]

/-- The records of a chain lie in the log, each in front of the one before it. -/
structure IsChain (rs : List Rec) (off : Nat) (es : List Entry) : Prop where
  head : headOff es = off
  linked : Linked es
  stored : ∀ e ∈ es, Stored rs e.1 e.2 ∧ e.1 ≠ 0
  backwards : es.Pairwise fun a b => b.1 + b.2.size ≤ a.1

theorem IsChain.nil (rs : List Rec) : IsChain rs 0 [] :=
  ⟨rfl, trivial, by simp, List.Pairwise.nil⟩

theorem chainFrom_isChain {rs : List Rec} (chained : Chained rs) {off : Nat}
    (start : off = 0 ∨ ∃ r, Stored rs off r) : IsChain rs off (chainFrom rs off) := by
  induction rs using List.reverseRecOn generalizing off with
  | nil =>
    obtain rfl | ⟨r, stored⟩ := start
    · exact IsChain.nil []
    · cases stored.mem
  | append_singleton rs r ih =>
    obtain ⟨chained, prev⟩ := steps_append.mp chained
    have later : ∀ {off}, IsChain rs off (chainFrom rs off) →
        IsChain (rs ++ [r]) off (chainFrom rs off) := fun old =>
      ⟨old.head, old.linked, fun e mem => ⟨(old.stored e mem).1.append [r], (old.stored e mem).2⟩,
        old.backwards⟩
    rw [chainFrom_snoc]
    split_ifs with here
    · obtain ⟨ne, rfl⟩ := here
      have rest := ih chained prev
      refine ⟨rfl, ⟨rest.head.symm, rest.linked⟩, ?_, ?_⟩
      · intro e mem
        obtain rfl | mem := List.mem_cons.mp mem
        · exact ⟨Stored.last rs r, ne⟩
        · exact (later rest).stored e mem
      · apply List.Pairwise.cons _ rest.backwards
        intro e mem
        exact (rest.stored e mem).1.bound
    · apply later
      apply ih chained
      obtain rfl | ⟨r', stored⟩ := start
      · exact Or.inl rfl
      · obtain old | ⟨rfl, _⟩ := stored_snoc.mp stored
        · exact Or.inr ⟨r', old⟩
        · have first : logSize rs = 0 := by
            by_contra ne
            exact here ⟨ne, rfl⟩
          exact Or.inl first

/-- A chain takes no more records than the log has bytes. -/
theorem IsChain.length_le {rs : List Rec} {off : Nat} {es : List Entry} (h : IsChain rs off es) :
    es.length ≤ off := by
  obtain ⟨head, linked, stored, backwards⟩ := h
  induction es generalizing off with
  | nil => exact Nat.zero_le _
  | cons e es ih =>
    obtain rfl : e.1 = off := head
    obtain ⟨_, linked⟩ := linked
    obtain ⟨before, backwards⟩ := List.pairwise_cons.mp backwards
    obtain ⟨here, later⟩ := List.forall_mem_cons.mp stored
    have rest := ih rfl linked later backwards
    cases es with
    | nil =>
      have ne := here.2
      simp only [List.length_cons, List.length_nil]
      omega
    | cons e' es =>
      have apart := before e' List.mem_cons_self
      have pos := e'.2.size_pos
      simp only [headOff, List.length_cons] at rest ⊢
      omega

section
variable {σ : Type} {fs : LogfsOps σ} {contents : σ → Bytes}

theorem plainLookup_walk (honours : fs.Honours contents) {rs : List Rec} (key : Bytes)
    {valLen : Nat} (es : List Entry) (stored : ∀ e ∈ es, Stored rs e.1 e.2 ∧ e.1 ≠ 0)
    (linked : Linked es) (fuel : Nat) (enough : es.length < fuel) {kvraw : Kvraw σ} (h : kvraw.Holds contents rs)
    (val : Option Bytes) (buffer : valLen ≠ 0 → val ≠ none) :
    ∃ kvraw', plainLookup fs fuel kvraw key val valLen (headOff es) =
        .ok (some (walk key valLen es val), kvraw') ∧ kvraw'.Holds contents rs := by
  induction es generalizing fuel kvraw val with
  | nil =>
    obtain ⟨fuel, rfl⟩ : ∃ n, fuel = n + 1 := ⟨fuel - 1, by omega⟩
    exact ⟨kvraw, by simp [plainLookup, headOff, walk], h⟩
  | cons e es ih =>
    obtain ⟨fuel, rfl⟩ : ∃ n, fuel = n + 1 := ⟨fuel - 1, by omega⟩
    obtain ⟨off, r⟩ := e
    obtain ⟨⟨here, ne⟩, later⟩ := List.forall_mem_cons.mp stored
    obtain ⟨prev, linked⟩ := linked
    simp only at here ne prev
    obtain ⟨kvraw₁, first, h₁⟩ := kvrawLookup_spec honours h here ne 0xffff val valLen buffer
    have whole : r.key.take 0xffff = r.key := List.take_of_length_le (h.fits r here.mem).key_le
    simp only [headOff, plainLookup, if_neg ne, first, whole, walk]
    split_ifs with same
    · exact ⟨kvraw₁, rfl, h₁⟩
    · rw [prev]
      apply ih later linked fuel _ h₁ _ (fill_ne_none buffer _)
      simp only [List.length_cons] at enough
      omega

end

/-- On a well-formed log the chain lookup and the plain scan leave the same value buffer, length
and offset from every start: those of the newest record of the key in the chain, or offset 0 when
there is none. -/
theorem chain_lookup_plain {σ : Type} (fs : LogfsOps σ) (contents : σ → Bytes)
    (honours : fs.Honours contents) (rs : List Rec) (kvraw : Kvraw σ)
    (h : kvraw.Holds contents rs) (chained : Chained rs) (off : Nat)
    (start : off = 0 ∨ ∃ r, Stored rs off r) (key : Bytes) (val : Option Bytes) (valLen : Nat)
    (fits : valLen ≤ (val.getD []).length) :
    IsChain rs off (chainFrom rs off) ∧ ∃ c kvraw' kvraw'',
      chainLookup fs (kvraw.size + 1) kvraw key val valLen off = .ok (some c, kvraw') ∧
      plainLookup fs (kvraw.size + 1) kvraw key val valLen off = .ok (some c, kvraw'') ∧
      c.Reports val valLen (newest key (chainFrom rs off)) := by
  have chain := chainFrom_isChain chained start
  have short : (chainFrom rs off).length < kvraw.size + 1 := by
    have le := chain.length_le
    rw [h.size]
    obtain rfl | ⟨r, stored⟩ := start
    · omega
    · have bound := stored.bound
      omega
  have buffer : valLen ≠ 0 → val ≠ none := by
    rintro pos rfl
    simp only [Option.getD_none, List.length_nil] at fits
    omega
  obtain ⟨kvraw', fast, _⟩ := chainLookup_walk honours key _ chain.stored chain.linked _ short h
    val buffer
  obtain ⟨kvraw'', plain, _⟩ := plainLookup_walk honours key _ chain.stored chain.linked _ short h
    val buffer
  rw [chain.head] at fast plain
  exact ⟨chain, _, kvraw', kvraw'', fast, plain, walk_reports key _ fits⟩

/-- Three records of one chain whose keys have one length, the last two with one prefix. -/
def prefixRecs : List Rec :=
  [dummy, ⟨[9, 2, 3, 4, 5, 6, 7, 8, 9], [1], 0⟩, ⟨[1, 2, 3, 4, 5, 6, 7, 8, 9], [10, 11], 18⟩,
    ⟨[1, 2, 3, 4, 5, 6, 7, 8, 0], [12, 13, 14], 44⟩]

theorem prefixRecs_holds : (Kvraw.mk (logSize prefixRecs) (logBytes prefixRecs)).Holds id
    prefixRecs := by
  refine ⟨rfl, rfl, by decide, ?_⟩
  simp only [prefixRecs, dummy, List.forall_mem_cons]
  refine ⟨⟨?_, ?_, ?_, ?_⟩, ⟨?_, ?_, ?_, ?_⟩, ⟨?_, ?_, ?_, ?_⟩, ⟨?_, ?_, ?_, ?_⟩, ?_⟩ <;> simp

theorem chain_lookup_plain_prefix :
    ∃ c kvraw' kvraw'',
      chainLookup idealLogfs (logSize prefixRecs + 1) ⟨logSize prefixRecs, logBytes prefixRecs⟩
        [1, 2, 3, 4, 5, 6, 7, 8, 9] (some [0]) 1 71 = .ok (some c, kvraw') ∧
      plainLookup idealLogfs (logSize prefixRecs + 1) ⟨logSize prefixRecs, logBytes prefixRecs⟩
        [1, 2, 3, 4, 5, 6, 7, 8, 9] (some [0]) 1 71 = .ok (some c, kvraw'') ∧
      c.off = 44 ∧ c.valLen = 2 := by
  have chained : Chained prefixRecs := by
    have first : Chained ([] ++ [dummy]) := steps_append.mpr ⟨Steps.nil, Or.inl rfl⟩
    have second : Chained ([dummy] ++ [⟨[9, 2, 3, 4, 5, 6, 7, 8, 9], [1], 0⟩]) :=
      steps_append.mpr ⟨first, Or.inl rfl⟩
    have third : Chained (prefixRecs.take 2 ++ [⟨[1, 2, 3, 4, 5, 6, 7, 8, 9], [10, 11], 18⟩]) :=
      steps_append.mpr ⟨second, Or.inr ⟨_, Stored.last [dummy] _⟩⟩
    exact (@steps_append _ _ (prefixRecs.take 3) _).mpr
      ⟨third, Or.inr ⟨_, Stored.last (prefixRecs.take 2) _⟩⟩
  have start : Stored prefixRecs 71 ⟨[1, 2, 3, 4, 5, 6, 7, 8, 0], [12, 13, 14], 44⟩ :=
    ⟨prefixRecs.take 3, [], rfl, rfl⟩
  obtain ⟨_, c, kvraw', kvraw'', fast, plain, reports⟩ := chain_lookup_plain idealLogfs id
    idealLogfs_honours prefixRecs _ prefixRecs_holds chained 71 (Or.inr ⟨_, start⟩)
    [1, 2, 3, 4, 5, 6, 7, 8, 9] (some [0]) 1 (Nat.le_refl 1)
  have found : newest [1, 2, 3, 4, 5, 6, 7, 8, 9] (chainFrom prefixRecs 71) =
      some (44, ⟨[1, 2, 3, 4, 5, 6, 7, 8, 9], [10, 11], 18⟩) := by decide
  rw [found] at reports
  exact ⟨c, kvraw', kvraw'', fast, plain, reports.off, reports.valLen⟩

end OsProjects.KeyValue
