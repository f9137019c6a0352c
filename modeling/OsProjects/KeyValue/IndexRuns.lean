import OsProjects.KeyValue.IndexMap
import OsProjects.Library.Refinement
import Mathlib.Data.List.Dedup

/-!
# Runs of the index

A client of the index updates keys, stores through the reference an update returns, and
looks keys up. Its past calls are the whole specification: a key is filed once it was
updated, and its offset is the last one stored, or 0.
-/
namespace OsProjects.KeyValue
open OsProjects.Library

/-- A call of `index_update`, with what the client stores through the reference, or of
`index_lookup`. -/
inductive IndexCall where
  | update (key : Bytes) (stored : Option Nat)
  | lookup (key : Bytes)
  deriving DecidableEq, Repr

/-- The bytes a call passes as its key. -/
def IndexCall.bytes : IndexCall → Bytes
  | .update key _ => key
  | .lookup key => key

/-- One call. The reply is the offset behind the returned reference, before the client
stores through it; `none` is NULL. -/
def Index.serve (overload : Nat → Nat → Bool) (index : Index) :
    IndexCall → Except Fault (Option Nat × Index)
  | .update key stored =>
    match indexUpdate overload index key with
    | .error e => .error e
    | .ok (ref, index) =>
      .ok (some (index.maps ref).off,
        match stored with
        | none => index
        | some off => index.store ref off)
  | .lookup key =>
    match indexLookup index key with
    | .error e => .error e
    | .ok ref => .ok (ref.map fun j => (index.maps j).off, index)

/-- The hash key a call updates. -/
def IndexCall.updated : IndexCall → Option Nat
  | .update key _ => some (indexKey key)
  | .lookup _ => none

/-- What a call stores at the hash key `k`. -/
def IndexCall.storedAt (k : Nat) : IndexCall → Option Nat
  | .update key stored => if indexKey key = k then stored else none
  | .lookup _ => none

/-- The map that the past calls leave. -/
def filed (past : List IndexCall) (k : Nat) : Option Nat :=
  if k ∈ past.filterMap IndexCall.updated then
    some ((past.filterMap (IndexCall.storedAt k)).getLast?.getD 0)
  else none

/-- The specification of one call: the reply that the past calls ask for. -/
def IndexCall.answer (past : List IndexCall) : IndexCall → Option Nat × List IndexCall
  | .update key stored =>
    (some ((filed past (indexKey key)).getD 0), past ++ [.update key stored])
  | .lookup key => (filed past (indexKey key), past ++ [.lookup key])

theorem filed_nil : filed [] = fun _ => none := rfl

theorem filed_lookup (past : List IndexCall) (key : Bytes) :
    filed (past ++ [.lookup key]) = filed past := by
  funext k
  simp [filed, List.filterMap_append, IndexCall.updated, IndexCall.storedAt]

/-- A store that nothing was filed under yet cannot have happened. -/
theorem storedAt_updated {past : List IndexCall} {k : Nat}
    (fresh : k ∉ past.filterMap IndexCall.updated) :
    past.filterMap (IndexCall.storedAt k) = [] := by
  rw [List.filterMap_eq_nil_iff]
  intro call member
  cases call with
  | lookup key => rfl
  | update key stored =>
    have other : indexKey key ≠ k := by
      rintro rfl
      exact fresh (List.mem_filterMap.mpr ⟨_, member, rfl⟩)
    simp [IndexCall.storedAt, other]

/-- The offset of a key, filed or not, is the last one stored. -/
theorem filed_getD (past : List IndexCall) (k : Nat) :
    (filed past k).getD 0 = (past.filterMap (IndexCall.storedAt k)).getLast?.getD 0 := by
  unfold filed
  split_ifs with old
  · rfl
  · simp [storedAt_updated old]

theorem filed_update (past : List IndexCall) (key : Bytes) (stored : Option Nat) :
    filed (past ++ [.update key stored]) = Function.update (filed past) (indexKey key)
      (some (stored.getD ((filed past (indexKey key)).getD 0))) := by
  funext k
  by_cases same : k = indexKey key
  · subst same
    rw [Function.update_self, filed_getD]
    have old : indexKey key ∈ (past ++ [IndexCall.update key stored]).filterMap IndexCall.updated := by
      simp [IndexCall.updated]
    have last : ∀ l : List Nat, (l ++ stored.toList).getLast?.getD 0 =
        stored.getD (l.getLast?.getD 0) := by
      intro l
      cases stored <;> simp
    have stores : (past ++ [IndexCall.update key stored]).filterMap
        (IndexCall.storedAt (indexKey key)) = past.filterMap (IndexCall.storedAt (indexKey key)) ++ stored.toList := by
      cases stored <;> simp [IndexCall.storedAt]
    rw [filed, if_pos old, stores, last]
  · have other : indexKey key ≠ k := Ne.symm same
    simp [filed, IndexCall.updated, IndexCall.storedAt, same, other]

/-- The past calls describe the table. -/
def Index.Files (index : Index) (past : List IndexCall) : Prop := index.Rep (filed past)

theorem Index.Files.opened : indexOpen.Files [] := by
  rw [Index.Files, filed_nil]
  exact Index.Rep.create 0

section
variable {overload : Nat → Nat → Bool} {index : Index} {past : List IndexCall}

theorem Index.Files.serve (h : index.Files past) (call : IndexCall) (reply : Option Nat)
    (index' : Index) (run : index.serve overload call = .ok (reply, index')) :
    reply = (call.answer past).1 ∧ index'.Files (call.answer past).2 := by
  cases call with
  | update key stored =>
    have ne : key ≠ [] := by
      rintro rfl
      simp [Index.serve, indexUpdate] at run
    obtain stop | ⟨⟨ref, next⟩, ok, rep, held⟩ := indexUpdate_spec overload h ne
    · simp [Index.serve, stop] at run
    · simp only [Index.serve, ok, Except.ok.injEq, Prod.mk.injEq] at run
      obtain ⟨rfl, rfl⟩ := run
      have off : (next.maps ref).off = (filed past (indexKey key)).getD 0 := congrArg Map.off held
      refine ⟨by simp [IndexCall.answer, off], ?_⟩
      simp only [IndexCall.answer, Index.Files, filed_update]
      cases stored with
      | none => exact rep
      | some off =>
        have stored_rep := rep.store (indexKey_ne_zero key) (congrArg Map.key held) off
        simpa using stored_rep
  | lookup key =>
    have ne : key ≠ [] := by
      rintro rfl
      simp [Index.serve, indexLookup] at run
    obtain ⟨ref, ok, found⟩ := indexLookup_spec h ne
    simp only [Index.serve, ok, Except.ok.injEq, Prod.mk.injEq] at run
    obtain ⟨rfl, rfl⟩ := run
    refine ⟨found, ?_⟩
    simpa only [IndexCall.answer, Index.Files, filed_lookup] using h

/-- A call stops the process only by the `EXIT` of `update`, unless its key is empty. -/
theorem Index.Files.stop (h : index.Files past) (call : IndexCall) (e : Fault)
    (run : index.serve overload call = .error e) :
    e = .exitSoftware ∨ e = .assertion ∧ call.bytes = [] := by
  by_cases empty : call.bytes = []
  · right
    cases call <;> simp_all [IndexCall.bytes, Index.serve, indexUpdate, indexLookup]
  · left
    cases call with
    | update key stored =>
      have ne : key ≠ [] := empty
      obtain stop | ⟨r, ok, _⟩ := indexUpdate_spec overload h ne
      · simp only [Index.serve, stop, Except.error.injEq] at run
        exact run.symm
      · simp [Index.serve, ok] at run
    | lookup key =>
      have ne : key ≠ [] := empty
      obtain ⟨ref, ok, _⟩ := indexLookup_spec h ne
      simp [Index.serve, ok] at run

/-- The number of entries is the number of distinct hash keys that were updated. -/
theorem Index.Files.size (h : index.Files past) :
    index.size = (past.filterMap IndexCall.updated).toFinset.card := by
  have keys : {k | filed past k ≠ none} = ↑(past.filterMap IndexCall.updated).toFinset := by
    ext k
    simp [filed]
  rw [Index.Rep.size h, keys, Set.ncard_coe_finset]

end

theorem specified_past (past calls : List IndexCall) :
    (specified IndexCall.answer past calls).2 = past ++ calls := by
  induction calls generalizing past with
  | nil => simp [specified]
  | cons call calls ih => cases call <;> simp [specified, IndexCall.answer, ih]

/-- Whatever the load test answers, the calls on a fresh index get the replies that their
past asks for, and the index counts the distinct hash keys; only `EXIT` can stop them. -/
theorem index_refines_map (overload : Nat → Nat → Bool) (calls : List IndexCall) :
    match replies (Index.serve overload) indexOpen calls with
    | .ok (offsets, index) =>
      offsets = (specified IndexCall.answer [] calls).1 ∧
        index.size = (calls.filterMap IndexCall.updated).toFinset.card
    | .error e => e = .exitSoftware ∨ e = .assertion ∧ ∃ call ∈ calls, call.bytes = [] := by
  have agrees := fun index past call reply index' h =>
    @Index.Files.serve overload index past h call reply index'
  split
  · rename_i offsets index run
    obtain ⟨same, rep⟩ := replies_agree agrees calls _ [] Index.Files.opened _ _ run
    rw [specified_past, List.nil_append] at rep
    exact ⟨same, rep.size⟩
  · rename_i e run
    obtain ⟨call, member, why⟩ := replies_error agrees
      (fun _ _ call e h => h.stop call e) calls _ [] Index.Files.opened e run
    obtain exits | ⟨asserts, empty⟩ := why
    · exact Or.inl exits
    · exact Or.inr ⟨asserts, call, member, empty⟩

end OsProjects.KeyValue
