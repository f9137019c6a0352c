import OsProjects.Persistent.WordMultiset

/-!
# One update and one removal

What `update` and `remove_node` make of any balanced search tree in the region: the
order, the depths and the balance afterwards, the items with their counts, and the two
counters. A tree in blocks of its own is `Rooted (HeldBy t)`; its depths are exact by
`Heap`. A new item needs blocks that the tree does not use, which is more than that its
allocations succeed: a removal may have freed a string that is still in the tree.
-/
namespace OsProjects.Persistent
open OsProjects.Library BinTree

/-- One more `x` in the items of a tree and in the counters. -/
structure Adds (x : Bytes) (scm : Scm) (t : BinTree Cell) (scm' : Scm) (t' : BinTree Cell) :
    Prop where
  items : scm'.items = (scm.items + 1) % 2 ^ 64
  present : (∃ c ∈ t.inorder, c.key = x) → scm'.unique = scm.unique ∧
    ∃ before n after, contents t.inorder = before ++ (x, n) :: after ∧
      contents t'.inorder = before ++ (x, (n + 1) % 2 ^ 64) :: after
  absent : (∀ c ∈ t.inorder, c.key ≠ x) → scm'.unique = (scm.unique + 1) % 2 ^ 64 ∧
    ∃ before after, contents t.inorder = before ++ after ∧
      contents t'.inorder = before ++ (x, 1) :: after

instance (t : BinTree Cell) : DecidablePred (HeldBy t) := fun _ =>
  inferInstanceAs (Decidable (_ ∨ ∃ _ ∈ _, _))

section
variable {scm scm' : Scm} {blocks blocks' : List Block} {t : BinTree Cell} {new : Cell} {x : Bytes}

theorem Updated.adds (h : Rooted (HeldBy t) scm blocks t)
    (done : Updated x (HeldBy t) scm blocks t.inorder (insertTree x new t) new scm' blocks') :
    Adds x scm t scm' (insertTree x new t) := by
  have ins : Inserted x new t.inorder (insertTree x new t).inorder :=
    insertTree_inserted h.increasing
  refine ⟨?_, fun present => ?_, fun absent => ?_⟩
  · by_cases present : ∃ c ∈ t.inorder, c.key = x
    · have state := (done.present present).2
      simp only [Scm.state, State.mk.injEq] at state
      exact state.1
    · have state := (done.absent fun c mem key => present ⟨c, mem, key⟩).2
      simp only [Scm.state, State.mk.injEq] at state
      exact state.1
  · have state := (done.present present).2
    simp only [Scm.state, State.mk.injEq] at state
    refine ⟨state.2.1, ?_⟩
    rcases ins with ⟨before, c, after, split, rfl, split'⟩ | ⟨before, after, split, _, less, greater⟩
    · exact ⟨contents before, c.count, contents after, by rw [split, contents_append, contents_cons],
        by rw [split', contents_append, contents_cons]; rfl⟩
    · obtain ⟨c, mem, rfl⟩ := present
      rw [split, List.mem_append] at mem
      rcases mem with mem | mem
      · exact absurd (less c mem) (strcmp_irrefl _)
      · exact absurd (greater c mem) (strcmp_irrefl _)
  · obtain ⟨made, state⟩ := done.absent absent
    simp only [Scm.state, State.mk.injEq] at state
    refine ⟨state.2.1, ?_⟩
    rcases ins with ⟨before, c, after, split, key, _⟩ | ⟨before, after, split, split', _, _⟩
    · exact absurd key (absent c (by simp [split]))
    · exact ⟨contents before, contents after, by rw [split, contents_append],
        by rw [split', contents_append, contents_cons, made.key, made.count]⟩

end

/-- `update` with a nonempty item keeps the order, the balance and the exact depths of every tree,
and adds the item, where no block that it is given is in use. -/
theorem update_adds (scm : Scm) (blocks : List Block) (t : BinTree Cell)
    (h : Rooted (HeldBy t) scm blocks t) (x : Item)
    (grants : (∀ c ∈ t.inorder, c.key ≠ x.bytes) → Grants scm x.bytes (HeldBy t)) :
    ∃ t' scm' blocks', update x.bytes (walkFuel scm) (root t) scm = .ok (root t', scm') ∧
      Rooted (HeldBy t') scm' blocks' t' ∧ Adds x.bytes scm t scm' t' := by
  obtain ⟨new, scm', blocks', ok, done⟩ :=
    update_spec _ h h.height_lt h.height_small x.ends grants
  exact ⟨insertTree x.bytes new t, scm', blocks', ok, h.updated done, done.adds h⟩

/-- `remove_node` keeps the balance and the exact depths of every tree, and makes it one lower at
most. -/
theorem remove_node_balanced (scm : Scm) (blocks : List Block) (t : BinTree Cell)
    (h : Rooted (HeldBy t) scm blocks t) (x : Bytes) :
    ∃ t' scm' blocks', removeNode (walkFuel scm) (root t) x scm = .ok (root t', scm') ∧
      scm'.Rep blocks' ∧ Owns blocks' t'.inorder ∧ Heap scm' t' ∧ t'.Balanced ∧
      (t'.height = t.height ∨ t'.height + 1 = t.height) := by
  obtain ⟨scm', ok, done⟩ := remove_spec (walkFuel scm) h h.height_lt h.height_small
  obtain ⟨balanced, le, ge⟩ := removeTree_balanced x h.balanced
  have owns : Owns (releaseAll (freed x t) blocks) (removeTree x t).inorder :=
    (h.owns.mono fun p n => placed_releaseAll.mpr).shrinks (removeTree_shrinks x t)
  exact ⟨removeTree x t, scm', _, ok, done.rep, owns, done.heap, balanced, by omega⟩

/-- What admitted edits leave in a file of zeros. -/
theorem fresh_run {capacity : Nat} {mapped : virtAddr + capacity < 2 ^ 64}
    (room : 8 + headerLen + stateLen ≤ capacity) (edits : List Edit)
    (admits : ∀ o, avlOpen (fun _ => 0) capacity mapped true = .ok o → ∀ scm, o = some scm →
      Admits KeepsItems scm edits) :
    ∃ scm₀ scm blocks t, avlOpen (fun _ => 0) capacity mapped true = .ok (some scm₀) ∧
      runEdits edits scm₀ = .ok scm ∧ Store scm blocks t := by
  obtain ⟨scm₀, blocks₀, ok, store₀, items, unique, _⟩ :=
    avlOpen_store (fun _ => 0) capacity mapped true rfl room
  have counts : Counts scm₀ .leaf 0 := ⟨rfl, by simp [contents], items, unique⟩
  obtain ⟨scm, blocks, t, run, store, _⟩ := run_counts edits store₀ counts (admits _ ok _ rfl)
  exact ⟨scm₀, scm, blocks, t, ok, run, store⟩

/-- The store after two insertions into an empty one. -/
def edits_two : List Edit := [.insert (.letter 97 a_ne_nul), .insert (.letter 98 b_ne_nul)]

set_option maxRecDepth 100000 in
set_option synthInstance.maxSize 1000 in
theorem edits_two_run : ∃ scm₀ scm blocks t,
    avlOpen (fun _ => 0) 400 (by decide) true = .ok (some scm₀) ∧
      runEdits edits_two scm₀ = .ok scm ∧ Store scm blocks t ∧
      contents t.inorder = [([97], 1), ([98], 1)] ∧ Grants scm [99] (HeldBy t) := by
  obtain ⟨scm₀, scm, blocks, t, ok, run, store⟩ :=
    @fresh_run 400 (by decide) (by decide) edits_two (by decide +kernel)
  have shows : ∀ o, avlOpen (fun _ => 0) 400 (by decide) true = .ok o → ∀ scm, o = some scm →
      ∀ scm', runEdits edits_two scm = .ok scm' → ∀ t, scm'.tree = .ok t →
        contents t.inorder = [([97], 1), ([98], 1)] ∧ Grants scm' [99] (HeldBy t) := by
    decide +kernel
  obtain ⟨items, grants⟩ := shows _ ok _ rfl _ run t store.tree_ok
  exact ⟨scm₀, scm, blocks, t, ok, run, store, items, grants⟩

theorem update_adds_third : ∃ scm blocks t, Rooted (HeldBy t) scm blocks t ∧
    contents t.inorder = [([97], 1), ([98], 1)] ∧
    ∃ t' scm' blocks', update [99] (walkFuel scm) (root t) scm = .ok (root t', scm') ∧
      Rooted (HeldBy t') scm' blocks' t' ∧ Adds [99] scm t scm' t' := by
  obtain ⟨_, scm, blocks, t, _, _, store, items, grants⟩ := edits_two_run
  exact ⟨scm, blocks, t, store.rooted, items,
    update_adds scm blocks t store.rooted (.letter 99 c_ne_nul) fun _ => grants⟩

/-- A node with one child takes over its string, and the string is freed. -/
def edits_shared : List Edit :=
  [.insert (.letter 97 a_ne_nul), .insert (.letter 98 b_ne_nul), .remove (.letter 97 a_ne_nul)]

set_option maxRecDepth 100000 in
set_option synthInstance.maxSize 1000 in
/-- In a file of 169 bytes `b` is in a string that is free, and `c` is written over it. -/
theorem edits_shared_run : ∃ scm blocks t, Rooted (HeldBy t) scm blocks t ∧
    contents t.inorder = [([98], 1)] ∧ Grants scm [99] (fun _ => False) ∧
    ∃ u, update [99] (walkFuel scm) (root t) scm = .ok u ∧
      ∃ v, traverse (walkFuel u.2) u.1 u.2 = .ok v ∧ v.1 = [([99], 1), ([99], 1)] := by
  obtain ⟨scm₀, scm, blocks, t, ok, run, store⟩ :=
    @fresh_run 169 (by decide) (by decide) edits_shared (by decide +kernel)
  have shows : ∀ o, avlOpen (fun _ => 0) 169 (by decide) true = .ok o → ∀ scm, o = some scm →
      ∀ scm', runEdits edits_shared scm = .ok scm' →
        (∀ t, scm'.tree = .ok t → contents t.inorder = [([98], 1)]) ∧
          Grants scm' [99] (fun _ => False) ∧
          ∃ u, update [99] (walkFuel scm') scm'.root scm' = .ok u ∧
            ∃ v, traverse (walkFuel u.2) u.1 u.2 = .ok v ∧ v.1 = [([99], 1), ([99], 1)] := by
    decide +kernel
  obtain ⟨items, grants, u, updated, visit⟩ := shows _ ok _ rfl _ run
  exact ⟨scm, blocks, t, store.rooted, items t store.tree_ok, grants, u, store.root ▸ updated, visit⟩

/-- That both allocations succeed is not enough. -/
theorem update_shares_string : ∃ scm blocks t, Rooted (HeldBy t) scm blocks t ∧
    contents t.inorder = [([98], 1)] ∧ Grants scm [99] (fun _ => False) ∧
    (∃ u, update [99] (walkFuel scm) (root t) scm = .ok u ∧
      ∃ v, traverse (walkFuel u.2) u.1 u.2 = .ok v ∧ v.1 = [([99], 1), ([99], 1)]) ∧
    ¬ ∃ t' scm' blocks', update [99] (walkFuel scm) (root t) scm = .ok (root t', scm') ∧
      Rooted (HeldBy t') scm' blocks' t' ∧ Adds [99] scm t scm' t' := by
  obtain ⟨scm, blocks, t, rooted, items, grants, u, ok, v, visit, twice⟩ := edits_shared_run
  refine ⟨scm, blocks, t, rooted, items, grants, ⟨u, ok, v, visit, twice⟩, ?_⟩
  rintro ⟨t', scm', blocks', ok', rooted', _⟩
  obtain rfl := Except.ok.inj (ok.symm.trans ok')
  obtain rfl := Except.ok.inj (visit.symm.trans
    (traverse_ok _ rooted'.heap rooted'.owns rooted'.rep rooted'.height_lt))
  have order := (increasing_iff _).mp rooted'.increasing
  rw [show contents t'.inorder = _ from twice] at order
  exact absurd order (by decide)

theorem remove_node_balanced_first : ∃ scm blocks t, Rooted (HeldBy t) scm blocks t ∧
    contents t.inorder = [([97], 1), ([98], 1)] ∧
    ∃ t' scm' blocks', removeNode (walkFuel scm) (root t) [97] scm = .ok (root t', scm') ∧
      scm'.Rep blocks' ∧ Owns blocks' t'.inorder ∧ Heap scm' t' ∧ t'.Balanced ∧
      (t'.height = t.height ∨ t'.height + 1 = t.height) := by
  obtain ⟨_, scm, blocks, t, _, _, store, items, _⟩ := edits_two_run
  exact ⟨scm, blocks, t, store.rooted, items,
    remove_node_balanced scm blocks t store.rooted [97]⟩

end OsProjects.Persistent
