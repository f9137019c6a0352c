import OsProjects.Persistent.WordStore

/-!
# The blocks of the word tree

The blocks that are marked as allocated, against those that the tree refers to. They
agree as long as no removal moves a string from one node to another: such a removal frees
the string that stays in the tree and leaves the other one allocated.
-/
namespace OsProjects.Persistent
open OsProjects.Library BinTree

/-- The state block, the nodes and the strings of a tree. -/
def held (cells : List Cell) : List Nat := stateAt :: (ptrs cells ++ cells.map Cell.item)

/-- The allocated blocks are the state block and one block for each node and for each string. -/
def Tidy (scm : Scm) : Prop :=
  Chain scm.mem scm.addr scm.blocks (scm.addr + scm.utilized) ∧
    ∃ t, scm.tree = .ok t ∧ (allocated scm.blocks).Perm (held t.inorder)

/-- The allocations of an insertion succeed, and a removal does not take the last occurrence of an
item from a node with a child. -/
def KeepsBlocks (scm : Scm) : Edit → Prop
  | .insert x => Granted scm (.insert x)
  | .remove x => ∀ t, scm.tree = .ok t → ¬ Splices x.bytes t

instance (scm : Scm) : DecidablePred (KeepsBlocks scm)
  | .insert x => inferInstanceAs (Decidable (Granted scm (.insert x)))
  | .remove _ => inferInstanceAs (Decidable (∀ _, _ = _ → _))

section
variable {scm scm' : Scm} {blocks blocks' : List Block} {t : BinTree Cell} {c new : Cell}
  {x : Bytes} {cells cells' before after : List Cell} {q : Nat}

theorem mem_held : q ∈ held t.inorder ↔ HeldBy t q := by
  simp only [held, HeldBy, ptrs, List.mem_cons, List.mem_append, List.mem_map, eq_comm (a := q)]
  constructor
  · rintro (same | ⟨c, mem, same⟩ | ⟨c, mem, same⟩)
    · exact Or.inl same
    · exact Or.inr ⟨c, mem, Or.inl same⟩
    · exact Or.inr ⟨c, mem, Or.inr same⟩
  · rintro (same | ⟨c, mem, same | same⟩)
    · exact Or.inl same
    · exact Or.inr (Or.inl ⟨c, mem, same⟩)
    · exact Or.inr (Or.inr ⟨c, mem, same⟩)

theorem held_middle :
    (held (before ++ c :: after)).Perm (c.item :: c.ptr :: held (before ++ after)) := by
  apply List.perm_iff_count.mpr
  intro q
  simp only [held, ptrs, List.map_append, List.map_cons, List.count_cons, List.count_append]
  omega

theorem held_places (same : places cells = places cells') : held cells = held cells' := by
  have nodes : ∀ cells, ptrs cells = (places cells).map Prod.fst := fun cells => by
    simp [ptrs, places]
  have strings : ∀ cells : List Cell, cells.map Cell.item = (places cells).map Prod.snd :=
    fun cells => by simp [places]
  simp only [held, nodes, strings, same]

theorem Splices.of_doubles (h : Doubles x t) : Splices x t := by
  obtain ⟨c, l, r, here, once, left, _, _⟩ := h
  exact ⟨c, l, r, here, once, Or.inl left⟩

theorem Inserted.held_cells (h : Inserted x new cells cells') :
    (∃ c ∈ cells, c.key = x) ∧ held cells' = held cells ∨
      (∀ c ∈ cells, c.key ≠ x) ∧ (held cells').Perm (new.item :: new.ptr :: held cells) := by
  rcases h with ⟨before, c, after, rfl, key, rfl⟩ | ⟨before, after, rfl, rfl, less, greater⟩
  · exact Or.inl ⟨⟨c, by simp, key⟩, held_places (by simp [places, Cell.counted])⟩
  · refine Or.inr ⟨fun c mem same => ?_, held_middle⟩
    subst same
    rcases List.mem_append.mp mem with mem | mem
    · exact strcmp_irrefl _ (less c mem)
    · exact strcmp_irrefl _ (greater c mem)

/-- The tree in the memory accounts for the allocated blocks. -/
theorem Store.tidy (h : Store scm blocks t) (whole : (allocated blocks).Perm (held t.inorder)) :
    Tidy scm := by
  have rep := h.rooted.rep
  rw [Tidy, rep.blocks_eq]
  exact ⟨rep.chain, t, h.tree_ok, whole⟩

theorem Store.insert_blocks (h : Store scm blocks t)
    (whole : (allocated blocks).Perm (held t.inorder)) (y : Item)
    (keeps : KeepsBlocks scm (.insert y)) :
    ∃ scm' blocks' t', avlInsert y.bytes scm = .ok (0, scm') ∧ Store scm' blocks' t' ∧
      (allocated blocks').Perm (held t'.inorder) := by
  have grants : (∀ c ∈ t.inorder, c.key ≠ y.bytes) → Grants scm y.bytes (HeldBy t) := by
    intro none_
    refine ((keeps t h.tree_ok none_).fresh h.rooted.rep).imp fun p inside => Or.inr ?_
    exact whole.mem_iff.mpr (mem_held.mpr inside)
  obtain ⟨new, scm', blocks', ok, store, present, absent⟩ := h.insert y grants
  refine ⟨scm', blocks', _, ok, store, ?_⟩
  have ins : Inserted y.bytes new t.inorder (insertTree y.bytes new t).inorder :=
    insertTree_inserted h.rooted.increasing
  rcases ins.held_cells with ⟨here, same⟩ | ⟨none_, more⟩
  · rw [(present here).1, same]
    exact whole
  · have made := (absent none_).1
    have fresh : ∀ p, ¬ HeldBy t p → p ∉ allocated blocks := fun p free inside =>
      free (mem_held.mp (whole.mem_iff.mp inside))
    have distinct : (new.item :: new.ptr :: allocated blocks).Nodup := by
      refine List.nodup_cons.mpr ⟨?_, List.nodup_cons.mpr ⟨fresh _ made.fresh.1,
        h.rooted.rep.nodup_allocated⟩⟩
      rw [List.mem_cons, not_or]
      exact ⟨made.apart, fresh _ made.fresh.2⟩
    have granted : (allocated blocks').Perm (new.item :: new.ptr :: allocated blocks) := by
      refine (List.perm_ext_iff_of_nodup store.rooted.rep.nodup_allocated distinct).mpr fun q => ?_
      simp only [made.live, List.mem_cons]
    exact granted.trans (((whole.cons _).cons _).trans more.symm)

theorem Store.remove_blocks (h : Store scm blocks t)
    (whole : (allocated blocks).Perm (held t.inorder)) (single : ¬ Splices x t) :
    ∃ scm' blocks' t', avlRemove x scm = .ok (0, scm') ∧ Store scm' blocks' t' ∧
      (allocated blocks').Perm (held t'.inorder) := by
  obtain ⟨scm', ok, store, _, _⟩ := h.remove fun twice => single (Splices.of_doubles twice)
  refine ⟨scm', _, _, ok, store, ?_⟩
  rcases removeTree_places single with ⟨none_, same⟩ | ⟨before, c, after, split, gone, freed⟩
  · rw [none_, held_places same]
    exact whole
  · rw [split] at whole
    have perm := whole.trans held_middle
    have distinct := perm.nodup_iff.mp h.rooted.rep.nodup_allocated
    obtain ⟨item, rest⟩ := List.nodup_cons.mp distinct
    obtain ⟨ptr, rest⟩ := List.nodup_cons.mp rest
    refine (List.perm_ext_iff_of_nodup store.rooted.rep.nodup_allocated (gone ▸ rest)).mpr
      fun q => ?_
    rw [mem_allocated_releaseAll, perm.mem_iff, freed, gone]
    simp only [List.mem_cons, List.not_mem_nil, or_false, not_or]
    constructor
    · rintro ⟨rfl | rfl | mem, item', ptr'⟩
      · exact absurd rfl item'
      · exact absurd rfl ptr'
      · exact mem
    · rintro mem
      refine ⟨Or.inr (Or.inr mem), ?_, ?_⟩
      · rintro rfl
        exact item (List.mem_cons_of_mem _ mem)
      · rintro rfl
        exact ptr mem

theorem run_blocks (edits : List Edit) (h : Store scm blocks t)
    (whole : (allocated blocks).Perm (held t.inorder)) (admits : Admits KeepsBlocks scm edits) :
    ∃ scm', runEdits edits scm = .ok scm' ∧ Tidy scm' := by
  induction edits generalizing scm blocks t with
  | nil => exact ⟨scm, rfl, h.tidy whole⟩
  | cons e edits ih =>
    obtain ⟨keeps, rest⟩ := admits
    have step : ∃ scm' blocks' t', edit e scm = .ok (0, scm') ∧ Store scm' blocks' t' ∧
        (allocated blocks').Perm (held t'.inorder) := by
      cases e with
      | insert y => exact h.insert_blocks whole y keeps
      | remove y => exact h.remove_blocks whole (keeps t h.tree_ok)
    obtain ⟨scm₁, blocks₁, t₁, ok, store, whole₁⟩ := step
    simp only [runEdits, ok]
    exact ih store whole₁ (rest 0 scm₁ ok)

end

/-- In every run on a store that was opened empty the allocated blocks are those of the tree, as
long as the allocations succeed and no last occurrence is removed from a node with a child. -/
theorem avl_run_blocks (file : Mem) (capacity : Nat) (mapped : virtAddr + capacity < 2 ^ 64)
    (truncate : Bool) (empty : (scmOpen file capacity mapped truncate).utilized = 0)
    (room : 8 + headerLen + stateLen ≤ capacity) :
    ∃ scm, avlOpen file capacity mapped truncate = .ok (some scm) ∧
      ∀ edits, Admits KeepsBlocks scm edits → ∃ scm', runEdits edits scm = .ok scm' ∧ Tidy scm' := by
  obtain ⟨scm, blocks, ok, store, _, _, live⟩ :=
    avlOpen_store file capacity mapped truncate empty room
  have whole : (allocated blocks).Perm (held (inorder (.leaf : BinTree Cell))) := by
    refine (List.perm_ext_iff_of_nodup store.rooted.rep.nodup_allocated (by simp [held, ptrs])).mpr
      fun q => ?_
    rw [live]
    simp [held, ptrs]
  exact ⟨scm, ok, fun edits admits => run_blocks edits store whole admits⟩

def edits_ab_remove : List Edit :=
  [.insert (.letter 97 a_ne_nul), .insert (.letter 98 b_ne_nul),
    .remove (.letter 98 b_ne_nul), .remove (.letter 97 a_ne_nul)]

set_option maxRecDepth 100000 in
theorem avl_run_blocks_ab : ∃ scm scm', avlOpen (fun _ => 0) 400 (by decide) true = .ok (some scm) ∧
    runEdits edits_ab_remove scm = .ok scm' ∧ Tidy scm' := by
  obtain ⟨scm, ok, runs⟩ := avl_run_blocks (fun _ => 0) 400 (by decide) true
    (by decide +kernel) (by decide)
  have admits : ∀ o, avlOpen (fun _ => 0) 400 (by decide) true = .ok o → ∀ scm, o = some scm →
      Admits KeepsBlocks scm edits_ab_remove := by decide +kernel
  obtain ⟨scm', run, tidy⟩ := runs _ (admits _ ok scm rfl)
  exact ⟨scm, scm', ok, run, tidy⟩

def edits_child : List Edit :=
  [.insert (.letter 97 a_ne_nul), .insert (.letter 98 b_ne_nul),
    .remove (.letter 97 a_ne_nul)]

set_option maxRecDepth 100000 in
/-- Removing the root with one child leaves the string of the child in a block that is free. -/
theorem avl_run_splices :
    ∃ o, avlOpen (fun _ => 0) 400 (by decide) true = .ok o ∧ ∃ scm, o = some scm ∧
      Admits Granted scm edits_child ∧ ∃ scm', runEdits edits_child scm = .ok scm' ∧
        (∃ t, scm'.tree = .ok t ∧ t.inorder.map Cell.key = [[98]] ∧
          ∀ c ∈ t.inorder, c.item ∉ allocated scm'.blocks) ∧ ¬ Tidy scm' := by
  have run : ∃ o, avlOpen (fun _ => 0) 400 (by decide) true = .ok o ∧ ∃ scm, o = some scm ∧
      Admits Granted scm edits_child ∧ ∃ scm', runEdits edits_child scm = .ok scm' ∧
        ∃ t, scm'.tree = .ok t ∧ t.inorder.map Cell.key = [[98]] ∧
          ∀ c ∈ t.inorder, c.item ∉ allocated scm'.blocks := by decide +kernel
  obtain ⟨o, ok, scm, opened, admits, scm', run, t, tree, keys, freed⟩ := run
  refine ⟨o, ok, scm, opened, admits, scm', run, ⟨t, tree, keys, freed⟩, ?_⟩
  rintro ⟨_, t', tree', whole⟩
  obtain rfl := Except.ok.inj (tree.symm.trans tree')
  obtain ⟨c, single, _⟩ := List.map_eq_singleton_iff.mp keys
  have mem : c ∈ t.inorder := by simp [single]
  exact freed c mem (whole.mem_iff.mpr (mem_held.mpr (Or.inr ⟨c, mem, Or.inr rfl⟩)))

end OsProjects.Persistent
