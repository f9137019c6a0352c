import OsProjects.Persistent.WordBalance

/-!
# An insertion that finds no room

`update` reports a failed allocation by a null pointer. The call above it stores that
pointer where a null pointer stood, settles a subtree that is as before, and returns its
own node. So a failure is reported where the tree is empty and nowhere else. An allocation
that succeeds may give a block that the tree still uses; what an insertion does there is
left open.
-/
namespace OsProjects.Persistent
open OsProjects.Library BinTree

/-- One of the two allocations of an insertion fails: that of the node, or that of the string
behind a node that has been granted and cleared. -/
inductive Refuses (scm : Scm) (x : Bytes) (held : Nat → Prop) : Prop
  | node {scm' : Scm} (full : malloc nodeLen scm = .ok (none, scm'))
  | string {p : Nat} {scm₁ scm₂ scm' : Scm} (grant : scm.grant nodeLen = some p) (free : ¬ held p)
      (given : malloc nodeLen scm = .ok (some p, scm₁))
      (cleared : poke p 0 (List.replicate nodeLen 0) scm₁ = .ok ((), scm₂))
      (full : strdup x scm₂ = .ok (none, scm'))

/-- No allocation of an insertion gives a block that is in use or that ends behind the file. -/
def Spares (scm : Scm) (x : Bytes) (held : Nat → Prop) : Prop :=
  Grants scm x held ∨ Refuses scm x held

/-- What a failed insertion leaves alone. -/
structure Refused (held : Nat → Prop) (scm : Scm) (blocks : List Block) (cells : List Cell)
    (scm' : Scm) (blocks' : List Block) : Prop where
  rep : scm'.Rep blocks'
  mono : ∀ p n, Placed blocks p n → Placed blocks' p n
  same : Same blocks (fun p => held p ∧ p ∉ ptrs cells) scm scm'

section
variable {scm scm' : Scm} {blocks blocks' : List Block} {held : Nat → Prop} {c : Cell}
  {side : Side} {l r t : BinTree Cell} {p n fuel : Nat} {x : Bytes}

/-- A scan that finds nothing changes nothing. -/
theorem scan_none (h : scan scm n fuel p = .ok (none, scm')) : scm' = scm := by
  induction fuel generalizing p with
  | zero => cases h
  | succ fuel ih =>
    rw [scan] at h
    split_ifs at h with more wild
    · by_cases fit : scm.mem.load 2 p = 0 ∧ n ≤ scm.mem.load 8 (p + 2)
      · simp [if_pos fit] at h
      · simp only [if_neg fit] at h
        exact ih h
    · cases h
      rfl

theorem malloc_none (h : malloc n scm = .ok (none, scm')) : scm' = scm := by
  simp only [malloc, scmMalloc] at h
  split_ifs at h with full
  · exact scan_none h
  · cases h

theorem strdup_none (h : strdup x scm = .ok (none, scm')) : scm' = scm := by
  simp only [strdup, scmStrdup] at h
  split at h
  · cases h
  · next scm₁ none_ =>
    cases h
    exact malloc_none none_
  · cases h

/-- Where the size checks decide correctly and what is held is allocated, the allocator grants both
blocks or refuses one. -/
theorem allocator_spares (rep : scm.Rep blocks) (blank : scm.Blank)
    (live : ∀ p, held p → p ∈ allocated blocks) (fits : scm.Fits nodeLen)
    (fits' : ∀ p scm', scmMalloc scm nodeLen = .ok (some p, scm') → scm'.Fits (x.length + 1)) :
    Spares scm x held := by
  cases grant : scm.grant nodeLen with
  | none => exact Or.inr (.node (scmMalloc_refused rep blank fits grant))
  | some p =>
    obtain ⟨scm₁, blocks₁, ok₁, alloc⟩ := scmMalloc_grant rep (by decide) grant
    have blank₁ := scmMalloc_blank rep blank fits ok₁
    have fits₁ := fits' p scm₁ ok₁
    have free : ¬ held p := fun inside => alloc.fresh (live p inside)
    cases grant' : scm₁.grant (x.length + 1) with
    | some q =>
      refine Or.inl ⟨p, grant, free, fun scm' ok => ?_⟩
      obtain ⟨-, rfl⟩ := Prod.mk.inj (Except.ok.inj (ok₁.symm.trans ok))
      obtain ⟨_, _, _, alloc'⟩ := scmMalloc_grant alloc.rep (Nat.succ_pos _) grant'
      exact ⟨q, grant', fun inside => alloc'.fresh ((alloc.live q).mpr (Or.inr (live q inside)))⟩
    | none =>
      have cleared := poke_ok alloc.placed alloc.rep (by decide) 0 (List.replicate nodeLen 0)
      obtain ⟨b, mem, rfl, le⟩ := alloc.placed
      have stop : b.ptr + 0 + (List.replicate nodeLen (0 : UInt8)).length ≤ b.stop := by
        simp only [List.length_replicate, Block.ptr, Block.stop] at *
        omega
      have rep₂ := alloc.rep.write mem (Nat.le_add_right _ _) stop
      have full := scmMalloc_refused (n := x.length + 1) rep₂ (blank₁.write alloc.rep mem stop)
        fits₁ ((grant_congr alloc.rep rep₂ rfl rfl _).trans grant')
      exact Or.inr (.string grant free ok₁ cleared (by rw [strdup, scmStrdup, full]))

theorem newNode_refused (rep : scm.Rep blocks) (refuses : Refuses scm x held) :
    ∃ scm' blocks', newNode x scm = .ok (0, scm') ∧ Refused held scm blocks [] scm' blocks' := by
  cases refuses with
  | node full =>
    obtain rfl := malloc_none full
    refine ⟨_, blocks, ?_, rep, fun _ _ => id, Same.refl⟩
    rw [newNode, run_bind full]
    rfl
  | @string p scm₁ scm₂ scm₃ grant free given cleared full =>
    obtain ⟨scm₁', scm₂', blocks₂, ok₁, ok₂, gains, _⟩ := mallocNode_spec rep grant
    obtain ⟨-, rfl⟩ := Prod.mk.inj (Except.ok.inj (ok₁.symm.trans given))
    obtain ⟨-, rfl⟩ := Prod.mk.inj (Except.ok.inj (ok₂.symm.trans cleared))
    obtain rfl := strdup_none full
    refine ⟨_, blocks₂, ?_, gains.rep, gains.mono, gains.same.mono ?_⟩
    · simp only [newNode]
      rw [run_bind given]
      simp only
      rw [run_bind cleared, run_bind full]
      rfl
    · rintro q inside rfl
      exact free inside.1

/-- One step down on a side: the rest of the function puts the subtree back and turns nothing. -/
theorem update_refused_descend (h : Rooted held scm blocks (join side c l r))
    (small : (join side c l r).height + 3 < 2 ^ 31) (away : strcmp x c.key = order side)
    (ih : ∃ scm' blocks', update x fuel (root l) scm = .ok (root l, scm') ∧
      Refused held scm blocks l.inorder scm' blocks' ∧ Heap scm' l) :
    ∃ scm' blocks', update x (fuel + 1) c.ptr scm = .ok (c.ptr, scm') ∧
      Refused held scm blocks (join side c l r).inorder scm' blocks' ∧
        Heap scm' (join side c l r) := by
  obtain ⟨scm₁, blocks₁, ok₁, done, hl⟩ := ih
  have parted := h.owns.parted
  obtain ⟨fields, _, _, hr⟩ := heap_join.mp h.heap
  obtain ⟨_, _, near⟩ := balanced_join.mp h.balanced
  -- the root and the other subtree are as before
  have fields₁ := done.same.fields
    ((h.aside (Or.inl rfl)).imp (fun a => ⟨a.1, a.2.1⟩) fun a => ⟨a.1, a.2.1⟩)
    parted.node parted.string fields
  have hr₁ := done.same.heap parted.far
    (fun d mem => (h.aside (Or.inr mem)).imp (fun a => ⟨a.1, a.2.1⟩) fun a => ⟨a.1, a.2.1⟩) hr
  have low : (join side c l r).height + 2 < 2 ^ 31 := by omega
  obtain ⟨scm₂, ok₂, rep₂, same₂, heap₂⟩ := relink_turns fields₁ (h.owns.mono done.mono).parted hl
    hr₁ (h.owns.mono done.mono) done.rep low (x := x) (Or.inl near)
  rw [settleTree_of_near near] at ok₂ heap₂
  refine ⟨scm₂, blocks₁, ?_, ⟨rep₂, done.mono, ?_⟩, heap₂⟩
  · rw [update_side fields parted h.rep away, run_bind ok₁, ok₂, root_join]
  · have old₁ : Same blocks (fun p => held p ∧ p ∉ ptrs (join side c l r).inorder) scm scm₁ := by
      apply done.same.mono
      rintro p ⟨inside, out⟩
      refine ⟨inside, fun below => out ?_⟩
      obtain ⟨d, mem, same⟩ := mem_ptrs.mp below
      exact mem_ptrs.mpr ⟨d, mem_inorder_join.mpr (Or.inr (Or.inl mem)), same⟩
    exact old₁.trans (same₂.mono fun p out => out.2) done.mono

/-- A failed `update` returns the tree it was given. -/
theorem update_refused (fuel : Nat) (h : Rooted held scm blocks t) (enough : t.height < fuel)
    (small : t.height + 3 < 2 ^ 31) (absent : ∀ d ∈ t.inorder, d.key ≠ x)
    (refuses : Refuses scm x held) :
    ∃ scm' blocks', update x fuel (root t) scm = .ok (root t, scm') ∧
      Refused held scm blocks t.inorder scm' blocks' ∧ Heap scm' t := by
  induction t generalizing fuel with
  | leaf =>
    obtain ⟨fuel, rfl⟩ := Nat.exists_eq_succ_of_ne_zero (by omega : fuel ≠ 0)
    obtain ⟨scm', blocks', ok, done⟩ := newNode_refused h.rep refuses
    exact ⟨scm', blocks', ok, done, trivial⟩
  | node c l r ihl ihr =>
    obtain ⟨fuel, rfl⟩ := Nat.exists_eq_succ_of_ne_zero (by omega : fuel ≠ 0)
    simp only [height] at enough small
    rcases strcmp_cases x c.key with same | ⟨side, away⟩
    · exact absurd (strcmp_eq_eq.mp same).symm (absent c (by simp))
    · cases side with
      | left =>
        have h : Rooted held scm blocks (join .left c l r) := h
        exact update_refused_descend h (by simp only [height_join]; omega) away
          (ihl fuel h.child (by omega) (by omega) fun d mem => absent d (by simp [mem]))
      | right =>
        have h : Rooted held scm blocks (join .right c r l) := h
        exact update_refused_descend h (by simp only [height_join]; omega) away
          (ihr fuel h.child (by omega) (by omega) fun d mem => absent d (by simp [mem]))

theorem Rooted.refused (h : Rooted held scm blocks t)
    (done : Refused held scm blocks t.inorder scm' blocks') (heap : Heap scm' t) :
    Rooted held scm' blocks' t ∧ scm'.state = scm.state :=
  ⟨⟨done.rep, done.mono _ _ h.base, heap, h.owns.mono done.mono, h.balanced, h.increasing,
    h.all_held, h.off_state, h.state_held⟩, done.same.state ⟨h.state_held, h.state_off⟩ h.base⟩

theorem Rooted.exists_eq (h : Rooted held scm blocks t) (at_root : scm.root = root t)
    (mem : (x, n) ∈ contents t.inorder) : avlExists scm x = .ok n := by
  have order := (increasing_iff _).mp h.increasing
  obtain ⟨k, ok, ⟨c, inside, key, rfl⟩ | ⟨none_, _⟩⟩ := h.exists_ok at_root x
  · have here : (x, c.count) ∈ contents t.inorder := List.mem_map.mpr ⟨c, inside, by rw [key]⟩
    rw [ok, ← count_bagOf order here, count_bagOf order mem]
  · obtain ⟨c, inside, same⟩ := List.mem_map.mp mem
    exact absurd (congrArg Prod.fst same) (none_ c inside)

theorem Rooted.exists_zero (h : Rooted held scm blocks t) (at_root : scm.root = root t)
    (absent : ∀ c ∈ t.inorder, c.key ≠ x) : avlExists scm x = .ok 0 := by
  obtain ⟨k, ok, ⟨c, inside, key, _⟩ | ⟨_, rfl⟩⟩ := h.exists_ok at_root x
  · exact absurd key (absent c inside)
  · exact ok

end

/-- What `avl_insert` promises: 0 exactly where the multiplicity has gone up by one, and the same
tree, in the same nodes, with the same counters otherwise. -/
def InsertSound (scm : Scm) (t : BinTree Cell) (x : Bytes) : Prop :=
  ∃ r scm', avlInsert x scm = .ok (r, scm') ∧
    (r = 0 ↔ ∃ n, avlExists scm x = .ok n ∧ avlExists scm' x = .ok ((n + 1) % 2 ^ 64)) ∧
    (r ≠ 0 → (∃ blocks', Rooted (HeldBy t) scm' blocks' t) ∧ scm'.root = scm.root ∧
      avlItems scm' = avlItems scm ∧ avlUnique scm' = avlUnique scm)

section
variable {scm : Scm} {blocks : List Block} {t : BinTree Cell}

theorem root_ne_zero (owns : Owns blocks t.inorder) (rep : scm.Rep blocks) (some_ : t ≠ .leaf) :
    root t ≠ 0 := by
  cases t with
  | leaf => exact absurd rfl some_
  | node c l r => exact (owns.nodes c (by simp)).nonzero rep

/-- With its allocations granted an insertion returns 0 and has raised the multiplicity. -/
theorem avl_insert_granted (h : Rooted (HeldBy t) scm blocks t) (at_root : scm.root = root t)
    (x : Item) (grants : (∀ c ∈ t.inorder, c.key ≠ x.bytes) → Grants scm x.bytes (HeldBy t)) :
    ∃ n scm', avlInsert x.bytes scm = .ok (0, scm') ∧ avlExists scm x.bytes = .ok n ∧
      avlExists scm' x.bytes = .ok ((n + 1) % 2 ^ 64) := by
  obtain ⟨new, scm₁, blocks₁, ok₁, done⟩ :=
    update_spec _ h h.height_lt h.height_small x.ends grants
  have adds := done.adds h
  have rooted₁ := h.updated done
  generalize insertTree x.bytes new t = t' at ok₁ adds rooted₁
  obtain ⟨scm₂, ok₂, rooted₂, _, _, root₂⟩ := rooted₁.setRoot
  have counts : ∃ n, avlExists scm x.bytes = .ok n ∧
      (x.bytes, (n + 1) % 2 ^ 64) ∈ contents t'.inorder := by
    by_cases present : ∃ c ∈ t.inorder, c.key = x.bytes
    · obtain ⟨_, before, n, after, split, split'⟩ := adds.present present
      exact ⟨n, h.exists_eq at_root (by simp [split]), by simp [split']⟩
    · have absent : ∀ c ∈ t.inorder, c.key ≠ x.bytes := fun c mem key => present ⟨c, mem, key⟩
      obtain ⟨_, before, after, _, split'⟩ := adds.absent absent
      exact ⟨0, h.exists_zero at_root absent, by simp [split']⟩
  obtain ⟨n, old, mem⟩ := counts
  have nonzero : root t' ≠ 0 := by
    refine root_ne_zero rooted₁.owns rooted₁.rep ?_
    rintro rfl
    simp [contents] at mem
  refine ⟨n, scm₂, ?_, old, rooted₂.exists_eq root₂ mem⟩
  simp only [avlInsert, at_root, ok₁, if_neg nonzero, ok₂]
  rfl

/-- With an allocation refused it changes nothing, and tells so for the empty tree only. -/
theorem avl_insert_refused (h : Rooted (HeldBy t) scm blocks t) (at_root : scm.root = root t)
    {x : Bytes} (absent : ∀ c ∈ t.inorder, c.key ≠ x) (refuses : Refuses scm x (HeldBy t)) :
    ∃ r scm' blocks', avlInsert x scm = .ok (r, scm') ∧ (r = 0 ↔ t ≠ .leaf) ∧
      Rooted (HeldBy t) scm' blocks' t ∧ scm'.state = scm.state := by
  obtain ⟨scm₁, blocks₁, ok₁, done, heap⟩ :=
    update_refused _ h h.height_lt h.height_small absent refuses
  obtain ⟨rooted₁, state₁⟩ := h.refused done heap
  by_cases empty : t = .leaf
  · subst empty
    refine ⟨-1, scm₁, blocks₁, ?_, by simp, rooted₁, state₁⟩
    simp only [avlInsert, at_root, ok₁]
    rfl
  · obtain ⟨scm₂, ok₂, rooted₂, items, unique, root₂⟩ := rooted₁.setRoot
    refine ⟨0, scm₂, blocks₁, ?_, by simp [empty], rooted₂, ?_⟩
    · simp only [avlInsert, at_root, ok₁, if_neg (root_ne_zero h.owns h.rep empty), ok₂]
      rfl
    · simp only [Scm.state, State.mk.injEq] at state₁ ⊢
      exact ⟨items.trans state₁.1, unique.trans state₁.2.1, root₂.trans at_root.symm⟩

/-- Between two stores of the same tree no multiplicity has gone up. -/
theorem not_raised {scm' : Scm} {blocks' : List Block} (h : Rooted (HeldBy t) scm blocks t)
    (at_root : scm.root = root t) (h' : Rooted (HeldBy t) scm' blocks' t)
    (state : scm'.state = scm.state) {x : Bytes} (absent : ∀ c ∈ t.inorder, c.key ≠ x) :
    ¬ ∃ n, avlExists scm x = .ok n ∧ avlExists scm' x = .ok ((n + 1) % 2 ^ 64) := by
  rintro ⟨n, old, raised⟩
  have at_root' : scm'.root = root t := (congrArg State.root state).trans at_root
  rw [h.exists_zero at_root absent, Except.ok.injEq] at old
  rw [h'.exists_zero at_root' absent, Except.ok.injEq, ← old] at raised
  omega

/-- So an insertion that fails in a tree with items goes unnoticed. -/
theorem not_insertSound (h : Rooted (HeldBy t) scm blocks t) (at_root : scm.root = root t)
    {x : Bytes} (absent : ∀ c ∈ t.inorder, c.key ≠ x) (refuses : Refuses scm x (HeldBy t))
    (some_ : t ≠ .leaf) : ¬ InsertSound scm t x := by
  obtain ⟨r, scm', _, ok, reports, rooted, state⟩ := avl_insert_refused h at_root absent refuses
  rintro ⟨r₁, scm₁, ok₁, exact_, _⟩
  obtain ⟨rfl, rfl⟩ := Prod.mk.inj (Except.ok.inj (ok.symm.trans ok₁))
  exact not_raised h at_root rooted state absent (exact_.mp (reports.mpr some_))

theorem insertSound_leaf (h : Rooted (HeldBy .leaf) scm blocks .leaf) (at_root : scm.root = 0)
    {x : Bytes} (refuses : Refuses scm x (HeldBy .leaf)) : InsertSound scm .leaf x := by
  have absent : ∀ c ∈ (BinTree.leaf : BinTree Cell).inorder, c.key ≠ x := by simp
  obtain ⟨r, scm', blocks', ok, reports, rooted, state⟩ :=
    avl_insert_refused h at_root absent refuses
  have failed : r ≠ 0 := fun zero => reports.mp zero rfl
  have same := not_raised h at_root rooted state absent
  simp only [Scm.state, State.mk.injEq] at state
  exact ⟨r, scm', ok, ⟨fun zero => absurd zero failed, fun raised => absurd raised same⟩,
    fun _ => ⟨⟨blocks', rooted⟩, state.2.2, state.1, state.2.1⟩⟩

/-- The item is there already; or no block is given that is in use, and the tree is empty or both
allocations succeed. -/
def Insertable (scm : Scm) (t : BinTree Cell) (x : Bytes) : Prop :=
  (∃ c ∈ t.inorder, c.key = x) ∨
    Spares scm x (HeldBy t) ∧ (t = .leaf ∨ Grants scm x (HeldBy t))

/-- `avl_insert` keeps its promise where the item is there already, or no block that it is given is in
use and the tree is empty or both allocations succeed; and of the insertions that are given no block in
use it keeps it for no others. -/
theorem avl_insert_sound (h : Rooted (HeldBy t) scm blocks t) (at_root : scm.root = root t)
    (x : Item) :
    (Insertable scm t x.bytes → InsertSound scm t x.bytes) ∧
      (InsertSound scm t x.bytes → Spares scm x.bytes (HeldBy t) → Insertable scm t x.bytes) := by
  have granted : ((∀ c ∈ t.inorder, c.key ≠ x.bytes) → Grants scm x.bytes (HeldBy t)) →
      InsertSound scm t x.bytes := by
    intro grants
    obtain ⟨n, scm', ok, old, raised⟩ := avl_insert_granted h at_root x grants
    exact ⟨0, scm', ok, ⟨fun _ => ⟨n, old, raised⟩, fun _ => rfl⟩, by simp⟩
  constructor
  · rintro (⟨c, mem, key⟩ | ⟨spares, rfl | grants⟩)
    · exact granted fun absent => absurd key (absent c mem)
    · rcases spares with grants | refuses
      · exact granted fun _ => grants
      · exact insertSound_leaf h at_root refuses
    · exact granted fun _ => grants
  · intro sound spares
    by_cases present : ∃ c ∈ t.inorder, c.key = x.bytes
    · exact Or.inl present
    · refine Or.inr ⟨spares, ?_⟩
      have absent : ∀ c ∈ t.inorder, c.key ≠ x.bytes := fun c mem key => present ⟨c, mem, key⟩
      rcases spares with grants | refuses
      · exact Or.inr grants
      · by_contra others
        exact not_insertSound h at_root absent refuses (fun empty => others (Or.inl empty)) sound

end

theorem avl_insert_sound_third : ∃ scm blocks t, Rooted (HeldBy t) scm blocks t ∧
    contents t.inorder = [([97], 1), ([98], 1)] ∧ Insertable scm t [99] ∧
    InsertSound scm t [99] := by
  obtain ⟨_, scm, blocks, t, _, _, store, items, grants⟩ := edits_two_run
  have insertable : Insertable scm t [99] := Or.inr ⟨Or.inl grants, Or.inr grants⟩
  exact ⟨scm, blocks, t, store.rooted, items, insertable,
    (avl_insert_sound store.rooted store.root (.letter 99 c_ne_nul)).1 insertable⟩

/-- `b` occurs twice when its string is freed. -/
def edits_shared_twice : List Edit :=
  [.insert (.letter 97 a_ne_nul), .insert (.letter 98 b_ne_nul), .insert (.letter 98 b_ne_nul),
    .remove (.letter 97 a_ne_nul)]

set_option maxRecDepth 100000 in
set_option synthInstance.maxSize 1000 in
/-- With both allocations granted, `c` is then there twice after one insertion. -/
theorem avl_insert_twice : ∃ scm scm' blocks t, Rooted (HeldBy t) scm blocks t ∧
    Grants scm [99] (fun _ => False) ∧ avlExists scm [99] = .ok 0 ∧
    avlInsert [99] scm = .ok (0, scm') ∧ avlExists scm' [99] = .ok 2 ∧
    ¬ InsertSound scm t [99] := by
  obtain ⟨scm₀, scm, blocks, t, ok, run, store⟩ :=
    @fresh_run 169 (by decide) (by decide) edits_shared_twice (by decide +kernel)
  have shows : ∀ o, avlOpen (fun _ => 0) 169 (by decide) true = .ok o → ∀ scm, o = some scm →
      ∀ scm', runEdits edits_shared_twice scm = .ok scm' →
        Grants scm' [99] (fun _ => False) ∧ (∃ n, avlExists scm' [99] = .ok n ∧ n = 0) ∧
          ∃ u, avlInsert [99] scm' = .ok u ∧ u.1 = 0 ∧
            ∃ n, avlExists u.2 [99] = .ok n ∧ n = 2 := by decide +kernel
  obtain ⟨grants, ⟨_, before, rfl⟩, ⟨_, scm'⟩, inserted, rfl, _, twice, rfl⟩ := shows _ ok _ rfl _ run
  refine ⟨scm, scm', blocks, t, store.rooted, grants, before, inserted, twice, ?_⟩
  rintro ⟨r, scm₁, ok₁, exact_, _⟩
  obtain ⟨rfl, rfl⟩ := Prod.mk.inj (Except.ok.inj (inserted.symm.trans ok₁))
  obtain ⟨n, old, raised⟩ := exact_.mp rfl
  obtain rfl := Except.ok.inj (before.symm.trans old)
  have := Except.ok.inj (twice.symm.trans raised)
  omega

set_option maxRecDepth 100000 in
set_option synthInstance.maxSize 1000 in
/-- A file with room for one item. -/
theorem avl_insert_unnoticed : ∃ scm₀ scm blocks t,
    avlOpen (fun _ => 0) 110 (by decide) true = .ok (some scm₀) ∧
      runEdits [.insert (.letter 97 a_ne_nul)] scm₀ = .ok scm ∧ Store scm blocks t ∧
      Refuses scm [98] (HeldBy t) ∧ ¬ InsertSound scm t [98] := by
  obtain ⟨scm₀, scm, blocks, t, ok, run, store⟩ :=
    @fresh_run 110 (by decide) (by decide) [.insert (.letter 97 a_ne_nul)] (by decide +kernel)
  have shows : ∀ o, avlOpen (fun _ => 0) 110 (by decide) true = .ok o → ∀ scm, o = some scm →
      ∀ scm', runEdits [.insert (.letter 97 a_ne_nul)] scm = .ok scm' →
        (∃ given, malloc nodeLen scm' = .ok given ∧ given.1 = none) ∧
          ∀ t, scm'.tree = .ok t → contents t.inorder = [([97], 1)] := by
    decide +kernel
  obtain ⟨⟨⟨_, scm'⟩, full, rfl⟩, items⟩ := shows _ ok _ rfl _ run
  have items := items t store.tree_ok
  have absent : ∀ c ∈ t.inorder, c.key ≠ [98] := by
    intro c mem key
    have there : (c.key, c.count) ∈ contents t.inorder := List.mem_map.mpr ⟨c, mem, rfl⟩
    simp [items, key] at there
  have some_ : t ≠ .leaf := by
    rintro rfl
    simp [contents] at items
  have refuses : Refuses scm [98] (HeldBy t) := .node full
  exact ⟨scm₀, scm, blocks, t, ok, run, store, refuses,
    not_insertSound store.rooted store.root absent refuses some_⟩

end OsProjects.Persistent
