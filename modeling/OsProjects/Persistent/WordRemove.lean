import OsProjects.Persistent.WordUpdate

/-!
# Removal in the region

`remove_node` on the pointers of a tree is `removeTree` on the tree, whatever it frees.
Marking a block as free changes no byte inside a block, so a string that is freed while
the tree still uses it can be read until the block is given away again.
-/
namespace OsProjects.Persistent
open OsProjects.Library BinTree

def releaseAll (freed : List Nat) (blocks : List Block) : List Block :=
  freed.foldl (fun blocks p => release p blocks) blocks

/-- What a removal of the item from the tree `t` does to the region. -/
structure Removed (x : Bytes) (scm : Scm) (blocks : List Block) (t : BinTree Cell) (scm' : Scm) :
    Prop where
  rep : scm'.Rep (releaseAll (freed x t) blocks)
  heap : Heap scm' (removeTree x t)
  same : Same blocks (fun p => p ∉ ptrs t.inorder ∧ p ≠ stateAt) scm scm'
  present : (∃ c ∈ t.inorder, c.key = x) → scm'.state = { scm.state with
    items := decr scm.state.items % 2 ^ 64
    unique := if freed x t = [] then scm.state.unique else decr scm.state.unique % 2 ^ 64 }
  absent : (∀ c ∈ t.inorder, c.key ≠ x) → scm'.state = scm.state

section
variable {scm scm' scm₁ : Scm} {blocks blocks₁ : List Block} {held : Nat → Prop} {c d s : Cell}
  {side : Side} {l r t a b : BinTree Cell} {p q n k : Nat} {x : Bytes} {gone : List Nat}

@[simp] theorem placed_releaseAll : Placed (releaseAll gone blocks) p n ↔ Placed blocks p n := by
  induction gone generalizing blocks with
  | nil => rfl
  | cons q gone ih => exact ih.trans placed_release

theorem mem_allocated_releaseAll :
    p ∈ allocated (releaseAll gone blocks) ↔ p ∈ allocated blocks ∧ p ∉ gone := by
  induction gone generalizing blocks with
  | nil => simp [releaseAll]
  | cons q gone ih =>
    refine ih.trans ?_
    rw [mem_allocated_release]
    simp only [List.mem_cons, not_or, and_assoc]

theorem removeTree_join (away : strcmp x c.key = order side) :
    removeTree x (join side c l r) = rebalance (join side c (removeTree x l) r) ∧
      freed x (join side c l r) = freed x l := by
  cases side <;> simp only [join, removeTree, freed, away, order, and_self]

theorem copyNode_spec (target : Placed blocks p nodeLen) (source : Placed blocks q nodeLen)
    (rep : scm.Rep blocks) :
    ∃ scm', copyNode p q scm = .ok ((), scm') ∧ Writes scm blocks p (scm.node q) scm' := by
  have length : 0 + (scm.mem.read q nodeLen).length ≤ nodeLen := by simp
  obtain ⟨rep', same⟩ := target.write rep length
  refine ⟨_, (if_pos (source.maps rep (by decide))).trans (poke_ok target rep (by decide) 0 _),
    rep', same, ?_⟩
  have load : ∀ w i, i + w ≤ nodeLen →
      (scm.mem.write (p + 0) (scm.mem.read q nodeLen)).load w (p + i) =
        scm.mem.load w (q + i) := by
    intro w i le
    have whole : i + w ≤ (scm.mem.read q nodeLen).length := by simpa using le
    simp only [Mem.load, Nat.add_zero]
    rw [Mem.read_write_inside _ whole, Mem.take_drop_read _ le]
  have depth := load 4 0 (by decide)
  rw [Nat.add_zero q, Nat.add_zero p] at depth
  simp only [Scm.node]
  rw [load 8 8 (by decide), load 8 16 (by decide), load 8 24 (by decide), load 8 32 (by decide)]
  simp only [Nat.add_zero, depth]

theorem freeNode_spec (rep : scm.Rep blocks) (base : Placed blocks stateAt stateLen)
    (node : Placed blocks p nodeLen) (string : Placed blocks (scm.node p).item k) :
    ∃ scm', freeNode p scm = .ok ((), scm') ∧
      scm'.Rep (releaseAll [(scm.node p).item, p] blocks) ∧ Same blocks (· ≠ stateAt) scm scm' ∧
      scm'.state = { scm.state with
        items := decr scm.state.items % 2 ^ 64
        unique := decr scm.state.unique % 2 ^ 64 } := by
  set i := (scm.node p).item with i_def
  obtain ⟨rep₁, keeps₁⟩ := scmFree_release rep string
  obtain ⟨rep₂, keeps₂⟩ := scmFree_release rep₁ (placed_release.mpr node)
  have base₂ : Placed (releaseAll [i, p] blocks) stateAt stateLen := placed_releaseAll.mpr base
  obtain ⟨scm₃, ok₃, rep₃, same₃, state₃⟩ := setItems_spec base₂ rep₂ decr
  obtain ⟨scm₄, ok₄, rep₄, same₄, state₄⟩ := setUnique_spec base₂ rep₃ decr
  have mono : ∀ q n, Placed blocks q n → Placed (releaseAll [i, p] blocks) q n :=
    fun q n => placed_releaseAll.mpr
  have same₂ : Same blocks (fun _ => True) scm (scmFree (scmFree scm i) p) :=
    keeps₁.same.trans keeps₂.same fun q n => placed_release.mpr
  refine ⟨scm₄, ?_, rep₄, ?_, ?_⟩
  · have first : free i scm = .ok ((), scmFree scm i) := rfl
    have second : free p (scmFree scm i) = .ok ((), scmFree (scmFree scm i) p) := rfl
    simp only [freeNode]
    rw [run_bind (getNode_ok node rep), run_bind first, run_bind second, run_bind ok₃, ok₄]
  · have same₂ := same₂.mono fun q (_ : q ≠ stateAt) => trivial
    exact (same₂.trans same₃ mono).trans same₄ mono
  · rw [state₄, state₃, same₂.state trivial base]

/-- Each cell of a tree can be read. -/
theorem Heap.cell (heap : Heap scm t) (mem : c ∈ t.inorder) :
    (scm.node c.ptr).count = c.count ∧ (scm.node c.ptr).item = c.item ∧
      Text scm c.item c.key := by
  induction t with
  | leaf => simp at mem
  | node d l r ihl ihr =>
    obtain ⟨fields, _, hl, hr⟩ := heap
    simp only [inorder, List.mem_append, List.mem_cons] at mem
    rcases mem with mem | rfl | mem
    · exact ihl hl mem
    · exact ⟨fields.count, fields.item, fields.text⟩
    · exact ihr hr mem

theorem leftmost_ok {fuel : Nat} (heap : Heap scm r) (owns : Owns blocks r.inorder)
    (rep : scm.Rep blocks) (ne : r ≠ .leaf) (enough : r.height ≤ fuel) (c : Cell) :
    leftmost fuel (root r) scm = .ok ((successor c r).ptr, scm) := by
  induction r generalizing fuel with
  | leaf => exact absurd rfl ne
  | node d l q ihl _ =>
    obtain ⟨fields, _, hl, _⟩ := heap
    have parted := owns.parted_node
    have left : (scm.node d.ptr).left = root l := fields.near
    simp only [height] at enough
    obtain ⟨fuel, rfl⟩ := Nat.exists_eq_succ_of_ne_zero (by omega : fuel ≠ 0)
    rw [root, leftmost, run_bind (getNode_ok parted.node rep), left]
    by_cases empty : l = .leaf
    · subst empty
      have zero : root (BinTree.leaf : BinTree Cell) = 0 := rfl
      rw [if_pos zero, run_pure]
      rfl
    · have more : root l ≠ 0 := fun zero => empty ((root_eq_zero parted.near rep).mp zero)
      have first : successor c (.node d l q) = successor c l := by
        obtain ⟨rest, split⟩ := inorder_eq_successor empty c
        simp only [successor, inorder] at split ⊢
        rw [split]
        simp
      rw [if_neg more, first]
      exact ihl hl parted.near empty (by omega)

/-- What the rebalancing at the end of a removal keeps. -/
theorem restoreBalance_spec (loose : Loose scm (join side c l r))
    (owns : Owns blocks (join side c l r).inorder) (rep : scm.Rep blocks)
    (small : (join side c l r).height + 2 < 2 ^ 31) :
    Turns (restoreBalance c.ptr) scm blocks (join side c l r) (rebalance (join side c l r)) := by
  cases side with
  | left => exact restoreBalance_turns loose owns rep small
  | right => exact restoreBalance_turns loose owns rep small

/-- One step down on a side. -/
theorem removeNode_side {fuel : Nat} (fields : Fields scm c side l r) (owns : Parted blocks c l r)
    (rep : scm.Rep blocks) (away : strcmp x c.key = order side) :
    removeNode (fuel + 1) c.ptr x scm = (removeNode fuel (root l) x >>= fun child =>
      setChild side c.ptr child >>= fun _ => restoreBalance c.ptr) scm := by
  have string := getString_ok fields.text owns.string rep
  have near := fields.near
  rw [removeNode, if_neg (owns.node.nonzero rep), run_bind (getNode_ok owns.node rep), fields.item,
    run_bind string, away]
  cases side with
  | left =>
    rw [← near]
    rfl
  | right =>
    rw [← near]
    rfl

/-- What `remove_node` returns for a tree. -/
def Removes (x : Bytes) (scm : Scm) (blocks : List Block) (t : BinTree Cell) (fuel : Nat) : Prop :=
  ∃ scm', removeNode fuel (root t) x scm = .ok (root (removeTree x t), scm') ∧
    Removed x scm blocks t scm'

theorem sub_ptrs (part : ∀ d ∈ l.inorder, d ∈ t.inorder) (inside : p ∈ ptrs l.inorder) :
    p ∈ ptrs t.inorder := by
  obtain ⟨d, mem, same⟩ := mem_ptrs.mp inside
  exact mem_ptrs.mpr ⟨d, part d mem, same⟩

theorem remove_descend {fuel : Nat} (h : Rooted held scm blocks (join side c l r))
    (small : (join side c l r).height + 3 < 2 ^ 31) (away : strcmp x c.key = order side)
    (ih : Removes x scm blocks l fuel) : Removes x scm blocks (join side c l r) (fuel + 1) := by
  obtain ⟨scm₁, ok₁, done⟩ := ih
  have parted := h.owns.parted
  obtain ⟨fields, _, _, hr⟩ := heap_join.mp h.heap
  have on_left : ∀ d ∈ l.inorder, d ∈ (join side c l r).inorder := fun d mem =>
    mem_inorder_join.mpr (Or.inr (Or.inl mem))
  obtain ⟨tree, blocks_eq⟩ := removeTree_join (l := l) (r := r) away
  have ⟨_, where_⟩ := mem_side h.increasing away
  -- the smaller tree is in its blocks
  set u := removeTree x l with u_def
  have less : Shrinks (join side c l r).inorder (join side c u r).inorder := by
    have := removeTree_shrinks x (join side c l r)
    rwa [tree, inorder_rebalance] at this
  have mono : ∀ p n, Placed blocks p n → Placed (releaseAll (freed x l) blocks) p n :=
    fun p n => placed_releaseAll.mpr
  have owns' := (h.owns.mono mono).shrinks less
  -- the root and the other subtree are as before
  have fields₁ := done.same.fields ((h.aside (Or.inl rfl)).imp And.right And.right) parted.node
    parted.string fields
  have hr₁ := done.same.heap parted.far
    (fun d mem => (h.aside (Or.inr mem)).imp And.right And.right) hr
  -- the rest of the function
  obtain ⟨hl, _, _, _⟩ := balanced_join.mp h.balanced
  have low : (join side c u r).height + 2 < 2 ^ 31 := by
    have : u.height ≤ l.height := (removeTree_balanced x hl).2.1
    simp only [height_join] at small ⊢
    omega
  obtain ⟨scm₂, ok₂, rep₂, same₂, heap₂⟩ := Turns.relink fields₁ (h.owns.mono mono).parted
    done.heap hr₁ owns' done.rep fun _ loose rep₂ => restoreBalance_spec loose owns' rep₂ low
  have state : scm₂.state = scm₁.state := by
    have off : stateAt ∉ ptrs (join side c u r).inorder := fun inside =>
      h.state_off (less.ptrs_sub inside)
    exact same₂.state off (mono _ _ h.base)
  refine ⟨scm₂, ?_, ?_, ?_, ?_, ?_, ?_⟩
  · rw [root_join, removeNode_side fields parted h.rep away, run_bind ok₁, ok₂, tree]
  · rw [blocks_eq]
    exact rep₂
  · rw [tree]
    exact heap₂
  · have old₁ : Same blocks (fun p => p ∉ ptrs (join side c l r).inorder ∧ p ≠ stateAt) scm scm₁ :=
      done.same.mono fun p out => ⟨fun inside => out.1 (sub_ptrs on_left inside), out.2⟩
    exact old₁.trans (same₂.mono fun p out inside => out.1 (less.ptrs_sub inside)) mono
  · intro present
    rw [state, blocks_eq]
    exact done.present (where_.mp present)
  · intro none_
    rw [state]
    exact done.absent fun d mem => none_ d (on_left d mem)

/-- The item is at the root. -/
theorem removeNode_found {fuel : Nat} (h : Rooted held scm blocks (.node c l r))
    (same : strcmp x c.key = .eq) :
    removeNode (fuel + 1) c.ptr x scm =
      (if 1 < c.count then
        setCount c.ptr (decr c.count) >>= fun _ => setItems decr >>= fun _ => pure c.ptr
      else if root l = 0 ∨ root r = 0 then
        if (if root l ≠ 0 then root l else root r) = 0 then
          freeNode c.ptr >>= fun _ => pure 0
        else
          copyNode c.ptr (if root l ≠ 0 then root l else root r) >>= fun _ =>
            freeNode (if root l ≠ 0 then root l else root r) >>= fun _ => restoreBalance c.ptr
      else
        leftmost fuel (root r) >>= fun temp => getNode temp >>= fun t =>
          setItem c.ptr t.item >>= fun _ => setCount c.ptr t.count >>= fun _ =>
          getString t.item >>= fun s => removeNode fuel (root r) s >>= fun right =>
          setChild .right c.ptr right >>= fun _ => restoreBalance c.ptr : Prog Nat) scm := by
  have parted := h.owns.parted_node
  obtain ⟨fields, _, _, _⟩ := h.heap
  have left : (scm.node c.ptr).left = root l := fields.near
  have right : (scm.node c.ptr).right = root r := fields.far
  rw [removeNode, if_neg (parted.node.nonzero h.rep), run_bind (getNode_ok parted.node h.rep),
    fields.item, run_bind (getString_ok fields.text parted.string h.rep), same]
  simp only [left, right, fields.count]

theorem remove_counted {fuel : Nat} (h : Rooted held scm blocks (.node c l r))
    (same : strcmp x c.key = .eq) (many : 1 < c.count) :
    Removes x scm blocks (.node c l r) (fuel + 1) := by
  have parted := h.owns.parted_node
  obtain ⟨fields, depth, hl, hr⟩ := h.heap
  have here : c ∈ (BinTree.node c l r).inorder := by simp
  have off := h.off_state c here
  have count_lt : c.count < 2 ^ 64 := by
    rw [← fields.count]
    exact Mem.load_lt _ 8 _
  have value : decr c.count % 2 ^ 64 = c.count - 1 := by
    simp only [decr]
    omega
  have tree : removeTree x (.node c l r) = .node (c.counted (c.count - 1)) l r := by
    simp only [removeTree, same, if_pos many]
  have freed_nil : freed x (.node c l r) = [] := by
    simp only [freed, same, if_pos many]
  -- `root->count--`
  obtain ⟨scm₁, ok₁, writes₁⟩ := setCount_spec parted.node h.rep (decr c.count)
  rw [value] at writes₁
  have fields₁ := fields.counted writes₁ parted.own parted.string
  obtain ⟨rep₁, same₁, node₁⟩ := writes₁
  -- `avl->state->items--`
  obtain ⟨scm₂, ok₂, rep₂, same₂, state₂⟩ := setItems_spec h.base rep₁ decr
  have fields₂ : Fields scm₂ (c.counted (c.count - 1)) .left l r :=
    same₂.fields (c := c.counted (c.count - 1)) off parted.node parted.string fields₁
  have depth₂ : (scm₂.node c.ptr).depth = max l.height r.height := by
    rw [same₂.node off.1 parted.node, node₁]
    exact depth
  have hl₂ := same₂.heap parted.near (fun d mem => h.off_state d (by simp [mem]))
    (same₁.heap parted.near (fun d mem => (parted.near_root d mem).imp_right And.left) hl)
  have hr₂ := same₂.heap parted.far (fun d mem => h.off_state d (by simp [mem]))
    (same₁.heap parted.far (fun d mem => (parted.far_root d mem).imp_right And.left) hr)
  refine ⟨scm₂, ?_, ?_, ?_, ?_, fun _ => ?_, fun none_ => ?_⟩
  · rw [root, removeNode_found h same, if_pos many, run_bind ok₁, run_bind ok₂, run_pure, tree]
    rfl
  · rw [freed_nil]
    exact rep₂
  · rw [tree]
    exact ⟨fields₂, depth₂, hl₂, hr₂⟩
  · have old₁ : Same blocks (fun p => p ∉ ptrs (BinTree.node c l r).inorder ∧ p ≠ stateAt) scm
        scm₁ := by
      apply same₁.mono
      rintro p out rfl
      exact out.1 (mem_ptrs.mpr ⟨c, here, rfl⟩)
    exact old₁.trans (same₂.mono fun p out => out.2) fun _ _ => id
  · rw [freed_nil, if_pos rfl, state₂, same₁.state off.1.symm h.base]
  · exact absurd (strcmp_eq_eq.mp same).symm (none_ c here)

theorem remove_leaf {fuel : Nat} (h : Rooted held scm blocks (.node c .leaf .leaf))
    (same : strcmp x c.key = .eq) (once : ¬ 1 < c.count) :
    Removes x scm blocks (.node c .leaf .leaf) (fuel + 1) := by
  have parted := h.owns.parted_node
  have fields := h.heap.1
  have here : c ∈ (BinTree.node c .leaf .leaf).inorder := by simp
  have tree : removeTree x (.node c .leaf .leaf) = .leaf := by
    simp only [removeTree, same, if_neg once, lone]
  have freed_eq : freed x (.node c .leaf .leaf) = [c.item, c.ptr] := by
    simp only [freed, same, if_neg once, lone]
  obtain ⟨scm₁, ok₁, rep₁, same₁, state₁⟩ :=
    freeNode_spec h.rep h.base parted.node (fields.item ▸ parted.string)
  rw [fields.item] at rep₁
  have zero : root (BinTree.leaf : BinTree Cell) = 0 := rfl
  refine ⟨scm₁, ?_, ?_, ?_, same₁.mono fun p out => out.2, fun _ => ?_, fun none_ => ?_⟩
  · rw [root, removeNode_found h same, if_neg once, zero]
    simp only [ne_eq, not_true_eq_false, if_false, or_self, if_true]
    rw [run_bind ok₁, run_pure, tree]
    rfl
  · rw [freed_eq]
    exact rep₁
  · rw [tree]
    trivial
  · rw [freed_eq, if_neg (by simp)]
    exact state₁
  · exact absurd (strcmp_eq_eq.mp same).symm (none_ c here)

/-- The node that takes the place of its parent. -/
theorem lone_child (only : lone l r = some (.node d a b))
    (h : Rooted held scm blocks (.node c l r)) :
    Rooted held scm blocks (.node d a b) ∧ d.ptr ≠ c.ptr ∧ d.item ≠ c.ptr ∧
      (root l = 0 ∨ root r = 0) ∧ (if root l ≠ 0 then root l else root r) = d.ptr ∧
      (BinTree.node d a b).height < (BinTree.node c l r).height ∧
      ∀ e ∈ (BinTree.node d a b).inorder, e.ptr ≠ c.ptr ∧ e.item ≠ c.ptr := by
  have parted := h.owns.parted_node
  have zero : root (BinTree.leaf : BinTree Cell) = 0 := rfl
  have there : d ∈ (BinTree.node d a b).inorder := by simp
  rcases lone_eq_some only with ⟨rfl, rfl⟩ | ⟨rfl, rfl⟩
  · have h : Rooted held scm blocks (join .left c (.node d a b) .leaf) := h
    have child := h.child
    have apart : ∀ e ∈ (BinTree.node d a b).inorder, e.ptr ≠ c.ptr ∧ e.item ≠ c.ptr := fun e mem =>
      (parted.near_root e mem).imp_right And.left
    refine ⟨child, (apart d there).1, (apart d there).2, Or.inr rfl, ?_, ?_, apart⟩
    · exact if_pos (parted.near.nodes d there |>.nonzero h.rep)
    · simp only [height]
      omega
  · have h : Rooted held scm blocks (join .right c (.node d a b) .leaf) := h
    have child := h.child
    have apart : ∀ e ∈ (BinTree.node d a b).inorder, e.ptr ≠ c.ptr ∧ e.item ≠ c.ptr := fun e mem =>
      (parted.far_root e mem).imp_right And.left
    refine ⟨child, (apart d there).1, (apart d there).2, Or.inl rfl, ?_, ?_, apart⟩
    · rw [zero]
      rfl
    · simp only [height]
      omega

theorem Fields.moved (fields : Fields scm d side t u)
    (writes : Writes scm blocks p (scm.node d.ptr) scm')
    (own : d.item ≠ p) (string : Placed blocks d.item (d.key.length + 1)) :
    Fields scm' (d.moved p) side t u := by
  obtain ⟨_, same, node⟩ := writes
  obtain ⟨count, item, near, far, text⟩ := fields
  exact ⟨(congrArg Node.count node).trans count, (congrArg Node.item node).trans item,
    (congrArg (Node.child side) node).trans near,
    (congrArg (Node.child side.other) node).trans far, same.text own string text⟩

theorem remove_lone {fuel : Nat} (h : Rooted held scm blocks (.node c l r))
    (small : (BinTree.node c l r).height + 3 < 2 ^ 31) (same : strcmp x c.key = .eq)
    (once : ¬ 1 < c.count) (only : lone l r = some (.node d a b)) :
    Removes x scm blocks (.node c l r) (fuel + 1) := by
  have parted := h.owns.parted_node
  have here : c ∈ (BinTree.node c l r).inorder := by simp
  have off := h.off_state c here
  have tree : removeTree x (.node c l r) = rebalance (.node (d.moved c.ptr) a b) := by
    simp only [removeTree, same, if_neg once, only]
  have freed_eq : freed x (.node c l r) = [d.item, d.ptr] := by
    simp only [freed, same, if_neg once, only]
  obtain ⟨child, apart, apart', empty, temp, lower, away⟩ := lone_child only h
  have parted_d := child.owns.parted_node
  obtain ⟨fields, depth, ha, hb⟩ := child.heap
  have less := lone_shrinks only c
  have off_ab : ∀ e ∈ (BinTree.node d a b).inorder, e.ptr ≠ stateAt ∧ e.item ≠ stateAt :=
    child.off_state
  -- `*root = *temp`
  obtain ⟨scm₁, ok₁, writes₁⟩ := copyNode_spec parted.node parted_d.node h.rep
  have fields₁ : Fields scm₁ (d.moved c.ptr) .left a b :=
    fields.moved writes₁ apart' parted_d.string
  obtain ⟨rep₁, same₁, _⟩ := writes₁
  have ha₁ := same₁.heap parted_d.near (fun e mem => away e (by simp [mem])) ha
  have hb₁ := same₁.heap parted_d.far (fun e mem => away e (by simp [mem])) hb
  -- the two frees and the counters
  have item₁ : (scm₁.node d.ptr).item = d.item := by
    rw [same₁.node apart parted_d.node]
    exact fields.item
  obtain ⟨scm₂, ok₂, rep₂, same₂, state₂⟩ :=
    freeNode_spec rep₁ h.base parted_d.node (item₁ ▸ parted_d.string)
  rw [item₁] at rep₂
  have mono : ∀ p n, Placed blocks p n → Placed (releaseAll [d.item, d.ptr] blocks) p n :=
    fun p n => placed_releaseAll.mpr
  have owns₁ : Owns blocks (BinTree.node (d.moved c.ptr) a b).inorder := h.owns.shrinks less
  have fields₂ : Fields scm₂ (d.moved c.ptr) .left a b :=
    same₂.fields ⟨off.1, (off_ab d (by simp)).2⟩ owns₁.parted_node.node owns₁.parted_node.string
      fields₁
  have ha₂ := same₂.heap parted_d.near (fun e mem => off_ab e (by simp [mem])) ha₁
  have hb₂ := same₂.heap parted_d.far (fun e mem => off_ab e (by simp [mem])) hb₁
  -- the rotations
  obtain ⟨scm₃, ok₃, rep₃, same₃, heap₃⟩ :=
    restoreBalance_turns ⟨fields₂, ha₂, hb₂⟩ (owns₁.mono mono) rep₂
      (by simp only [height] at small lower ⊢; omega)
  have state_off : stateAt ∉ ptrs (BinTree.node (d.moved c.ptr) a b).inorder := fun inside =>
    h.state_off (less.ptrs_sub inside)
  refine ⟨scm₃, ?_, ?_, ?_, ?_, fun _ => ?_, fun none_ => ?_⟩
  · have nonzero : ¬ d.ptr = 0 := parted_d.node.nonzero h.rep
    rw [root, removeNode_found h same, if_neg once, if_pos empty, temp, if_neg nonzero,
      run_bind ok₁, run_bind ok₂, tree]
    exact ok₃
  · rw [freed_eq]
    exact rep₃
  · rw [tree]
    exact heap₃
  · have old₁ : Same blocks (fun p => p ∉ ptrs (BinTree.node c l r).inorder ∧ p ≠ stateAt) scm
        scm₁ := by
      apply same₁.mono
      rintro p out rfl
      exact out.1 (mem_ptrs.mpr ⟨c, here, rfl⟩)
    have old₂ := old₁.trans (same₂.mono fun p out => out.2) fun _ _ => id
    exact old₂.trans (same₃.mono fun p out inside => out.1 (less.ptrs_sub inside)) mono
  · rw [freed_eq, if_neg (by simp), same₃.state state_off (mono _ _ h.base), state₂,
      same₁.state off.1.symm h.base]
  · exact absurd (strcmp_eq_eq.mp same).symm (none_ c here)

/-- The root takes over what the successor holds; the tree is otherwise as before. -/
theorem takeOver_spec (h : Rooted held scm blocks (.node c l r)) (ne : r ≠ .leaf)
    (s_def : s = successor c r) :
    ∃ scm₁ scm', setItem c.ptr s.item scm = .ok ((), scm₁) ∧
      setCount c.ptr s.count scm₁ = .ok ((), scm') ∧ Same blocks (· ≠ c.ptr) scm scm' ∧
      Fields scm' (s.moved c.ptr) .left l r ∧ Heap scm' l ∧ Rooted held scm' blocks r ∧
      getString s.item scm' = .ok (s.key, scm') := by
  have parted := h.owns.parted_node
  obtain ⟨fields, _, hl, hr⟩ := h.heap
  have mem : s ∈ r.inorder := by
    obtain ⟨rest, first⟩ := inorder_eq_successor ne c
    rw [first, s_def]
    exact List.mem_cons_self
  have apart := parted.far_root s mem
  obtain ⟨count, _, text⟩ := hr.cell mem
  have string := parted.far.strings s mem
  have count_lt : s.count < 2 ^ 64 := by
    rw [← count]
    exact Mem.load_lt _ 8 _
  obtain ⟨scm₁, ok₁, rep₁, same₁, node₁⟩ := setItem_spec parted.node h.rep (string.lt h.rep)
  obtain ⟨scm₂, ok₂, rep₂, same₂, node₂⟩ := setCount_spec parted.node rep₁ s.count
  rw [Nat.mod_eq_of_lt count_lt, node₁] at node₂
  have same₂ := same₁.trans same₂ fun _ _ => id
  have text₂ := same₂.text apart.2.1 string text
  refine ⟨scm₁, scm₂, ok₁, ok₂, same₂, ?_, ?_, ?_, getString_ok text₂ string rep₂⟩
  · exact ⟨congrArg Node.count node₂, congrArg Node.item node₂,
      (congrArg Node.left node₂).trans fields.near,
      (congrArg Node.right node₂).trans fields.far, text₂⟩
  · exact same₂.heap parted.near (fun e mem => (parted.near_root e mem).imp_right And.left) hl
  · have right : Rooted held scm blocks (join .right c r l) := h
    have child := right.child
    exact ⟨rep₂, h.base,
      same₂.heap parted.far (fun e mem => (parted.far_root e mem).imp_right And.left) hr,
      child.owns, child.balanced, child.increasing, child.all_held, child.off_state,
      child.state_held⟩

theorem remove_both {fuel : Nat} (h : Rooted held scm blocks (.node c l r))
    (small : (BinTree.node c l r).height + 3 < 2 ^ 31) (enough : r.height ≤ fuel)
    (same : strcmp x c.key = .eq) (once : ¬ 1 < c.count) (both : lone l r = none)
    (ih : ∀ scm', Rooted held scm' blocks r → Removes (successor c r).key scm' blocks r fuel) :
    Removes x scm blocks (.node c l r) (fuel + 1) := by
  have parted := h.owns.parted_node
  obtain ⟨hl_ne, hr_ne⟩ := lone_eq_none both
  have here : c ∈ (BinTree.node c l r).inorder := by simp
  have off := h.off_state c here
  have hr := h.heap.2.2.2
  obtain ⟨rest, first⟩ := inorder_eq_successor hr_ne c
  have tree : removeTree x (.node c l r) = rebalance (.node ((successor c r).moved c.ptr) l
      (removeTree (successor c r).key r)) := by
    simp only [removeTree, same, if_neg once, both]
  have freed_eq : freed x (.node c l r) = freed (successor c r).key r := by
    simp only [freed, same, if_neg once, both]
  have less : Shrinks (BinTree.node c l r).inorder
      (BinTree.node ((successor c r).moved c.ptr) l (removeTree (successor c r).key r)).inorder := by
    have := removeTree_shrinks x (.node c l r)
    rwa [tree, inorder_rebalance] at this
  generalize s_def : successor c r = s at *
  have mem : s ∈ r.inorder := by
    rw [first]
    exact List.mem_cons_self
  set u := removeTree s.key r with u_def
  obtain ⟨scm₁, scm₂, ok₁, ok₂, same₂, fields₂, hl₂, right₂, string₂⟩ :=
    takeOver_spec h hr_ne s_def.symm
  -- the successor is removed from the right subtree
  obtain ⟨scm₃, ok₃, done⟩ := ih scm₂ right₂
  have mono : ∀ p n, Placed blocks p n → Placed (releaseAll (freed s.key r) blocks) p n :=
    fun p n => placed_releaseAll.mpr
  have moved : Owns blocks (BinTree.node (s.moved c.ptr) l r).inorder :=
    h.owns.shrinks ((Shrinks.refl l.inorder).append ((Shrinks.refl r.inorder).moved mem c))
  have parted₂ := moved.parted_node
  have owns' := (h.owns.mono mono).shrinks less
  have item_off : s.item ≠ stateAt := (right₂.off_state s mem).2
  have fields₃ : Fields scm₃ (s.moved c.ptr) .left l r := done.same.fields
    ⟨⟨parted₂.flip.root_out.1, off.1⟩, parted₂.flip.root_out.2, item_off⟩ parted₂.node
    parted₂.string fields₂
  have hl₃ := done.same.heap parted₂.near (fun e mem =>
    have out := parted₂.flip.far_out e mem
    have off := h.off_state e (by simp [mem])
    ⟨⟨out.1, off.1⟩, out.2, off.2⟩) hl₂
  have low : (BinTree.node (s.moved c.ptr) l u).height + 2 < 2 ^ 31 := by
    have : u.height ≤ r.height := (removeTree_balanced s.key h.balanced.2.1).2.1
    simp only [height] at small ⊢
    omega
  -- the rest of the function
  have owns_flip : Owns (releaseAll (freed s.key r) blocks)
      (join .right (s.moved c.ptr) u l).inorder := owns'
  obtain ⟨scm₄, ok₄, rep₄, same₄, heap₄⟩ := Turns.relink fields₃.other
    (moved.mono mono).parted_node.flip done.heap hl₃ owns_flip done.rep
    fun _ loose rep₄ => restoreBalance_spec loose owns_flip rep₄ low
  have state : scm₄.state = scm₃.state := by
    have out : stateAt ∉ ptrs (BinTree.node (s.moved c.ptr) l u).inorder := fun inside =>
      h.state_off (less.ptrs_sub inside)
    exact same₄.state out (mono _ _ h.base)
  refine ⟨scm₄, ?_, ?_, ?_, ?_, fun _ => ?_, fun none_ => ?_⟩
  · have left_ne : root l ≠ 0 := fun zero => hl_ne ((root_eq_zero parted.near h.rep).mp zero)
    have right_ne : root r ≠ 0 := fun zero => hr_ne ((root_eq_zero parted.far h.rep).mp zero)
    obtain ⟨count, item, _⟩ := hr.cell mem
    have temp := leftmost_ok hr parted.far h.rep hr_ne enough c
    rw [s_def] at temp
    rw [root, removeNode_found h same, if_neg once, if_neg (not_or.mpr ⟨left_ne, right_ne⟩),
      run_bind temp, run_bind (getNode_ok (parted.far.nodes s mem) h.rep), item, count,
      run_bind ok₁, run_bind ok₂, run_bind string₂, run_bind ok₃, tree]
    exact ok₄
  · rw [freed_eq]
    exact rep₄
  · rw [tree]
    exact heap₄
  · have on_right : ∀ d ∈ r.inorder, d ∈ (BinTree.node c l r).inorder := fun d mem => by
      simp [mem]
    have not_root : ∀ p, p ∉ ptrs (BinTree.node c l r).inorder ∧ p ≠ stateAt → p ≠ c.ptr := by
      rintro p out rfl
      exact out.1 (mem_ptrs.mpr ⟨c, here, rfl⟩)
    have old₂ : Same blocks (fun p => p ∉ ptrs (BinTree.node c l r).inorder ∧ p ≠ stateAt) scm
        scm₂ := same₂.mono not_root
    have old₃ := old₂.trans (done.same.mono fun p out =>
      ⟨fun inside => out.1 (sub_ptrs on_right inside), out.2⟩) fun _ _ => id
    exact old₃.trans (same₄.mono fun p out inside => out.1 (less.ptrs_sub inside)) mono
  · rw [state, freed_eq, done.present ⟨s, mem, rfl⟩, same₂.state off.1.symm h.base]
  · exact absurd (strcmp_eq_eq.mp same).symm (none_ c here)

/-- `remove_node` removes from the tree, in all of its shapes. -/
theorem remove_spec (fuel : Nat) (h : Rooted held scm blocks t) (enough : t.height < fuel)
    (small : t.height + 3 < 2 ^ 31) : Removes x scm blocks t fuel := by
  induction t generalizing fuel x scm with
  | leaf =>
    obtain ⟨fuel, rfl⟩ := Nat.exists_eq_succ_of_ne_zero (by omega : fuel ≠ 0)
    exact ⟨scm, rfl, h.rep, trivial, Same.refl, by simp, fun _ => rfl⟩
  | node c l r ihl ihr =>
    obtain ⟨fuel, rfl⟩ := Nat.exists_eq_succ_of_ne_zero (by omega : fuel ≠ 0)
    have heights := small
    simp only [height] at enough heights
    rcases strcmp_cases x c.key with same | ⟨side, away⟩
    · by_cases many : 1 < c.count
      · exact remove_counted h same many
      · rcases only : lone l r with _ | _ | ⟨d, a, b⟩
        · exact remove_both h small (by omega) same many only fun scm' right =>
            ihr fuel right (by omega) (by omega)
        · rcases lone_eq_some only with ⟨rfl, rfl⟩ | ⟨rfl, rfl⟩ <;>
            exact remove_leaf h same many
        · exact remove_lone h small same many only
    · cases side with
      | left =>
        have h : Rooted held scm blocks (join .left c l r) := h
        exact remove_descend h (by simp only [height_join]; omega) away
          (ihl fuel h.child (by omega) (by omega))
      | right =>
        have h : Rooted held scm blocks (join .right c r l) := h
        exact remove_descend h (by simp only [height_join]; omega) away
          (ihr fuel h.child (by omega) (by omega))

end

end OsProjects.Persistent
