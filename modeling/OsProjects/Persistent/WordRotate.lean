import OsProjects.Persistent.WordHeap

/-!
# Rotations of the pointers

The writes to the fields of a node, the depths as the heights of the subtrees, and the
rotations, which keep a tree in its blocks. The bound on the height keeps a depth inside
an `int`.
-/
namespace OsProjects.Persistent
open OsProjects.Library BinTree

def Node.withChild (n : Node) : Side → Nat → Node
  | .left, p => { n with left := p }
  | .right, p => { n with right := p }

theorem Node.child_count (n : Node) (v : Nat) (side : Side) :
    ({ n with count := v } : Node).child side = n.child side := by
  cases side <;> rfl

section
variable {scm scm' : Scm} {blocks : List Block} {K : Nat → Prop} {c a b : Cell} {side : Side}
  {t u x y z : BinTree Cell} {p v n : Nat}

/-- What a write to the node at `p` leaves behind. -/
structure Writes (scm : Scm) (blocks : List Block) (p : Nat) (node : Node) (scm' : Scm) :
    Prop where
  rep : scm'.Rep blocks
  same : Same blocks (· ≠ p) scm scm'
  node : scm'.node p = node

theorem poke_ok (placed : Placed blocks p n) (rep : scm.Rep blocks) (pos : 0 < n) (i : Nat)
    (bytes : Bytes) :
    poke p i bytes scm = .ok ((), { scm with mem := scm.mem.write (p + i) bytes }) :=
  if_pos (placed.maps rep pos)

/-- A write of a field of `w` bytes. -/
theorem pokeField_spec (placed : Placed blocks p nodeLen) (rep : scm.Rep blocks) (v : Nat)
    {i w : Nat} (fits : i + w ≤ nodeLen) :
    ∃ scm', poke p i (leBytes w v) scm = .ok ((), scm') ∧ scm'.Rep blocks ∧
      Same blocks (· ≠ p) scm scm' ∧ scm'.mem.load w (p + i) = v % 256 ^ w ∧
      ∀ w' j, j + w' ≤ i ∨ i + w ≤ j → scm'.mem.load w' (p + j) = scm.mem.load w' (p + j) := by
  have length : i + (leBytes w v).length ≤ nodeLen := by rwa [length_leBytes]
  obtain ⟨rep', same⟩ := placed.write rep length
  refine ⟨_, poke_ok placed rep (by decide) i _, rep', same, Mem.load_store_self _ w _ v, ?_⟩
  intro w' j apart
  exact Mem.load_store_of_apart scm.mem (by omega)

theorem setDepth_spec (placed : Placed blocks p nodeLen) (rep : scm.Rep blocks)
    (small : v < 2 ^ 31) :
    ∃ scm', setDepth p v scm = .ok ((), scm') ∧
      Writes scm blocks p { scm.node p with depth := v } scm' := by
  obtain ⟨scm', ok, rep', same, value, other⟩ :=
    pokeField_spec placed rep ((v : Int) % 2 ^ 32).toNat (by decide : 0 + 4 ≤ nodeLen)
  refine ⟨scm', ok, rep', same, ?_⟩
  have depth : scm'.mem.load 4 p = v := by
    have value : scm'.mem.load 4 p = ((v : Int) % 2 ^ 32).toNat % 256 ^ 4 := value
    omega
  simp only [Scm.node, depth, toInt, if_pos small]
  rw [other 8 8 (by omega), other 8 16 (by omega), other 8 24 (by omega), other 8 32 (by omega)]

theorem setCount_spec (placed : Placed blocks p nodeLen) (rep : scm.Rep blocks) (v : Nat) :
    ∃ scm', setCount p v scm = .ok ((), scm') ∧
      Writes scm blocks p { scm.node p with count := v % 2 ^ 64 } scm' := by
  obtain ⟨scm', ok, rep', same, value, other⟩ :=
    pokeField_spec placed rep v (by decide : 8 + 8 ≤ nodeLen)
  refine ⟨scm', ok, rep', same, ?_⟩
  have depth : scm'.mem.load 4 p = scm.mem.load 4 p := other 4 0 (by omega)
  have value : scm'.mem.load 8 (p + 8) = v % 2 ^ 64 := value
  simp only [Scm.node, depth, value]
  rw [other 8 16 (by omega), other 8 24 (by omega), other 8 32 (by omega)]

theorem setItem_spec (placed : Placed blocks p nodeLen) (rep : scm.Rep blocks)
    (small : v < 2 ^ 64) :
    ∃ scm', setItem p v scm = .ok ((), scm') ∧
      Writes scm blocks p { scm.node p with item := v } scm' := by
  obtain ⟨scm', ok, rep', same, value, other⟩ :=
    pokeField_spec placed rep v (by decide : 16 + 8 ≤ nodeLen)
  refine ⟨scm', ok, rep', same, ?_⟩
  have depth : scm'.mem.load 4 p = scm.mem.load 4 p := other 4 0 (by omega)
  have value : scm'.mem.load 8 (p + 16) = v := value.trans (Nat.mod_eq_of_lt small)
  simp only [Scm.node, depth, value]
  rw [other 8 8 (by omega), other 8 24 (by omega), other 8 32 (by omega)]

theorem setChild_spec (side : Side) (placed : Placed blocks p nodeLen) (rep : scm.Rep blocks)
    (small : v < 2 ^ 64) :
    ∃ scm', setChild side p v scm = .ok ((), scm') ∧
      Writes scm blocks p ((scm.node p).withChild side v) scm' := by
  cases side with
  | left =>
    obtain ⟨scm', ok, rep', same, value, other⟩ :=
      pokeField_spec placed rep v (by decide : 24 + 8 ≤ nodeLen)
    refine ⟨scm', ok, rep', same, ?_⟩
    have depth : scm'.mem.load 4 p = scm.mem.load 4 p := other 4 0 (by omega)
    have value : scm'.mem.load 8 (p + 24) = v := value.trans (Nat.mod_eq_of_lt small)
    simp only [Scm.node, Node.withChild, depth, value]
    rw [other 8 8 (by omega), other 8 16 (by omega), other 8 32 (by omega)]
  | right =>
    obtain ⟨scm', ok, rep', same, value, other⟩ :=
      pokeField_spec placed rep v (by decide : 32 + 8 ≤ nodeLen)
    refine ⟨scm', ok, rep', same, ?_⟩
    have depth : scm'.mem.load 4 p = scm.mem.load 4 p := other 4 0 (by omega)
    have value : scm'.mem.load 8 (p + 32) = v := value.trans (Nat.mod_eq_of_lt small)
    simp only [Scm.node, Node.withChild, depth, value]
    rw [other 8 8 (by omega), other 8 16 (by omega), other 8 24 (by omega)]

theorem root_lt (owns : Owns blocks t.inorder) (rep : scm.Rep blocks) : root t < 2 ^ 64 := by
  cases t with
  | leaf => decide
  | node c l r => exact (owns.nodes c (by simp)).lt rep

theorem root_eq_zero (owns : Owns blocks t.inorder) (rep : scm.Rep blocks) :
    root t = 0 ↔ t = .leaf := by
  cases t with
  | leaf => simp [root]
  | node c l r => simp [root, (owns.nodes c (by simp)).nonzero rep]

theorem delta_ok (heap : Heap scm t) (owns : Owns blocks t.inorder) (rep : scm.Rep blocks) :
    delta (root t) scm = .ok ((t.height : Int) - 1, scm) := by
  cases t with
  | leaf => rfl
  | node c l r =>
    have placed := owns.nodes c (by simp)
    have read : delta c.ptr = (getNode c.ptr >>= fun n => pure n.depth) :=
      if_neg (placed.nonzero rep)
    have height : ((BinTree.node c l r).height : Int) - 1 = max l.height r.height := by simp
    rw [height, root, read, run_bind (getNode_ok placed rep), run_pure, heap.2.1]

theorem depth_ok (ht : Heap scm t) (hu : Heap scm u) (owns_t : Owns blocks t.inorder)
    (owns_u : Owns blocks u.inorder) (rep : scm.Rep blocks) :
    depth (root t) (root u) scm = .ok (((max t.height u.height : Nat) : Int), scm) := by
  have value : (if (u.height : Int) - 1 < t.height - 1 then (t.height : Int) - 1 + 1
      else u.height - 1 + 1) = (max t.height u.height : Nat) := by
    split_ifs <;> omega
  simp only [depth]
  rw [run_bind (delta_ok ht owns_t rep), run_bind (delta_ok hu owns_u rep), run_pure, value]

theorem balance_ok {l r : BinTree Cell} (loose : Loose scm (.node c l r))
    (owns : Owns blocks (BinTree.node c l r).inorder) (rep : scm.Rep blocks) :
    balance c.ptr scm = .ok ((l.height : Int) - r.height, scm) := by
  obtain ⟨fields, hl, hr⟩ := loose
  have owns : Owns blocks (join .left c l r).inorder := owns
  have parted := owns.parted
  have left : (scm.node c.ptr).left = root l := fields.near
  have right : (scm.node c.ptr).right = root r := fields.far
  have value : (l.height : Int) - 1 - (r.height - 1) = l.height - r.height := by omega
  simp only [balance]
  rw [run_bind (getNode_ok parted.node rep), left, right,
    run_bind (delta_ok hl parted.near rep), run_bind (delta_ok hr parted.far rep), run_pure,
    value]

/-- Storing the depth makes the tree complete. -/
theorem setDepth_heap (loose : Loose scm (join side c t u))
    (owns : Owns blocks (join side c t u).inorder) (rep : scm.Rep blocks)
    (small : (join side c t u).height < 2 ^ 31) :
    ∃ scm', setDepth c.ptr (max t.height u.height : Nat) scm = .ok ((), scm') ∧
      scm'.Rep blocks ∧ Same blocks (· ≠ c.ptr) scm scm' ∧ Heap scm' (join side c t u) := by
  obtain ⟨fields, ht, hu⟩ := loose_join.mp loose
  have parted := owns.parted
  rw [height_join] at small
  obtain ⟨scm', ok, rep', same, node⟩ :=
    setDepth_spec parted.node rep (by omega : max t.height u.height < 2 ^ 31)
  refine ⟨scm', ok, rep', same, heap_join.mpr ⟨?_, ?_, ?_, ?_⟩⟩
  · obtain ⟨count, item, near, far, text⟩ := fields
    refine ⟨by rw [node]; exact count, by rw [node]; exact item, ?_, ?_,
      same.text parted.own parted.string text⟩
    · rw [node, ← near]
      cases side <;> rfl
    · rw [node, ← far]
      cases side <;> rfl
  · rw [node]
  · exact same.heap parted.near (fun e mem => (parted.near_root e mem).imp_right And.left) ht
  · exact same.heap parted.far (fun e mem => (parted.far_root e mem).imp_right And.left) hu

theorem updateDepth_heap (loose : Loose scm (join side c t u))
    (owns : Owns blocks (join side c t u).inorder) (rep : scm.Rep blocks)
    (small : (join side c t u).height < 2 ^ 31) :
    ∃ scm', updateDepth c.ptr scm = .ok ((), scm') ∧
      scm'.Rep blocks ∧ Same blocks (· ≠ c.ptr) scm scm' ∧ Heap scm' (join side c t u) := by
  obtain ⟨l, r, split⟩ : ∃ l r, join side c t u = join .left c l r := by
    cases side with
    | left => exact ⟨t, u, rfl⟩
    | right => exact ⟨u, t, rfl⟩
  rw [split] at loose owns small ⊢
  have parted := owns.parted
  obtain ⟨fields, hl, hr⟩ := loose_join.mp loose
  obtain ⟨scm', ok, rest⟩ := setDepth_heap loose owns rep small
  refine ⟨scm', ?_, rest⟩
  have left : (scm.node c.ptr).left = root l := fields.near
  have right : (scm.node c.ptr).right = root r := fields.far
  simp only [updateDepth]
  rw [run_bind (getNode_ok parted.node rep), left, right,
    run_bind (depth_ok hl hr parted.near parted.far rep), ok]

theorem Node.withChild_count (n : Node) (side : Side) (v : Nat) :
    (n.withChild side v).count = n.count := by
  cases side <;> rfl

theorem Node.withChild_item (n : Node) (side : Side) (v : Nat) :
    (n.withChild side v).item = n.item := by
  cases side <;> rfl

theorem Node.withChild_child (n : Node) (side : Side) (v : Nat) :
    (n.withChild side v).child side = v := by
  cases side <;> rfl

theorem Node.withChild_other (n : Node) (side : Side) (v : Nat) :
    (n.withChild side v).child side.other = n.child side.other := by
  cases side <;> rfl

theorem setChild_fields (fields : Fields scm c side x u) (parted : Parted blocks c x u)
    (rep : scm.Rep blocks) (small : root t < 2 ^ 64) :
    ∃ scm', setChild side c.ptr (root t) scm = .ok ((), scm') ∧
      scm'.Rep blocks ∧ Same blocks (· ≠ c.ptr) scm scm' ∧ Fields scm' c side t u := by
  obtain ⟨scm', ok, rep', same, node⟩ := setChild_spec side parted.node rep small
  obtain ⟨count, item, near, far, text⟩ := fields
  refine ⟨scm', ok, rep', same, ?_, ?_, ?_, ?_, same.text parted.own parted.string text⟩
  · rw [node, Node.withChild_count, count]
  · rw [node, Node.withChild_item, item]
  · rw [node, Node.withChild_child]
  · rw [node, Node.withChild_other, far]

theorem Fields.counted {v : Nat} (fields : Fields scm c side t u)
    (writes : Writes scm blocks c.ptr { scm.node c.ptr with count := v } scm')
    (own : c.item ≠ c.ptr) (string : Placed blocks c.item (c.key.length + 1)) :
    Fields scm' (c.counted v) side t u := by
  obtain ⟨_, same, node⟩ := writes
  obtain ⟨_, item, near, far, text⟩ := fields
  refine ⟨congrArg Node.count node, (congrArg Node.item node).trans item, ?_, ?_,
    same.text own string text⟩
  · exact (congrArg (Node.child side) node).trans ((Node.child_count _ v side).trans near)
  · exact (congrArg (Node.child side.other) node).trans ((Node.child_count _ v side.other).trans far)

@[simp] theorem root_join : root (join side c t u) = c.ptr := by
  cases side <;> rfl

theorem inorder_join_join :
    (join side b x (join side a y z)).inorder = (join side a (join side b x y) z).inorder := by
  rw [← rotate_join, inorder_rotate]

/-- The rotation of the pointers is that of the tree. -/
theorem rotate_spec (loose : Loose scm (join side a (join side b x y) z))
    (owns : Owns blocks (join side a (join side b x y) z).inorder) (rep : scm.Rep blocks)
    (small : (join side a (join side b x y) z).height + 1 < 2 ^ 31) :
    ∃ scm', rotate side a.ptr scm = .ok (b.ptr, scm') ∧ scm'.Rep blocks ∧
      Same blocks (fun p => p ≠ a.ptr ∧ p ≠ b.ptr) scm scm' ∧
      Heap scm' (join side b x (join side a y z)) := by
  obtain ⟨fields, inner, hz⟩ := loose_join.mp loose
  obtain ⟨fields_b₀, _, hx, hy⟩ := heap_join.mp inner
  have outer := owns.parted
  have parted := outer.near.parted
  have owns' : Owns blocks (join side b x (join side a y z)).inorder := inorder_join_join ▸ owns
  have parted' := owns'.parted
  have b_mem : b ∈ (join side b x y).inorder := mem_inorder_join.mpr (Or.inl rfl)
  have apart := outer.near_root b b_mem
  have in_x : ∀ e ∈ x.inorder, e.ptr ≠ a.ptr ∧ e.item ≠ a.ptr := fun e mem =>
    (outer.near_root e (mem_inorder_join.mpr (Or.inr (Or.inl mem)))).imp_right And.left
  have in_y : ∀ e ∈ y.inorder, e.ptr ≠ a.ptr ∧ e.item ≠ a.ptr := fun e mem =>
    (outer.near_root e (mem_inorder_join.mpr (Or.inr (Or.inr mem)))).imp_right And.left
  have in_z : ∀ e ∈ z.inorder, e.ptr ≠ a.ptr ∧ e.item ≠ a.ptr := fun e mem =>
    (outer.far_root e mem).imp_right And.left
  have on_x : ∀ e ∈ x.inorder, e.ptr ≠ b.ptr ∧ e.item ≠ b.ptr := fun e mem =>
    (parted.near_root e mem).imp_right And.left
  have on_y : ∀ e ∈ y.inorder, e.ptr ≠ b.ptr ∧ e.item ≠ b.ptr := fun e mem =>
    (parted.far_root e mem).imp_right And.left
  have on_z : ∀ e ∈ z.inorder, e.ptr ≠ b.ptr ∧ e.item ≠ b.ptr := fun e mem =>
    have := outer.across b b_mem e mem
    ⟨this.1.symm, this.2.2.symm⟩
  simp only [height_join] at small
  -- `node->left = root->right`
  obtain ⟨scm₁, ok₁, rep₁, same₁, fields₁⟩ :=
    setChild_fields fields outer rep (root_lt parted.far rep)
  have fields_b := same₁.fields ⟨apart.1, apart.2.1⟩ parted.node parted.string fields_b₀
  -- `root->right = node`
  have root_a : root (join side a y z) < 2 ^ 64 := by
    rw [root_join]
    exact outer.node.lt rep
  obtain ⟨scm₂, ok₂, rep₂, same₂, fields_b⟩ :=
    setChild_fields fields_b.other parted.flip rep₁ root_a
  have fields₂ := same₂.fields ⟨apart.1.symm, apart.2.2.symm⟩ outer.node outer.string fields₁
  have hy₂ := same₂.heap parted.far on_y (same₁.heap parted.far in_y hy)
  have hz₂ := same₂.heap outer.far on_z (same₁.heap outer.far in_z hz)
  -- the depth of the node that moves down
  obtain ⟨scm₃, ok₃, rep₃, same₃, lower⟩ :=
    updateDepth_heap (loose_join.mpr ⟨fields₂, hy₂, hz₂⟩) parted'.far rep₂
      (by simp only [height_join]; omega)
  have fields_b := fields_other.mp
    (same₃.fields ⟨apart.1, apart.2.1⟩ parted.node parted.string fields_b)
  have hx₃ := same₃.heap parted.near in_x
    (same₂.heap parted.near on_x (same₁.heap parted.near in_x hx))
  -- the depth of the new root
  obtain ⟨scm₄, ok₄, rep₄, same₄, whole⟩ :=
    setDepth_heap (loose_join.mpr ⟨fields_b, hx₃, lower⟩) owns' rep₃
      (by simp only [height_join]; omega)
  refine ⟨scm₄, ?_, rep₄, ?_, whole⟩
  · have near : (scm.node a.ptr).child side = b.ptr := fields.near.trans root_join
    have below := depth_ok hx₃ lower parted.near parted'.far rep₃
    rw [root_join] at below ok₂
    simp only [rotate]
    rw [run_bind (getNode_ok outer.node rep), near, run_bind (getNode_ok parted.node rep),
      fields_b₀.far, run_bind ok₁, run_bind ok₂, run_bind ok₃,
      run_bind (getNode_ok parted.node rep₃), fields_b.near, run_bind below, run_bind ok₄, run_pure]
  · have same₁ : Same blocks (fun p => p ≠ a.ptr ∧ p ≠ b.ptr) scm scm₁ :=
      same₁.mono fun _ => And.left
    have same₂ := same₁.trans (same₂.mono fun _ => And.right) fun _ _ => id
    have same₃ := same₂.trans (same₃.mono fun _ => And.left) fun _ _ => id
    exact same₃.trans (same₄.mono fun _ => And.right) fun _ _ => id

/-- A run on a tree in the region that leaves a tree in the same blocks and returns its root. -/
def Turns (m : Prog Nat) (scm : Scm) (blocks : List Block) (t t' : BinTree Cell) : Prop :=
  ∃ scm', m scm = .ok (root t', scm') ∧ scm'.Rep blocks ∧
    Same blocks (· ∉ ptrs t.inorder) scm scm' ∧ Heap scm' t'

/-- A run that starts by replacing the subtree on a side. -/
theorem Turns.relink {m : Prog Nat} {t' : BinTree Cell} (fields : Fields scm c side x u)
    (parted : Parted blocks c x u) (ht : Heap scm t) (hu : Heap scm u)
    (owns : Owns blocks (join side c t u).inorder) (rep : scm.Rep blocks)
    (rest : ∀ scm', Loose scm' (join side c t u) → scm'.Rep blocks →
      Turns m scm' blocks (join side c t u) t') :
    Turns (setChild side c.ptr (root t) >>= fun _ => m) scm blocks (join side c t u) t' := by
  have parted' := owns.parted
  obtain ⟨scm₁, ok₁, rep₁, same₁, fields₁⟩ :=
    setChild_fields fields parted rep (root_lt parted'.near rep)
  have ht₁ := same₁.heap parted'.near
    (fun d mem => (parted'.near_root d mem).imp_right And.left) ht
  have hu₁ := same₁.heap parted'.far
    (fun d mem => (parted'.far_root d mem).imp_right And.left) hu
  obtain ⟨scm₂, ok₂, rep₂, same₂, heap₂⟩ := rest scm₁ (loose_join.mpr ⟨fields₁, ht₁, hu₁⟩) rep₁
  refine ⟨scm₂, by rw [run_bind ok₁, ok₂], rep₂, (same₁.mono ?_).trans same₂ fun _ _ => id, heap₂⟩
  rintro p out rfl
  exact out (mem_ptrs.mpr ⟨c, mem_inorder_join.mpr (Or.inl rfl), rfl⟩)

theorem rotate_turns (loose : Loose scm (join side a (join side b x y) z))
    (owns : Owns blocks (join side a (join side b x y) z).inorder) (rep : scm.Rep blocks)
    (small : (join side a (join side b x y) z).height + 1 < 2 ^ 31) :
    Turns (rotate side a.ptr) scm blocks (join side a (join side b x y) z)
      (join side b x (join side a y z)) := by
  obtain ⟨scm', ok, rep', same, heap⟩ := rotate_spec loose owns rep small
  refine ⟨scm', by rw [ok, root_join], rep', same.mono fun p out => ⟨?_, ?_⟩, heap⟩
  · rintro rfl
    exact out (mem_ptrs.mpr ⟨a, mem_inorder_join.mpr (Or.inl rfl), rfl⟩)
  · rintro rfl
    exact out (mem_ptrs.mpr ⟨b, by simp [mem_inorder_join], rfl⟩)

theorem inorder_join_congr (same : t.inorder = u.inorder) :
    (join side c t z).inorder = (join side c u z).inorder := by
  cases side <;> simp [join, same]

theorem rotateTwice_turns
    (loose : Loose scm (join side a (join side b x (join side c y t)) z))
    (owns : Owns blocks (join side a (join side b x (join side c y t)) z).inorder)
    (rep : scm.Rep blocks)
    (small : (join side a (join side b x (join side c y t)) z).height + 2 < 2 ^ 31) :
    Turns (rotateTwice side a.ptr) scm blocks (join side a (join side b x (join side c y t)) z)
      (join side c (join side b x y) (join side a t z)) := by
  obtain ⟨fields, inner, hz⟩ := loose_join.mp loose
  have outer := owns.parted
  have mirror : join side b x (join side c y t) =
      join side.other b (join side.other c t y) x := by
    rw [join_other, join_other]
  have turned : join side.other c t (join side.other b y x) =
      join side c (join side b x y) t := by
    rw [join_other, join_other]
  have cells : (join side c (join side b x y) t).inorder =
      (join side b x (join side c y t)).inorder := by
    rw [mirror, ← turned]
    exact inorder_join_join
  have owns' : Owns blocks (join side a (join side c (join side b x y) t) z).inorder := by
    rwa [inorder_join_congr cells]
  have outer' := owns'.parted
  have heights := small
  simp only [height_join] at heights
  -- `rotate_left(node->left)`
  obtain ⟨scm₁, ok₁, rep₁, same₁, inner₁⟩ := rotate_turns (mirror ▸ inner.loose)
    (mirror ▸ outer.near) rep (by simp only [height_join]; omega)
  rw [turned] at ok₁ inner₁
  rw [← mirror] at same₁
  have fields₁ := same₁.fields outer.root_out outer.node outer.string fields
  have hz₁ := same₁.heap outer.far outer.far_out hz
  -- `node->left = ..`
  obtain ⟨scm₂, ok₂, rep₂, same₂, fields₂⟩ :=
    setChild_fields fields₁ outer rep₁ (root_lt outer'.near rep₁)
  have inner₂ := same₂.heap outer'.near
    (fun e mem => (outer'.near_root e mem).imp_right And.left) inner₁
  have hz₂ := same₂.heap outer.far
    (fun e mem => (outer.far_root e mem).imp_right And.left) hz₁
  -- `rotate_right(node)`
  obtain ⟨scm₃, ok₃, rep₃, same₃, whole⟩ := rotate_turns
    (loose_join.mpr ⟨fields₂, inner₂, hz₂⟩) owns' rep₂ (by simp only [height_join]; omega)
  refine ⟨scm₃, ?_, rep₃, ?_, whole⟩
  · have near : (scm.node a.ptr).child side = b.ptr := fields.near.trans root_join
    simp only [rotateTwice]
    rw [run_bind (getNode_ok outer.node rep), near, run_bind ok₁, run_bind ok₂, ok₃]
  · rw [inorder_join_congr cells] at same₃
    have in_inner : ∀ p, p ∉ ptrs (join side a (join side b x (join side c y t)) z).inorder →
        p ∉ ptrs (join side b x (join side c y t)).inorder := by
      intro p out inside
      obtain ⟨e, mem, same⟩ := mem_ptrs.mp inside
      exact out (mem_ptrs.mpr ⟨e, mem_inorder_join.mpr (Or.inr (Or.inl mem)), same⟩)
    have not_root : ∀ p, p ∉ ptrs (join side a (join side b x (join side c y t)) z).inorder →
        p ≠ a.ptr := by
      rintro p out rfl
      exact out (mem_ptrs.mpr ⟨a, mem_inorder_join.mpr (Or.inl rfl), rfl⟩)
    have same₁ := same₁.mono in_inner
    have same₂ := same₁.trans (same₂.mono not_root) fun _ _ => id
    exact same₂.trans same₃ fun _ _ => id

/-- A tree that leans is rotated by the heights below its child. -/
theorem straighten_turns (heap : Heap scm t) (owns : Owns blocks t.inorder) (rep : scm.Rep blocks)
    (leans : t.Leans side) (small : t.height + 2 < 2 ^ 31) :
    Turns (if ((t.child side).child side.other).height ≤ ((t.child side).child side).height
      then rotate side (root t) else rotateTwice side (root t)) scm blocks t
      (straighten side t) := by
  obtain ⟨a, b, x, y, z, rfl, shape⟩ := leans.shape
  simp only [straighten, child_join, child_other_join, root_join]
  split_ifs with outer
  · rw [rotate_join]
    exact rotate_turns heap.loose owns rep (by omega)
  · obtain ⟨c, p, q, rfl⟩ := shape.resolve_left outer
    rw [rotateTwice_join]
    exact rotateTwice_turns heap.loose owns rep small

theorem balance_root (heap : Heap scm t) (owns : Owns blocks t.inorder) (rep : scm.Rep blocks)
    (ne : t ≠ .leaf) : balance (root t) scm =
      .ok (((t.child .left).height : Int) - (t.child .right).height, scm) := by
  cases t with
  | leaf => exact absurd rfl ne
  | node c l r => exact balance_ok heap.loose owns rep

theorem updateDepth_node {l r : BinTree Cell} (loose : Loose scm (.node c l r))
    (owns : Owns blocks (BinTree.node c l r).inorder) (rep : scm.Rep blocks)
    (small : (BinTree.node c l r).height < 2 ^ 31) :
    ∃ scm', updateDepth c.ptr scm = .ok ((), scm') ∧ scm'.Rep blocks ∧
      Same blocks (· ∉ ptrs (BinTree.node c l r).inorder) scm scm' ∧ Heap scm' (.node c l r) := by
  obtain ⟨scm', ok, rep', same, heap⟩ := @updateDepth_heap scm blocks c .left l r loose owns rep small
  refine ⟨scm', ok, rep', same.mono ?_, heap⟩
  rintro p out rfl
  exact out (mem_ptrs.mpr ⟨c, by simp, rfl⟩)

/-- The end of `remove_node` rebalances the tree. -/
theorem restoreBalance_turns {l r : BinTree Cell} (loose : Loose scm (.node c l r))
    (owns : Owns blocks (BinTree.node c l r).inorder) (rep : scm.Rep blocks)
    (small : (BinTree.node c l r).height + 2 < 2 ^ 31) :
    Turns (restoreBalance c.ptr) scm blocks (.node c l r) (rebalance (.node c l r)) := by
  have parted := owns.parted_node
  obtain ⟨scm₁, ok₁, rep₁, same₁, heap₁⟩ := updateDepth_node loose owns rep (by omega)
  have hl := heap₁.2.2.1
  have hr := heap₁.2.2.2
  have left : (scm₁.node c.ptr).left = root l := heap₁.1.near
  have right : (scm₁.node c.ptr).right = root r := heap₁.1.far
  -- Once the depth is stored, two comparisons of heights decide.
  have start : restoreBalance c.ptr scm =
      (if (1 : Int) < (l.height : Int) - r.height then
        balance (root l) >>= fun b => if 0 ≤ b then rotateRight c.ptr else rotateLeftRight c.ptr
      else if (l.height : Int) - r.height < -1 then
        balance (root r) >>= fun b => if b ≤ 0 then rotateLeft c.ptr else rotateRightLeft c.ptr
      else pure c.ptr : Prog Nat) scm₁ := by
    simp only [restoreBalance]
    rw [run_bind ok₁, run_bind (balance_ok heap₁.loose owns rep₁),
      run_bind (getNode_ok parted.node rep₁), left, right]
  have nonempty : ∀ {t : BinTree Cell} {n : Nat}, n + 1 < t.height → t ≠ .leaf := by
    rintro _ n high rfl
    exact absurd high (Nat.not_lt_zero _)
  by_cases leans : (BinTree.node c l r).Leans .left
  · obtain ⟨scm₂, ok₂, rep₂, same₂, heap₂⟩ := straighten_turns heap₁ owns rep₁ leans small
    have high : r.height + 1 < l.height := leans
    refine ⟨scm₂, ?_, rep₂, same₁.trans same₂ fun _ _ => id, ?_⟩
    · have choice : (0 : Int) ≤ (l.child .left).height - (l.child .right).height ↔
          (l.child .right).height ≤ (l.child .left).height := by omega
      rw [start, if_pos (by omega), run_bind (balance_root hl parted.near rep₁ (nonempty high)),
        rebalance, if_pos leans]
      exact (congrFun (if_congr choice rfl rfl) scm₁).trans ok₂
    · rw [rebalance, if_pos leans]
      exact heap₂
  · have low : ¬ r.height + 1 < l.height := leans
    by_cases leans' : (BinTree.node c l r).Leans .right
    · obtain ⟨scm₂, ok₂, rep₂, same₂, heap₂⟩ := straighten_turns heap₁ owns rep₁ leans' small
      have high : l.height + 1 < r.height := leans'
      refine ⟨scm₂, ?_, rep₂, same₁.trans same₂ fun _ _ => id, ?_⟩
      · have choice : ((r.child .left).height : Int) - (r.child .right).height ≤ 0 ↔
            (r.child .left).height ≤ (r.child .right).height := by omega
        rw [start, if_neg (by omega), if_pos (by omega),
          run_bind (balance_root hr parted.far rep₁ (nonempty high)), rebalance, if_neg leans,
          if_pos leans']
        exact (congrFun (if_congr choice rfl rfl) scm₁).trans ok₂
      · rw [rebalance, if_neg leans, if_pos leans']
        exact heap₂
    · have low' : ¬ l.height + 1 < r.height := leans'
      rw [rebalance, if_neg leans, if_neg leans']
      refine ⟨scm₁, ?_, rep₁, same₁, heap₁⟩
      rw [start, if_neg (by omega), if_neg (by omega)]
      rfl

theorem balance_join (loose : Loose scm (join side c t u))
    (owns : Owns blocks (join side c t u).inorder) (rep : scm.Rep blocks) :
    ∃ d, balance c.ptr scm = .ok (d, scm) ∧
      (1 < d.natAbs ↔ u.height + 1 < t.height ∨ t.height + 1 < u.height) := by
  cases side with
  | left => exact ⟨_, balance_ok loose owns rep, by omega⟩
  | right => exact ⟨_, balance_ok loose owns rep, by omega⟩

/-- The last lines of `update` store the depth of the root once more. -/
theorem Turns.finish {m : Prog Nat} (h : Turns m scm blocks t (join side c x y))
    (owns : Owns blocks t.inorder) (cells : (join side c x y).inorder = t.inorder)
    (small : (join side c x y).height < 2 ^ 31) :
    Turns (m >>= fun root => updateDepth root >>= fun _ => pure root) scm blocks t
      (join side c x y) := by
  obtain ⟨scm₁, ok₁, rep₁, same₁, heap₁⟩ := h
  rw [← cells] at owns
  obtain ⟨scm₂, ok₂, rep₂, same₂, heap₂⟩ := updateDepth_heap heap₁.loose owns rep₁ small
  refine ⟨scm₂, ?_, rep₂, same₁.trans (same₂.mono ?_) fun _ _ => id, heap₂⟩
  · rw [root_join] at ok₁ ⊢
    rw [run_bind ok₁, run_bind ok₂, run_pure]
  · rintro p out rfl
    rw [← cells] at out
    exact out (mem_ptrs.mpr ⟨c, mem_inorder_join.mpr (Or.inl rfl), rfl⟩)

/-- The end of `update` after an insertion on a side. -/
theorem settle_turns {item : Bytes} (loose : Loose scm (join side c t u))
    (owns : Owns blocks (join side c t u).inorder) (rep : scm.Rep blocks)
    (small : (join side c t u).height + 2 < 2 ^ 31)
    (shape : (t.height ≤ u.height + 1 ∧ u.height ≤ t.height + 1) ∨
      ∃ b x y, t = join side b x y ∧ u.height + 1 < t.height ∧
        (strcmp item b.key = order side ∨
          strcmp item b.key ≠ order side ∧ ∃ d p q, y = join side d p q)) :
    Turns (settle side c.ptr item >>= fun root => updateDepth root >>= fun _ => pure root) scm
      blocks (join side c t u) (settleTree side item (join side c t u)) := by
  have parted := owns.parted
  obtain ⟨d, balance, uneven⟩ := balance_join loose owns rep
  rcases shape with near | ⟨b, x, y, rfl, high, turn⟩
  · have even : ¬ 1 < d.natAbs := by omega
    have stay : settle side c.ptr item scm = .ok (c.ptr, scm) := by
      simp only [settle]
      rw [run_bind balance, if_neg even, run_pure]
    rw [settleTree_of_near near]
    obtain ⟨scm₁, ok₁, rep₁, same₁, heap₁⟩ := updateDepth_heap loose owns rep (by omega)
    refine ⟨scm₁, ?_, rep₁, same₁.mono ?_, heap₁⟩
    · rw [run_bind stay, run_bind ok₁, run_pure, root_join]
    · rintro p out rfl
      exact out (mem_ptrs.mpr ⟨c, mem_inorder_join.mpr (Or.inl rfl), rfl⟩)
  · obtain ⟨fields, inner, _⟩ := loose_join.mp loose
    obtain ⟨fields_b, _, _, _⟩ := heap_join.mp inner
    have parted_b := parted.near.parted
    have near : (scm.node c.ptr).child side = b.ptr := fields.near.trans root_join
    -- The comparison with the child decides between the two rotations.
    have choose : settle side c.ptr item scm =
        (if strcmp item b.key = order side then rotate side c.ptr else rotateTwice side c.ptr)
          scm := by
      simp only [settle]
      rw [run_bind balance, if_pos (uneven.mpr (Or.inl high)),
        run_bind (getNode_ok parted.node rep), near, run_bind (getNode_ok parted_b.node rep),
        fields_b.item, run_bind (getString_ok fields_b.text parted_b.string rep)]
    rw [settleTree_of_high high]
    rcases turn with outward | ⟨inward, d, p, q, rfl⟩
    · rw [if_pos outward] at choose ⊢
      obtain ⟨scm₁, ok₁, rest⟩ := rotate_turns loose owns rep (by omega)
      rw [rotate_join]
      apply Turns.finish ⟨scm₁, choose.trans ok₁, rest⟩ owns inorder_join_join
      simp only [height_join] at *
      omega
    · rw [if_neg inward] at choose ⊢
      obtain ⟨scm₁, ok₁, rest⟩ := rotateTwice_turns loose owns rep small
      rw [rotateTwice_join]
      apply Turns.finish ⟨scm₁, choose.trans ok₁, rest⟩ owns
      · rw [← rotateTwice_join, inorder_rotateTwice]
      · simp only [height_join] at *
        omega

end

end OsProjects.Persistent
