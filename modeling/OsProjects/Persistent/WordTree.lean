import OsProjects.Persistent.Avl

/-!
# Insertion and removal on trees

The pure counterparts of `update` and `remove_node`: trees of cells, where a cell has the
addresses of a node and of its string beside the count and the string itself. Insertion
keeps the tree balanced because a subtree that has grown leans to the side of the new
item; removal, because its rotations look at the heights alone.
-/
namespace OsProjects.Persistent
open OsProjects.Library BinTree

/-- A node of the tree. -/
structure Cell where
  ptr : Nat
  count : Nat
  item : Nat
  key : Bytes
  deriving DecidableEq, Repr

/-- What a cell holds, in the node at `p`. -/
def Cell.moved (c : Cell) (p : Nat) : Cell := { c with ptr := p }

@[simp, grind =] theorem Cell.moved_ptr (c : Cell) (p : Nat) : (c.moved p).ptr = p := rfl

@[simp, grind =] theorem Cell.moved_count (c : Cell) (p : Nat) : (c.moved p).count = c.count := rfl

@[simp, grind =] theorem Cell.moved_item (c : Cell) (p : Nat) : (c.moved p).item = c.item := rfl

@[simp, grind =] theorem Cell.moved_key (c : Cell) (p : Nat) : (c.moved p).key = c.key := rfl

/-- A cell with another count. -/
def Cell.counted (c : Cell) (n : Nat) : Cell := { c with count := n }

@[simp, grind =] theorem Cell.counted_ptr (c : Cell) (n : Nat) : (c.counted n).ptr = c.ptr := rfl

@[simp, grind =] theorem Cell.counted_count (c : Cell) (n : Nat) : (c.counted n).count = n := rfl

@[simp, grind =] theorem Cell.counted_item (c : Cell) (n : Nat) : (c.counted n).item = c.item := rfl

@[simp, grind =] theorem Cell.counted_key (c : Cell) (n : Nat) : (c.counted n).key = c.key := rfl

/-- The pointer to a tree, which is null for the empty one. -/
def root : BinTree Cell → Nat
  | .leaf => 0
  | .node c _ _ => c.ptr

/-- The rotations of `update`. -/
def settleTree (side : Side) (x : Bytes) (t : BinTree Cell) : BinTree Cell :=
  if t.Leans .left ∨ t.Leans .right then
    match t.child side with
    | .leaf => t
    | .node b _ _ => if strcmp x b.key = order side then t.rotate side else t.rotateTwice side
  else t

/-- `update`, which puts a new cell where the item is missing. -/
def insertTree (x : Bytes) (new : Cell) : BinTree Cell → BinTree Cell
  | .leaf => .node new .leaf .leaf
  | .node c l r =>
    match strcmp x c.key with
    | .eq => .node (c.counted ((c.count + 1) % 2 ^ 64)) l r
    | .lt => settleTree .left x (.node c (insertTree x new l) r)
    | .gt => settleTree .right x (.node c l (insertTree x new r))

/-- The subtree beside an empty one. -/
def lone : BinTree Cell → BinTree Cell → Option (BinTree Cell)
  | t, .leaf => some t
  | .leaf, t => some t
  | _, _ => none

/-- The cell of the node with two children takes what the leftmost cell on its right holds. -/
def successor (c : Cell) (r : BinTree Cell) : Cell := r.inorder.headD c

/-- `remove_node` -/
def removeTree : Bytes → BinTree Cell → BinTree Cell
  | _, .leaf => .leaf
  | x, .node c l r =>
    match strcmp x c.key with
    | .lt => rebalance (.node c (removeTree x l) r)
    | .gt => rebalance (.node c l (removeTree x r))
    | .eq =>
      if 1 < c.count then .node (c.counted (c.count - 1)) l r
      else
        match lone l r with
        | some .leaf => .leaf
        | some (.node d a b) => rebalance (.node (d.moved c.ptr) a b)
        | none => rebalance (.node ((successor c r).moved c.ptr) l
            (removeTree (successor c r).key r))

/-- The blocks that `remove_node` frees. -/
def freed : Bytes → BinTree Cell → List Nat
  | _, .leaf => []
  | x, .node c l r =>
    match strcmp x c.key with
    | .lt => freed x l
    | .gt => freed x r
    | .eq =>
      if 1 < c.count then []
      else
        match lone l r with
        | some .leaf => [c.item, c.ptr]
        | some (.node d _ _) => [d.item, d.ptr]
        | none => freed (successor c r).key r

/-- The node that holds an item, with its subtrees. -/
def subtree (x : Bytes) : BinTree Cell → BinTree Cell
  | .leaf => .leaf
  | .node c l r =>
    match strcmp x c.key with
    | .lt => subtree x l
    | .gt => subtree x r
    | .eq => .node c l r

section
variable {x : Bytes} {new c : Cell} {side : Side} {l l' r t : BinTree Cell}

theorem strcmp_eq_eq {x k : Bytes} : strcmp x k = .eq ↔ x = k :=
  Std.LawfulEqOrd.compare_eq_iff_eq

theorem strcmp_eq_gt {x k : Bytes} : strcmp x k = .gt ↔ strcmp k x = .lt := by
  unfold strcmp
  exact Std.OrientedCmp.gt_iff_lt

theorem strcmp_trans {x y z : Bytes} (h : strcmp x y = .lt) (h' : strcmp y z = .lt) :
    strcmp x z = .lt := by
  unfold strcmp at *
  exact Std.TransCmp.lt_trans h h'

theorem strcmp_irrefl (x : Bytes) : strcmp x x ≠ .lt := by
  rw [strcmp_eq_eq.mpr rfl]
  simp

theorem strcmp_cases (x k : Bytes) : strcmp x k = .eq ∨ ∃ side, strcmp x k = order side := by
  cases e : strcmp x k
  · exact Or.inr ⟨.left, rfl⟩
  · exact Or.inl rfl
  · exact Or.inr ⟨.right, rfl⟩

theorem insertTree_join (h : strcmp x c.key = order side) :
    insertTree x new (join side c l r) =
      settleTree side x (join side c (insertTree x new l) r) := by
  cases side <;> simp only [join, insertTree, h, order]

theorem insertTree_node (h : strcmp x c.key = .eq) :
    insertTree x new (.node c l r) = .node (c.counted ((c.count + 1) % 2 ^ 64)) l r := by
  simp [insertTree, h]

/-- What an insertion does to the heights. A tree that has grown is the new node alone, or it
leans to the side of the new item. -/
structure Grows (x : Bytes) (t t' : BinTree Cell) : Prop where
  balanced : t'.Balanced
  height : t'.height = t.height ∨ t'.height = t.height + 1
  leans : t'.height = t.height + 1 → t = .leaf ∨ ∃ side b u v, t' = join side b u v ∧
    strcmp x b.key = order side ∧ u.height = v.height + 1

/-- A subtree that is too high has the node that the rotations of `update` move. -/
theorem Grows.shape (h : Grows x l l') (side : Side) (high : l'.height = r.height + 2)
    (near : l.height ≤ r.height + 1) : ∃ b u v, l' = join side b u v ∧
      (strcmp x b.key = order side ∧ u.height = r.height + 1 ∧ v.height = r.height ∨
        strcmp x b.key ≠ order side ∧ u.height = r.height ∧ v.height = r.height + 1 ∧
          ∃ d p q, v = join side d p q) := by
  have grown : l'.height = l.height + 1 := by
    rcases h.height with same | grown
    · omega
    · exact grown
  rcases h.leans grown with rfl | ⟨side', b, u, v, rfl, away, higher⟩
  · have empty : (BinTree.leaf : BinTree Cell).height = 0 := rfl
    omega
  · simp only [height_join] at high
    by_cases same : side' = side
    · subst same
      exact ⟨b, u, v, rfl, Or.inl ⟨away, by omega, by omega⟩⟩
    · obtain rfl : side' = side.other := by
        cases side <;> cases side' <;> first | rfl | exact absurd rfl same
      refine ⟨b, v, u, join_other, Or.inr ⟨?_, by omega, by omega, ?_⟩⟩
      · rw [away]
        cases side <;> simp [order]
      · exact eq_join_of_pos side (by omega)

theorem leans_join : (join side c l r).Leans .left ∨ (join side c l r).Leans .right ↔
    r.height + 1 < l.height ∨ l.height + 1 < r.height := by
  cases side <;> simp [join, Leans, or_comm]

theorem settleTree_of_near (near : l.height ≤ r.height + 1 ∧ r.height ≤ l.height + 1) :
    settleTree side x (join side c l r) = join side c l r := by
  rw [settleTree, if_neg]
  rw [leans_join]
  omega

theorem settleTree_of_high {b : Cell} {u v : BinTree Cell}
    (high : r.height + 1 < (join side b u v).height) :
    settleTree side x (join side c (join side b u v) r) =
      if strcmp x b.key = order side then (join side c (join side b u v) r).rotate side
      else (join side c (join side b u v) r).rotateTwice side := by
  rw [settleTree, if_pos (leans_join.mpr (Or.inl high)), child_join]
  cases side <;> rfl

theorem Grows.settle (h : Grows x l l') (away : strcmp x c.key = order side)
    (balanced : (join side c l r).Balanced) :
    Grows x (join side c l r) (settleTree side x (join side c l' r)) := by
  simp only [balanced_join] at balanced
  obtain ⟨_, hr, le, ge⟩ := balanced
  have height := h.height
  by_cases high : l'.height = r.height + 2
  · obtain ⟨b, u, v, rfl, ⟨outward, hu, hv⟩ | ⟨inward, hu, hv, d, p, q, rfl⟩⟩ := h.shape side high le
    · have inner := h.balanced
      simp only [balanced_join] at inner
      obtain ⟨done, total⟩ := balanced_rotate (a := c) (b := b) (s := side) inner.1 inner.2.1 hr hu
        (Or.inl hv)
      rw [settleTree_of_high (by omega), if_pos outward, rotate_join]
      refine ⟨done, ?_, ?_⟩ <;> simp only [height_join] at * <;> omega
    · have inner := h.balanced
      rw [balanced_join] at inner
      obtain ⟨done, total⟩ := balanced_rotateTwice (a := c) (b := b) inner.1 inner.2.1 hr hu hv
      rw [settleTree_of_high (by omega), if_neg inward, rotateTwice_join]
      refine ⟨done, ?_, ?_⟩ <;> simp only [height_join] at * <;> omega
  · rw [settleTree_of_near (by omega)]
    refine ⟨balanced_join.mpr ⟨h.balanced, hr, by omega, by omega⟩, ?_, ?_⟩
    · simp only [height_join]
      omega
    · intro grown
      simp only [height_join] at grown
      exact Or.inr ⟨side, c, l', r, rfl, away, by omega⟩

theorem insertTree_grows (x : Bytes) (new : Cell) (h : t.Balanced) :
    Grows x t (insertTree x new t) := by
  induction t with
  | leaf =>
    refine ⟨by simp [insertTree], Or.inr rfl, fun _ => Or.inl rfl⟩
  | node c l r ihl ihr =>
    rcases strcmp_cases x c.key with same | ⟨side, away⟩
    · rw [insertTree_node same]
      exact ⟨h, Or.inl rfl, fun grown => by simp at grown⟩
    · cases side with
      | left =>
        rw [show BinTree.node c l r = join .left c l r from rfl, insertTree_join away]
        exact (ihl h.1).settle away h
      | right =>
        rw [show BinTree.node c l r = join .right c r l from rfl, insertTree_join away]
        exact (ihr h.2.1).settle away (balanced_join.mpr ⟨h.2.1, h.1, h.2.2.2, h.2.2.1⟩)

theorem lone_eq_some (h : lone l r = some t) : l = t ∧ r = .leaf ∨ l = .leaf ∧ r = t := by
  fun_cases lone <;> simp_all [lone]

theorem lone_eq_none (h : lone l r = none) : l ≠ .leaf ∧ r ≠ .leaf := by
  fun_cases lone <;> simp_all [lone]

theorem removeTree_balanced (x : Bytes) (h : t.Balanced) :
    (removeTree x t).Balanced ∧ (removeTree x t).height ≤ t.height ∧
      t.height ≤ (removeTree x t).height + 1 := by
  fun_induction removeTree x t with
  | case1 => exact ⟨h, Nat.le_refl _, Nat.le_succ _⟩
  | case2 x c l r _ ih =>
    obtain ⟨hl, hr, le, ge⟩ := h
    obtain ⟨done, up, low⟩ := ih hl
    have := balanced_rebalance (a := c) done hr (by omega)
    simp only [height]
    exact ⟨this.1, by omega, by omega⟩
  | case3 x c l r _ ih =>
    obtain ⟨hl, hr, le, ge⟩ := h
    obtain ⟨done, up, low⟩ := ih hr
    have := balanced_rebalance (a := c) hl done (by omega)
    simp only [height]
    exact ⟨this.1, by omega, by omega⟩
  | case4 => exact ⟨h, Nat.le_refl _, Nat.le_succ _⟩
  | case5 x c l r _ _ empty =>
    rcases lone_eq_some empty with ⟨rfl, rfl⟩ | ⟨rfl, rfl⟩ <;> simp
  | case6 x c l r _ _ d a b only =>
    obtain ⟨hl, hr, le, ge⟩ := h
    have child : (BinTree.node d a b).Balanced ∧
        (node c l r).height = (BinTree.node d a b).height + 1 := by
      rcases lone_eq_some only with ⟨rfl, rfl⟩ | ⟨rfl, rfl⟩
      · exact ⟨hl, by simp⟩
      · exact ⟨hr, by simp⟩
    obtain ⟨⟨ha, hb, le', ge'⟩, high⟩ := child
    have := balanced_rebalance (a := d.moved c.ptr) ha hb (by omega)
    rw [high]
    simp only [height]
    exact ⟨this.1, by omega, by omega⟩
  | case7 x c l r _ _ _ ih =>
    obtain ⟨hl, hr, le, ge⟩ := h
    obtain ⟨done, up, low⟩ := ih hr
    have := balanced_rebalance (a := (successor c r).moved c.ptr) hl done (by omega)
    simp only [height]
    exact ⟨this.1, by omega, by omega⟩

end

end OsProjects.Persistent
