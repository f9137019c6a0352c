import OsProjects.Persistent.Places
import OsProjects.Persistent.WordCells

/-!
# Trees in the region

`Heap scm t` says that the tree `t` stands in the memory of a region with its depths.
What the functions of the tree read is determined by the bytes of its nodes and strings,
so a tree survives whatever happens in other blocks. Each write to a node is described
once, and the rotations of the pointers are shown to be those of the trees.
-/
namespace OsProjects.Persistent
open OsProjects.Library BinTree

/-- A string with its terminating zero. -/
def Text (scm : Scm) (p : Nat) (s : Bytes) : Prop :=
  scm.mem.read p (s.length + 1) = s ++ [0] ∧ 0 ∉ s

/-- The node of a cell with its two children; the depth is left open. -/
structure Fields (scm : Scm) (c : Cell) (side : Side) (t u : BinTree Cell) : Prop where
  count : (scm.node c.ptr).count = c.count
  item : (scm.node c.ptr).item = c.item
  near : (scm.node c.ptr).child side = root t
  far : (scm.node c.ptr).child side.other = root u
  text : Text scm c.item c.key

def Heap (scm : Scm) : BinTree Cell → Prop
  | .leaf => True
  | .node c l r => Fields scm c .left l r ∧
      (scm.node c.ptr).depth = max l.height r.height ∧ Heap scm l ∧ Heap scm r

/-- A tree whose root has any depth. -/
def Loose (scm : Scm) : BinTree Cell → Prop
  | .leaf => True
  | .node c l r => Fields scm c .left l r ∧ Heap scm l ∧ Heap scm r

/-- The nodes have blocks of their own, and no string is in the block of a node. -/
structure Owns (blocks : List Block) (cells : List Cell) : Prop where
  nodes : ∀ c ∈ cells, Placed blocks c.ptr nodeLen
  strings : ∀ c ∈ cells, Placed blocks c.item (c.key.length + 1)
  distinct : (ptrs cells).Nodup
  apart : ∀ c ∈ cells, ∀ d ∈ cells, c.item ≠ d.ptr

section
variable {scm scm' : Scm} {blocks : List Block} {K : Nat → Prop} {c a b : Cell} {side : Side}
  {t u x y z : BinTree Cell} {p : Nat} {s : Bytes}

theorem run_bind {α β : Type} {m : Prog α} {r : α} (h : m scm = .ok (r, scm')) (f : α → Prog β) :
    (m >>= f) scm = f r scm' := by
  simp only [bind, StateT.bind, h]
  rfl

theorem run_pure {α : Type} (r : α) : (pure r : Prog α) scm = .ok (r, scm) := rfl

theorem cString_text {m : Mem} {fuel : Nat} (text : m.read p (s.length + 1) = s ++ [0])
    (ends : 0 ∉ s) (enough : s.length < fuel) : cString m fuel p = some s := by
  induction s generalizing p fuel with
  | nil =>
    cases fuel with
    | zero => exact absurd enough (Nat.lt_irrefl 0)
    | succ fuel =>
      have zero : m p = 0 := by simpa [Mem.read] using text
      simp [cString, zero]
  | cons b s ih =>
    cases fuel with
    | zero => exact absurd enough (Nat.not_lt_zero _)
    | succ fuel =>
      obtain ⟨here, rest⟩ : m p = b ∧ m.read (p + 1) (s.length + 1) = s ++ [0] := by
        simpa [Mem.read] using text
      have more : m p ≠ 0 := by
        rw [here]
        rintro rfl
        exact ends List.mem_cons_self
      have ends : 0 ∉ s := fun zero => ends (List.mem_cons_of_mem _ zero)
      rw [cString, if_neg more, ih rest ends (by simpa using enough), here]
      rfl

theorem Placed.maps (h : Placed blocks p n) (rep : scm.Rep blocks) (pos : 0 < n) :
    scm.Maps p := by
  have := h.bounds rep
  exact ⟨by omega, by omega⟩

theorem getString_ok (text : Text scm p s) (placed : Placed blocks p (s.length + 1))
    (rep : scm.Rep blocks) : getString p scm = .ok (s, scm) := by
  have := placed.bounds rep
  simp only [getString, if_pos (placed.maps rep (Nat.succ_pos _))]
  rw [cString_text text.1 text.2 (by omega)]

theorem getNode_ok (placed : Placed blocks p nodeLen) (rep : scm.Rep blocks) :
    getNode p scm = .ok (scm.node p, scm) :=
  if_pos (placed.maps rep (by decide))

theorem Same.node (h : Same blocks K scm scm') (kept : K p) (placed : Placed blocks p nodeLen) :
    scm'.node p = scm.node p := by
  have bytes := h.2 p nodeLen kept placed
  simp only [nodeLen] at bytes
  have load : ∀ w i, i + w ≤ 40 → scm'.mem.load w (p + i) = scm.mem.load w (p + i) := by
    intro w i le
    exact Mem.load_congr fun x ge lt => bytes x (by omega) (by omega)
  simp only [Scm.node]
  rw [load 8 8 (by omega), load 8 16 (by omega), load 8 24 (by omega), load 8 32 (by omega),
    show scm'.mem.load 4 p = scm.mem.load 4 p from load 4 0 (by omega)]

theorem Same.text (h : Same blocks K scm scm') (kept : K p)
    (placed : Placed blocks p (s.length + 1)) (text : Text scm p s) : Text scm' p s := by
  refine ⟨?_, text.2⟩
  rw [← text.1]
  exact Mem.read_congr (h.2 p _ kept placed)

theorem Fields.other (h : Fields scm c side t u) : Fields scm c side.other u t := by
  refine ⟨h.count, h.item, h.far, ?_, h.text⟩
  cases side <;> exact h.near

theorem fields_other : Fields scm c side.other u t ↔ Fields scm c side t u := by
  refine ⟨fun h => ?_, Fields.other⟩
  have := h.other
  cases side <;> exact this

theorem Same.fields (h : Same blocks K scm scm') (kept : K c.ptr ∧ K c.item)
    (node : Placed blocks c.ptr nodeLen) (string : Placed blocks c.item (c.key.length + 1))
    (fields : Fields scm c side t u) : Fields scm' c side t u := by
  obtain ⟨count, item, near, far, text⟩ := fields
  rw [← h.node kept.1 node] at count item near far
  exact ⟨count, item, near, far, h.text kept.2 string text⟩

theorem heap_join : Heap scm (join side c t u) ↔ Fields scm c side t u ∧
    (scm.node c.ptr).depth = max t.height u.height ∧ Heap scm t ∧ Heap scm u := by
  cases side with
  | left => rfl
  | right =>
    have fields : Fields scm c .left u t ↔ Fields scm c .right t u :=
      @fields_other scm c .right t u
    simp only [join, Heap, fields, max_comm, and_comm]

theorem loose_join : Loose scm (join side c t u) ↔
    Fields scm c side t u ∧ Heap scm t ∧ Heap scm u := by
  cases side with
  | left => rfl
  | right =>
    have fields : Fields scm c .left u t ↔ Fields scm c .right t u :=
      @fields_other scm c .right t u
    simp only [join, Loose, fields, and_comm]

theorem Heap.loose (h : Heap scm t) : Loose scm t := by
  cases t with
  | leaf => trivial
  | node c l r => exact ⟨h.1, h.2.2⟩

theorem mem_inorder_join {e : Cell} :
    e ∈ (join side c t u).inorder ↔ e = c ∨ e ∈ t.inorder ∨ e ∈ u.inorder := by
  cases side <;> simp [join] <;> tauto

theorem nodup_ptrs_join : (ptrs (join side c t u).inorder).Nodup ↔
    (ptrs (t.inorder ++ c :: u.inorder)).Nodup := by
  cases side with
  | left => rfl
  | right =>
    simp only [join, inorder, ptrs_append, ptrs_cons]
    grind

/-- The blocks of a node with two subtrees. -/
structure Parted (blocks : List Block) (c : Cell) (t u : BinTree Cell) : Prop where
  near : Owns blocks t.inorder
  far : Owns blocks u.inorder
  node : Placed blocks c.ptr nodeLen
  string : Placed blocks c.item (c.key.length + 1)
  own : c.item ≠ c.ptr
  near_root : ∀ e ∈ t.inorder, e.ptr ≠ c.ptr ∧ e.item ≠ c.ptr ∧ e.ptr ≠ c.item
  far_root : ∀ e ∈ u.inorder, e.ptr ≠ c.ptr ∧ e.item ≠ c.ptr ∧ e.ptr ≠ c.item
  across : ∀ e ∈ t.inorder, ∀ f ∈ u.inorder, e.ptr ≠ f.ptr ∧ e.item ≠ f.ptr ∧ e.ptr ≠ f.item

theorem Owns.parted (h : Owns blocks (join side c t u).inorder) : Parted blocks c t u := by
  have distinct := nodup_ptrs_join.mp h.distinct
  simp only [ptrs_append, ptrs_cons, List.nodup_append, List.nodup_cons, List.mem_cons] at distinct
  obtain ⟨hl, ⟨other, hr⟩, cross⟩ := distinct
  have root : c ∈ (join side c t u).inorder := mem_inorder_join.mpr (Or.inl rfl)
  have left : ∀ e ∈ t.inorder, e ∈ (join side c t u).inorder := fun e mem =>
    mem_inorder_join.mpr (Or.inr (Or.inl mem))
  have right : ∀ e ∈ u.inorder, e ∈ (join side c t u).inorder := fun e mem =>
    mem_inorder_join.mpr (Or.inr (Or.inr mem))
  refine ⟨⟨fun e mem => h.nodes e (left e mem), fun e mem => h.strings e (left e mem), hl,
      fun e mem f mem' => h.apart e (left e mem) f (left f mem')⟩,
    ⟨fun e mem => h.nodes e (right e mem), fun e mem => h.strings e (right e mem), hr,
      fun e mem f mem' => h.apart e (right e mem) f (right f mem')⟩,
    h.nodes c root, h.strings c root, h.apart c root c root, ?_, ?_, ?_⟩
  · intro e mem
    exact ⟨cross e.ptr (mem_ptrs.mpr ⟨e, mem, rfl⟩) c.ptr (Or.inl rfl),
      h.apart e (left e mem) c root, (h.apart c root e (left e mem)).symm⟩
  · intro e mem
    refine ⟨?_, h.apart e (right e mem) c root, (h.apart c root e (right e mem)).symm⟩
    intro same
    exact other (same ▸ mem_ptrs.mpr ⟨e, mem, rfl⟩)
  · intro e mem f mem'
    exact ⟨cross e.ptr (mem_ptrs.mpr ⟨e, mem, rfl⟩) f.ptr (Or.inr (mem_ptrs.mpr ⟨f, mem', rfl⟩)),
      h.apart e (left e mem) f (right f mem'),
      (h.apart f (right f mem') e (left e mem)).symm⟩

theorem Owns.parted_node {l r : BinTree Cell} (h : Owns blocks (BinTree.node c l r).inorder) :
    Parted blocks c l r := by
  have h : Owns blocks (join .left c l r).inorder := h
  exact h.parted

theorem Parted.flip (h : Parted blocks c t u) : Parted blocks c u t where
  near := h.far
  far := h.near
  node := h.node
  string := h.string
  own := h.own
  near_root := h.far_root
  far_root := h.near_root
  across := fun e mem f mem' =>
    have := h.across f mem' e mem
    ⟨this.1.symm, this.2.2.symm, this.2.1.symm⟩

/-- The root has no block of a node in a subtree. -/
theorem Parted.root_out (h : Parted blocks c t u) :
    c.ptr ∉ ptrs t.inorder ∧ c.item ∉ ptrs t.inorder := by
  constructor
  · intro inside
    obtain ⟨e, mem, same⟩ := mem_ptrs.mp inside
    exact (h.near_root e mem).1 same
  · intro inside
    obtain ⟨e, mem, same⟩ := mem_ptrs.mp inside
    exact (h.near_root e mem).2.2 same

/-- Nor has anything in the other subtree. -/
theorem Parted.far_out (h : Parted blocks c t u) :
    ∀ e ∈ u.inorder, e.ptr ∉ ptrs t.inorder ∧ e.item ∉ ptrs t.inorder := by
  intro e mem
  constructor
  · intro inside
    obtain ⟨f, mem', same⟩ := mem_ptrs.mp inside
    exact (h.across f mem' e mem).1 same
  · intro inside
    obtain ⟨f, mem', same⟩ := mem_ptrs.mp inside
    exact (h.across f mem' e mem).2.2 same

/-- A tree survives what happens outside of its blocks. -/
theorem Same.heap (h : Same blocks K scm scm') (owns : Owns blocks t.inorder)
    (kept : ∀ e ∈ t.inorder, K e.ptr ∧ K e.item) (heap : Heap scm t) : Heap scm' t := by
  induction t with
  | leaf => trivial
  | node c l r ihl ihr =>
    obtain ⟨fields, depth, hl, hr⟩ := heap
    have parted := owns.parted_node
    have here : c ∈ (BinTree.node c l r).inorder := by simp
    refine ⟨h.fields (kept c here) parted.node parted.string fields, ?_,
      ihl parted.near (fun e mem => kept e (by simp [mem])) hl,
      ihr parted.far (fun e mem => kept e (by simp [mem])) hr⟩
    rw [h.node (kept c here).1 parted.node]
    exact depth

end

end OsProjects.Persistent
