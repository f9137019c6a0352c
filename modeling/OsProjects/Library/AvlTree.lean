import Mathlib.Data.List.Basic
import Mathlib.Tactic

/-!
# Height-balanced binary trees

Rotations keep the inorder list. Where one subtree of a node with balanced subtrees has
become two levels higher than the other, a single or a double rotation balances it
again. Left and right are treated as one case by a side.
-/
namespace OsProjects.Library

inductive BinTree (α : Type) where
  | leaf
  | node (a : α) (l r : BinTree α)
  deriving DecidableEq, Repr

inductive Side where
  | left
  | right
  deriving DecidableEq, Repr

@[simp, grind] def Side.other : Side → Side
  | .left => .right
  | .right => .left

namespace BinTree
variable {α : Type} {a b c : α} {s : Side} {t u x y z : BinTree α}

instance {P : α → BinTree α → BinTree α → Prop} [∀ a l r, Decidable (P a l r)] :
    Decidable (∃ a l r, t = node a l r ∧ P a l r) :=
  match t with
  | leaf => isFalse nofun
  | node a l r => decidable_of_iff (P a l r)
      ⟨fun h => ⟨a, l, r, rfl, h⟩, fun ⟨_, _, _, same, h⟩ => by cases same; exact h⟩

/-- A node with `t` on one side and `u` on the other. -/
def join : Side → α → BinTree α → BinTree α → BinTree α
  | .left, a, t, u => node a t u
  | .right, a, t, u => node a u t

@[simp, grind] def child : Side → BinTree α → BinTree α
  | .left, node _ l _ => l
  | .right, node _ _ r => r
  | _, leaf => leaf

@[simp, grind] def height : BinTree α → Nat
  | leaf => 0
  | node _ l r => max l.height r.height + 1

@[simp, grind] def inorder : BinTree α → List α
  | leaf => []
  | node a l r => l.inorder ++ a :: r.inorder

/-- The heights of the two subtrees of a node differ by one at most. -/
@[simp, grind] def Balanced : BinTree α → Prop
  | leaf => True
  | node _ l r => l.Balanced ∧ r.Balanced ∧ l.height ≤ r.height + 1 ∧ r.height ≤ l.height + 1

/-- The root of the subtree on the side moves up. -/
def rotate : Side → BinTree α → BinTree α
  | .left, node a (node b x y) z => node b x (node a y z)
  | .right, node a z (node b y x) => node b (node a z y) x
  | _, t => t

/-- The subtree on the side is rotated the other way first. -/
def rotateTwice : Side → BinTree α → BinTree α
  | .left, node a l r => rotate .left (node a (rotate .right l) r)
  | .right, node a l r => rotate .right (node a l (rotate .left r))
  | _, leaf => leaf

/-- The subtree on the side is higher by more than one. -/
@[grind] def Leans (s : Side) (t : BinTree α) : Prop :=
  (t.child s.other).height + 1 < (t.child s).height

instance (s : Side) (t : BinTree α) : Decidable (t.Leans s) := inferInstanceAs (Decidable (_ < _))

/-- A tree that leans to a side is rotated once or twice. -/
def straighten (s : Side) (t : BinTree α) : BinTree α :=
  if ((t.child s).child s.other).height ≤ ((t.child s).child s).height then rotate s t
  else rotateTwice s t

def rebalance (t : BinTree α) : BinTree α :=
  if t.Leans .left then straighten .left t
  else if t.Leans .right then straighten .right t
  else t

@[simp] theorem height_join : (join s a t u).height = max t.height u.height + 1 := by
  cases s
  · rfl
  · simp [join, max_comm]

@[simp] theorem balanced_join : (join s a t u).Balanced ↔
    t.Balanced ∧ u.Balanced ∧ t.height ≤ u.height + 1 ∧ u.height ≤ t.height + 1 := by
  cases s <;> grind [join]

@[simp] theorem child_join : (join s a t u).child s = t := by
  cases s <;> rfl

@[simp] theorem child_other_join : (join s a t u).child s.other = u := by
  cases s <;> rfl

@[simp] theorem rotate_join : rotate s (join s a (join s b x y) z) = join s b x (join s a y z) := by
  cases s <;> rfl

theorem join_other : join s.other a t u = join s a u t := by
  cases s <;> rfl

@[simp] theorem rotateTwice_join : rotateTwice s (join s a (join s b x (join s c y t)) z) =
    join s c (join s b x y) (join s a t z) := by
  cases s <;> rfl

/-- Every nonempty tree is a join on each side. -/
theorem eq_join (s : Side) (h : t ≠ leaf) : ∃ a u v, t = join s a u v := by
  cases t with
  | leaf => exact absurd rfl h
  | node a l r =>
    cases s with
    | left => exact ⟨a, l, r, rfl⟩
    | right => exact ⟨a, r, l, rfl⟩

theorem eq_join_of_pos (s : Side) (h : 0 < t.height) : ∃ a u v, t = join s a u v := by
  apply eq_join s
  rintro rfl
  exact absurd h (Nat.lt_irrefl 0)

@[simp] theorem inorder_rotate : (rotate s t).inorder = t.inorder := by
  fun_cases rotate <;> simp

@[simp] theorem inorder_rotateTwice : (rotateTwice s t).inorder = t.inorder := by
  fun_cases rotateTwice <;> simp

@[simp] theorem inorder_straighten : (straighten s t).inorder = t.inorder := by
  fun_cases straighten <;> simp

@[simp] theorem inorder_rebalance : t.rebalance.inorder = t.inorder := by
  fun_cases rebalance <;> simp

/-- A tree that leans has a node on that side, and where the inner subtree is the higher one, a
node there too. -/
theorem Leans.shape (h : t.Leans s) : ∃ a b x y z, t = join s a (join s b x y) z ∧
    (y.height ≤ x.height ∨ ∃ c p q, y = join s c p q) := by
  obtain ⟨a, u, z, rfl⟩ : ∃ a u z, t = join s a u z := by
    apply eq_join
    rintro rfl
    cases s <;> exact absurd h (Nat.not_lt_zero _)
  simp only [Leans, child_join, child_other_join] at h
  obtain ⟨b, x, y, rfl⟩ := eq_join_of_pos s (by omega : 0 < u.height)
  refine ⟨a, b, x, y, z, rfl, ?_⟩
  by_cases le : y.height ≤ x.height
  · exact Or.inl le
  · exact Or.inr (eq_join_of_pos s (by omega))

/-- Rotating once when the outer subtree is the higher one. -/
theorem balanced_rotate (hx : x.Balanced) (hy : y.Balanced) (hz : z.Balanced)
    (outer : x.height = z.height + 1) (inner : y.height = z.height ∨ y.height = z.height + 1) :
    (join s b x (join s a y z)).Balanced ∧
      (join s b x (join s a y z)).height = y.height + 2 := by
  simp only [balanced_join, height_join]
  refine ⟨⟨hx, ⟨hy, hz, ?_⟩, ?_⟩, ?_⟩ <;> omega

/-- Rotating twice when the inner subtree is the higher one. -/
theorem balanced_rotateTwice {p q : BinTree α} (hx : x.Balanced) (hy : (join s c p q).Balanced)
    (hz : z.Balanced) (outer : x.height = z.height)
    (inner : (join s c p q).height = z.height + 1) :
    (join s c (join s b x p) (join s a q z)).Balanced ∧
      (join s c (join s b x p) (join s a q z)).height = z.height + 2 := by
  simp only [balanced_join, height_join] at *
  refine ⟨⟨⟨hx, hy.1, ?_⟩, ⟨hy.2.1, hz, ?_⟩, ?_⟩, ?_⟩ <;> omega

/-- A balanced subtree that is two levels higher than its balanced sibling is brought back. -/
theorem balanced_straighten (hu : u.Balanced) (hz : z.Balanced) (high : u.height = z.height + 2) :
    (straighten s (join s a u z)).Balanced ∧ z.height + 2 ≤ (straighten s (join s a u z)).height ∧
      (straighten s (join s a u z)).height ≤ z.height + 3 := by
  obtain ⟨b, x, y, rfl⟩ := eq_join_of_pos s (by omega : 0 < u.height)
  simp only [balanced_join, height_join] at hu high
  simp only [straighten, child_join, child_other_join]
  split_ifs with le
  · rw [rotate_join]
    obtain ⟨balanced, height⟩ := balanced_rotate (a := a) (b := b) (s := s) hu.1 hu.2.1 hz
      (by omega) (by omega)
    exact ⟨balanced, by omega, by omega⟩
  · obtain ⟨c, p, q, rfl⟩ := eq_join_of_pos s (by omega : 0 < y.height)
    rw [rotateTwice_join]
    obtain ⟨balanced, height⟩ := balanced_rotateTwice (a := a) (b := b) hu.1 hu.2.1 hz
      (by omega) (by omega)
    exact ⟨balanced, by omega, by omega⟩

/-- Rebalancing a node whose subtrees are balanced and differ by two at most. -/
theorem balanced_rebalance (ht : t.Balanced) (hu : u.Balanced)
    (near : t.height ≤ u.height + 2 ∧ u.height ≤ t.height + 2) :
    (rebalance (node a t u)).Balanced ∧
      max t.height u.height ≤ (rebalance (node a t u)).height ∧
      (rebalance (node a t u)).height ≤ max t.height u.height + 1 ∧
      (t.height ≤ u.height + 1 → u.height ≤ t.height + 1 →
        (rebalance (node a t u)).height = max t.height u.height + 1) := by
  by_cases left : (node a t u).Leans .left
  · have high : t.height = u.height + 2 := by
      simp only [Leans, child, Side.other] at left
      omega
    obtain ⟨balanced, low, up⟩ := balanced_straighten (a := a) (s := .left) ht hu high
    simp only [rebalance, if_pos left]
    simp only [join] at balanced low up
    exact ⟨balanced, by omega, by omega, by omega⟩
  · by_cases right : (node a t u).Leans .right
    · have high : u.height = t.height + 2 := by
        simp only [Leans, child, Side.other] at right
        omega
      obtain ⟨balanced, low, up⟩ := balanced_straighten (a := a) (s := .right) hu ht high
      simp only [rebalance, if_neg left, if_pos right]
      simp only [join] at balanced low up
      exact ⟨balanced, by omega, by omega, by omega⟩
    · simp only [rebalance, if_neg left, if_neg right, Balanced, height]
      simp only [Leans, child, Side.other] at left right
      exact ⟨⟨ht, hu, by omega, by omega⟩, by omega, by omega, by simp⟩

theorem two_pow_succ_le {i j m k : Nat} (hm : 2 ^ i ≤ m ^ 2) (hk : 2 ^ j ≤ k ^ 2)
    (near : i ≤ j + 1) : 2 ^ (i + 1) ≤ (m + k) ^ 2 := by
  have half : 2 ^ i ≤ 2 * 2 ^ j := by
    calc 2 ^ i ≤ 2 ^ (j + 1) := Nat.pow_le_pow_right (by decide) near
      _ = 2 * 2 ^ j := pow_succ' 2 j
  have square : (m + k) ^ 2 = m ^ 2 + 2 * (m * k) + k ^ 2 := by ring
  rw [square, pow_succ']
  rcases Nat.le_total k m with le' | le'
  · have : k ^ 2 ≤ m * k := by
      rw [pow_two]
      exact Nat.mul_le_mul_right k le'
    omega
  · have : m ^ 2 ≤ k ^ 2 := Nat.pow_le_pow_left le' 2
    omega

/-- The height of a balanced tree is logarithmic in its size. -/
theorem Balanced.two_pow_height_le (h : t.Balanced) :
    2 ^ t.height ≤ (t.inorder.length + 1) ^ 2 := by
  induction t with
  | leaf => simp
  | node a l r ihl ihr =>
    obtain ⟨hl, hr, le, ge⟩ := h
    have size : (node a l r).inorder.length + 1 =
        (l.inorder.length + 1) + (r.inorder.length + 1) := by
      simp only [inorder, List.length_append, List.length_cons]
      omega
    rw [size, height]
    rcases Nat.le_total r.height l.height with lower | lower
    · rw [max_eq_left lower]
      exact two_pow_succ_le (ihl hl) (ihr hr) le
    · rw [max_eq_right lower, Nat.add_comm (l.inorder.length + 1)]
      exact two_pow_succ_le (ihr hr) (ihl hl) ge

theorem height_le_length (t : BinTree α) : t.height ≤ t.inorder.length := by
  induction t with
  | leaf => exact Nat.le_refl 0
  | node a l r ihl ihr =>
    simp only [height, inorder, List.length_append, List.length_cons]
    omega

end BinTree
end OsProjects.Library
