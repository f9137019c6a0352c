import OsProjects.Persistent.WordTree

/-!
# The cells of a tree

Insertion and removal on trees as operations on the inorder list of cells: what becomes
of the items and their counts, of the addresses, and of the blocks that are freed. An
operation in a subtree leaves the cells on both sides of it alone.
-/
namespace OsProjects.Persistent
open OsProjects.Library BinTree

/-- The items with their counts. -/
def contents (cells : List Cell) : List (Bytes × Nat) := cells.map fun c => (c.key, c.count)

def ptrs (cells : List Cell) : List Nat := cells.map Cell.ptr

/-- Strictly increasing in the order of `strcmp`. -/
def Increasing (cells : List Cell) : Prop := cells.Pairwise fun c d => strcmp c.key d.key = .lt

/-- The count of the item goes up, or the new cell stands where the item belongs. -/
def Inserted (x : Bytes) (new : Cell) (cells cells' : List Cell) : Prop :=
  (∃ before c after, cells = before ++ c :: after ∧ c.key = x ∧
      cells' = before ++ c.counted ((c.count + 1) % 2 ^ 64) :: after) ∨
    ∃ before after, cells = before ++ after ∧ cells' = before ++ new :: after ∧
      (∀ c ∈ before, strcmp c.key x = .lt) ∧ ∀ c ∈ after, strcmp x c.key = .lt

/-- The count of the item goes down, and the item goes with its last occurrence. -/
def Lost (x : Bytes) (items items' : List (Bytes × Nat)) : Prop :=
  (∀ i ∈ items, i.1 ≠ x) ∧ items' = items ∨
    ∃ before n after, items = before ++ (x, n) :: after ∧
      items' = before ++ (if 1 < n then [(x, n - 1)] else []) ++ after

/-- Each node and each string was there before. -/
structure Shrinks (cells cells' : List Cell) : Prop where
  nodes : ∀ c ∈ cells', c.ptr ∈ ptrs cells
  strings : ∀ c ∈ cells', ∃ d ∈ cells, d.item = c.item ∧ d.key = c.key
  nodup : (ptrs cells).Nodup → (ptrs cells').Nodup

/-- The node of the item has two children and its successor occurs more than once. -/
def Doubles (x : Bytes) (t : BinTree Cell) : Prop :=
  ∃ c l r, subtree x t = .node c l r ∧ c.count ≤ 1 ∧ l ≠ .leaf ∧ r ≠ .leaf ∧
    1 < (successor c r).count

instance (x : Bytes) (t : BinTree Cell) : Decidable (Doubles x t) :=
  inferInstanceAs (Decidable (∃ _, _))

/-- The last occurrence of the item is removed from a node with a child. -/
def Splices (x : Bytes) (t : BinTree Cell) : Prop :=
  ∃ c l r, subtree x t = .node c l r ∧ c.count ≤ 1 ∧ (l ≠ .leaf ∨ r ≠ .leaf)

instance (x : Bytes) (t : BinTree Cell) : Decidable (Splices x t) :=
  inferInstanceAs (Decidable (∃ _, _))

section
variable {x : Bytes} {new c d : Cell} {l r t : BinTree Cell} {cells cells' more : List Cell}

theorem ptrs_append : ptrs (cells ++ more) = ptrs cells ++ ptrs more := List.map_append

theorem ptrs_cons : ptrs (c :: cells) = c.ptr :: ptrs cells := rfl

theorem contents_append : contents (cells ++ more) = contents cells ++ contents more :=
  List.map_append

theorem contents_cons : contents (c :: cells) = (c.key, c.count) :: contents cells := rfl

attribute [grind =] ptrs_append ptrs_cons contents_append contents_cons

theorem increasing_append : Increasing (cells ++ more) ↔ Increasing cells ∧ Increasing more ∧
    ∀ c ∈ cells, ∀ d ∈ more, strcmp c.key d.key = .lt :=
  List.pairwise_append

theorem increasing_cons : Increasing (c :: cells) ↔
    (∀ d ∈ cells, strcmp c.key d.key = .lt) ∧ Increasing cells :=
  List.pairwise_cons

/-- The order of a tree by its root. -/
theorem increasing_node : Increasing (BinTree.node c l r).inorder ↔
    Increasing l.inorder ∧ Increasing r.inorder ∧
      (∀ d ∈ l.inorder, strcmp d.key c.key = .lt) ∧ ∀ d ∈ r.inorder, strcmp c.key d.key = .lt := by
  simp only [inorder, increasing_append, increasing_cons, List.mem_cons]
  constructor
  · rintro ⟨hl, ⟨gt, hr⟩, lt⟩
    exact ⟨hl, hr, fun d mem => lt d mem c (Or.inl rfl), gt⟩
  · rintro ⟨hl, hr, lt, gt⟩
    refine ⟨hl, ⟨gt, hr⟩, fun d mem e mem' => ?_⟩
    rcases mem' with rfl | mem'
    · exact lt d mem
    · exact strcmp_trans (lt d mem) (gt e mem')

/-- Everything on the right of an item is greater than what is less than the item. -/
theorem above (order : Increasing (BinTree.node c l r).inorder) (lt : strcmp x c.key = .lt) :
    ∀ d ∈ c :: r.inorder, strcmp x d.key = .lt := by
  obtain ⟨_, _, _, gt⟩ := increasing_node.mp order
  intro d mem
  rcases List.mem_cons.mp mem with rfl | mem
  · exact lt
  · exact strcmp_trans lt (gt d mem)

theorem below (order : Increasing (BinTree.node c l r).inorder) (gt : strcmp x c.key = .gt) :
    ∀ d ∈ l.inorder ++ [c], strcmp d.key x = .lt := by
  obtain ⟨_, _, lt, _⟩ := increasing_node.mp order
  have gt := strcmp_eq_gt.mp gt
  intro d mem
  rcases List.mem_append.mp mem with mem | mem
  · exact strcmp_trans (lt d mem) gt
  · obtain rfl := List.mem_singleton.mp mem
    exact gt

theorem Inserted.append_right (h : Inserted x new cells cells')
    (greater : ∀ c ∈ more, strcmp x c.key = .lt) :
    Inserted x new (cells ++ more) (cells' ++ more) := by
  rcases h with ⟨before, c, after, rfl, key, rfl⟩ | ⟨before, after, rfl, rfl, lt, gt⟩
  · exact Or.inl ⟨before, c, after ++ more, by simp, key, by simp⟩
  · refine Or.inr ⟨before, after ++ more, by simp, by simp, lt, ?_⟩
    exact List.forall_mem_append.mpr ⟨gt, greater⟩

theorem Inserted.append_left (h : Inserted x new cells cells')
    (less : ∀ c ∈ more, strcmp c.key x = .lt) :
    Inserted x new (more ++ cells) (more ++ cells') := by
  rcases h with ⟨before, c, after, rfl, key, rfl⟩ | ⟨before, after, rfl, rfl, lt, gt⟩
  · exact Or.inl ⟨more ++ before, c, after, by simp, key, by simp⟩
  · refine Or.inr ⟨more ++ before, after, by simp, by simp, ?_, gt⟩
    exact List.forall_mem_append.mpr ⟨less, lt⟩

@[simp] theorem inorder_settleTree (side : Side) (x : Bytes) (t : BinTree Cell) :
    (settleTree side x t).inorder = t.inorder := by
  fun_cases settleTree <;> simp

theorem insertTree_inserted (order : Increasing t.inorder) :
    Inserted x new t.inorder (insertTree x new t).inorder := by
  fun_induction insertTree x new t with
  | case1 => exact Or.inr ⟨[], [], rfl, rfl, by simp, by simp⟩
  | case2 c l r same =>
    exact Or.inl ⟨l.inorder, c, r.inorder, rfl, (strcmp_eq_eq.mp same).symm, rfl⟩
  | case3 c l r lt ih =>
    rw [inorder_settleTree]
    exact (ih (increasing_node.mp order).1).append_right (above order lt)
  | case4 c l r gt ih =>
    rw [inorder_settleTree]
    have ih := (ih (increasing_node.mp order).2.1).append_left (below order gt)
    simpa using ih

theorem Lost.append_right {items items' more : List (Bytes × Nat)} (h : Lost x items items')
    (ne : ∀ i ∈ more, i.1 ≠ x) : Lost x (items ++ more) (items' ++ more) := by
  rcases h with ⟨absent, rfl⟩ | ⟨before, n, after, rfl, rfl⟩
  · exact Or.inl ⟨List.forall_mem_append.mpr ⟨absent, ne⟩, rfl⟩
  · exact Or.inr ⟨before, n, after ++ more, by simp, by simp⟩

theorem Lost.append_left {items items' more : List (Bytes × Nat)} (h : Lost x items items')
    (ne : ∀ i ∈ more, i.1 ≠ x) : Lost x (more ++ items) (more ++ items') := by
  rcases h with ⟨absent, rfl⟩ | ⟨before, n, after, rfl, rfl⟩
  · exact Or.inl ⟨List.forall_mem_append.mpr ⟨ne, absent⟩, rfl⟩
  · exact Or.inr ⟨more ++ before, n, after, by simp, by simp⟩

theorem ne_of_lt {i : Bytes × Nat} (less : ∀ c ∈ cells, strcmp c.key x = .lt)
    (mem : i ∈ contents cells) : i.1 ≠ x := by
  obtain ⟨c, inside, rfl⟩ := List.mem_map.mp mem
  rintro rfl
  exact strcmp_irrefl _ (less c inside)

theorem ne_of_gt {i : Bytes × Nat} (greater : ∀ c ∈ cells, strcmp x c.key = .lt)
    (mem : i ∈ contents cells) : i.1 ≠ x := by
  obtain ⟨c, inside, rfl⟩ := List.mem_map.mp mem
  rintro rfl
  exact strcmp_irrefl _ (greater c inside)

theorem inorder_ne_nil (h : t ≠ .leaf) : t.inorder ≠ [] := by
  cases t with
  | leaf => exact absurd rfl h
  | node c l r => simp

theorem inorder_eq_successor (h : r ≠ .leaf) (c : Cell) :
    ∃ rest, r.inorder = successor c r :: rest := by
  obtain ⟨d, rest, split⟩ := List.exists_cons_of_ne_nil (inorder_ne_nil h)
  exact ⟨rest, by simp [successor, split]⟩

/-- The first cell stands in a node without a left child. -/
theorem subtree_first {s : Cell} {rest : List Cell} (order : Increasing r.inorder)
    (first : r.inorder = s :: rest) : ∃ q, subtree s.key r = .node s .leaf q := by
  induction r generalizing rest with
  | leaf => simp at first
  | node c l q ihl _ =>
    by_cases empty : l = .leaf
    · subst empty
      obtain ⟨rfl, _⟩ : c = s ∧ q.inorder = rest := by simpa using first
      have same : strcmp c.key c.key = .eq := strcmp_eq_eq.mpr rfl
      exact ⟨q, by simp only [subtree, same]⟩
    · obtain ⟨hl, _, lt, _⟩ := increasing_node.mp order
      obtain ⟨d, more, split⟩ := List.exists_cons_of_ne_nil (inorder_ne_nil empty)
      obtain ⟨rfl, _⟩ : d = s ∧ more ++ c :: q.inorder = rest := by simpa [split] using first
      have less : strcmp d.key c.key = .lt := lt d (by simp [split])
      simp only [subtree, less]
      exact ihl hl split

/-- Removing the first item from its own subtree. -/
theorem Lost.first {s : Cell} {rest : List Cell} {items : List (Bytes × Nat)}
    (order : Increasing (s :: rest)) (once : s.count ≤ 1)
    (h : Lost s.key (contents (s :: rest)) items) : items = contents rest := by
  have other : ∀ i ∈ contents rest, i.1 ≠ s.key := fun i mem =>
    ne_of_gt (increasing_cons.mp order).1 mem
  rcases h with ⟨absent, _⟩ | ⟨before, n, after, split, rfl⟩
  · exact absurd rfl (absent (s.key, s.count) (by simp [contents]))
  · rw [contents_cons] at split
    cases before with
    | nil =>
      obtain ⟨rfl, rfl⟩ : s.count = n ∧ contents rest = after := by simpa using split
      simp [Nat.not_lt.mpr once]
    | cons i before =>
      obtain ⟨_, later⟩ : (s.key, s.count) = i ∧ contents rest = before ++ (s.key, n) :: after := by
        simpa using split
      exact absurd rfl (other (s.key, n) (by simp [later]))

theorem removeTree_lost (order : Increasing t.inorder) (single : ¬ Doubles x t) :
    Lost x (contents t.inorder) (contents (removeTree x t).inorder) := by
  fun_induction removeTree x t with
  | case1 => exact Or.inl ⟨by simp [contents], rfl⟩
  | case2 x c l r lt ih =>
    have single : ¬ Doubles x l := by simpa only [Doubles, subtree, lt] using single
    have ih := (ih (increasing_node.mp order).1 single).append_right
      fun i => ne_of_gt (above order lt)
    simpa [contents] using ih
  | case3 x c l r gt ih =>
    have single : ¬ Doubles x r := by simpa only [Doubles, subtree, gt] using single
    have ih := (ih (increasing_node.mp order).2.1 single).append_left
      fun i => ne_of_lt (below order gt)
    simpa [contents] using ih
  | case4 x c l r same many =>
    obtain rfl := strcmp_eq_eq.mp same
    exact Or.inr ⟨contents l.inorder, c.count, contents r.inorder, by simp [contents],
      by simp [contents, many]⟩
  | case5 x c l r same once empty =>
    obtain rfl := strcmp_eq_eq.mp same
    rcases lone_eq_some empty with ⟨rfl, rfl⟩ | ⟨rfl, rfl⟩ <;>
      exact Or.inr ⟨[], c.count, [], by simp [contents], by simp [contents, once]⟩
  | case6 x c l r same once d a b only =>
    obtain rfl := strcmp_eq_eq.mp same
    refine Or.inr ⟨contents l.inorder, c.count, contents r.inorder, by simp [contents], ?_⟩
    rcases lone_eq_some only with ⟨rfl, rfl⟩ | ⟨rfl, rfl⟩ <;> simp [contents, once]
  | case7 x c l r same once both ih =>
    obtain ⟨hl, hr⟩ := lone_eq_none both
    obtain ⟨_, order', _, _⟩ := increasing_node.mp order
    obtain ⟨rest, first⟩ := inorder_eq_successor hr c
    obtain ⟨q, alone⟩ := subtree_first order' first
    have unique : (successor c r).count ≤ 1 := by
      by_contra many
      exact single ⟨c, l, r, by simp only [subtree, same], by omega, hl, hr, by omega⟩
    have single' : ¬ Doubles (successor c r).key r := by
      rintro ⟨_, _, _, split, _, left, _⟩
      rw [alone] at split
      injection split with _ empty
      exact left empty.symm
    have ih := ih order' single'
    rw [first] at ih
    have gone := ih.first (first ▸ order') unique
    obtain rfl := strcmp_eq_eq.mp same
    refine Or.inr ⟨contents l.inorder, c.count, contents r.inorder, by simp [contents], ?_⟩
    simp [contents_append, contents_cons, gone, once, first]

theorem mem_ptrs {p : Nat} : p ∈ ptrs cells ↔ ∃ c ∈ cells, c.ptr = p := List.mem_map

theorem Shrinks.refl (cells : List Cell) : Shrinks cells cells :=
  ⟨fun c mem => mem_ptrs.mpr ⟨c, mem, rfl⟩, fun c mem => ⟨c, mem, rfl, rfl⟩, id⟩

theorem Shrinks.ptrs_sub (h : Shrinks cells cells') {p : Nat} (mem : p ∈ ptrs cells') :
    p ∈ ptrs cells := by
  obtain ⟨c, inside, rfl⟩ := mem_ptrs.mp mem
  exact h.nodes c inside

/-- Beside unchanged cells, where the nodes are all different. -/
theorem Shrinks.append {before before' after after' : List Cell} (h : Shrinks before before')
    (h' : Shrinks after after') : Shrinks (before ++ after) (before' ++ after') := by
  refine ⟨?_, ?_, ?_⟩
  · rw [ptrs_append]
    intro c mem
    rcases List.mem_append.mp mem with mem | mem
    · exact List.mem_append_left _ (h.nodes c mem)
    · exact List.mem_append_right _ (h'.nodes c mem)
  · intro c mem
    rcases List.mem_append.mp mem with mem | mem
    · obtain ⟨d, inside, same⟩ := h.strings c mem
      exact ⟨d, List.mem_append_left _ inside, same⟩
    · obtain ⟨d, inside, same⟩ := h'.strings c mem
      exact ⟨d, List.mem_append_right _ inside, same⟩
  · simp only [ptrs_append, List.nodup_append]
    rintro ⟨first, second, apart⟩
    refine ⟨h.nodup first, h'.nodup second, fun p mem q mem' => ?_⟩
    exact apart p (h.ptrs_sub mem) q (h'.ptrs_sub mem')

/-- The node of `c` takes over the string of one of the cells behind it. -/
theorem Shrinks.moved {s : Cell} (h : Shrinks cells cells') (mem : s ∈ cells) (c : Cell) :
    Shrinks (c :: cells) (s.moved c.ptr :: cells') := by
  refine ⟨?_, ?_, ?_⟩
  · intro d inside
    rcases List.mem_cons.mp inside with rfl | inside
    · exact List.mem_cons_self
    · exact List.mem_cons_of_mem _ (h.nodes d inside)
  · intro d inside
    rcases List.mem_cons.mp inside with rfl | inside
    · exact ⟨s, List.mem_cons_of_mem _ mem, rfl, rfl⟩
    · obtain ⟨e, there, same⟩ := h.strings d inside
      exact ⟨e, List.mem_cons_of_mem _ there, same⟩
  · simp only [ptrs_cons, Cell.moved_ptr, List.nodup_cons]
    rintro ⟨other, nodup⟩
    exact ⟨fun twice => other (h.ptrs_sub twice), h.nodup nodup⟩

theorem shrinks_recount (c : Cell) (n : Nat) (cells : List Cell) :
    Shrinks (c :: cells) (c.counted n :: cells) := by
  refine ⟨?_, ?_, id⟩
  · intro d mem
    rcases List.mem_cons.mp mem with rfl | mem
    · exact List.mem_cons_self
    · exact List.mem_cons_of_mem _ (mem_ptrs.mpr ⟨d, mem, rfl⟩)
  · intro d mem
    rcases List.mem_cons.mp mem with rfl | mem
    · exact ⟨c, List.mem_cons_self, rfl, rfl⟩
    · exact ⟨d, List.mem_cons_of_mem _ mem, rfl, rfl⟩

theorem strings_moved {a b : List Cell} (sub : ∀ e ∈ a ++ d :: b, e ∈ cells) (p : Nat) :
    ∀ e ∈ a ++ d.moved p :: b, ∃ f ∈ cells, f.item = e.item ∧ f.key = e.key := by
  intro e mem
  rcases List.mem_append.mp mem with mem | mem
  · exact ⟨e, sub e (List.mem_append_left _ mem), rfl, rfl⟩
  · rcases List.mem_cons.mp mem with rfl | mem
    · exact ⟨d, sub d (by simp), rfl, rfl⟩
    · exact ⟨e, sub e (by simp [mem]), rfl, rfl⟩

/-- A child is copied into the node of its parent. -/
theorem lone_shrinks {a b : BinTree Cell} (only : lone l r = some (.node d a b)) (c : Cell) :
    Shrinks (BinTree.node c l r).inorder (BinTree.node (d.moved c.ptr) a b).inorder := by
  rcases lone_eq_some only with ⟨rfl, rfl⟩ | ⟨rfl, rfl⟩ <;>
    refine ⟨by grind [ptrs], strings_moved (by grind [inorder]) c.ptr, ?_⟩ <;>
    simp only [inorder, ptrs_append, ptrs_cons, Cell.moved_ptr] <;>
    grind

theorem removeTree_shrinks (x : Bytes) (t : BinTree Cell) :
    Shrinks t.inorder (removeTree x t).inorder := by
  fun_induction removeTree x t with
  | case1 => exact Shrinks.refl _
  | case2 x c l r _ ih =>
    rw [inorder_rebalance]
    exact ih.append (Shrinks.refl _)
  | case3 x c l r _ ih =>
    rw [inorder_rebalance]
    have := (Shrinks.refl (l.inorder ++ [c])).append ih
    simpa using this
  | case4 x c l r =>
    exact (Shrinks.refl l.inorder).append (shrinks_recount c (c.count - 1) r.inorder)
  | case5 x c l r => exact ⟨by simp, by simp, by simp [ptrs]⟩
  | case6 x c l r _ _ d a b only =>
    rw [inorder_rebalance]
    exact lone_shrinks only c
  | case7 x c l r _ _ both ih =>
    rw [inorder_rebalance]
    obtain ⟨rest, first⟩ := inorder_eq_successor (lone_eq_none both).2 c
    refine (Shrinks.refl l.inorder).append (ih.moved ?_ c)
    rw [first]
    exact List.mem_cons_self

/-- A removal frees one string and one node that is no longer in the tree, or nothing. -/
def Frees (cells cells' : List Cell) (blocks : List Nat) : Prop :=
  blocks = [] ∨ ∃ c ∈ cells, ∃ p ∈ ptrs cells, blocks = [c.item, p] ∧
    ((ptrs cells).Nodup → p ∉ ptrs cells')

theorem Frees.append {before before' after after' : List Cell} {blocks : List Nat}
    (h : Frees before before' blocks) (same : Shrinks after after') :
    Frees (before ++ after) (before' ++ after') blocks := by
  rcases h with none_ | ⟨c, mem, p, mem', freed, gone⟩
  · exact Or.inl none_
  · refine Or.inr ⟨c, List.mem_append_left _ mem, p, ?_, freed, ?_⟩
    · rw [ptrs_append]
      exact List.mem_append_left _ mem'
    · simp only [ptrs_append, List.nodup_append, List.mem_append, not_or]
      rintro ⟨nodup, _, apart⟩
      exact ⟨gone nodup, fun twice => apart p mem' p (same.ptrs_sub twice) rfl⟩

theorem Frees.append_left {before before' after after' : List Cell} {blocks : List Nat}
    (h : Frees after after' blocks) (same : Shrinks before before') :
    Frees (before ++ after) (before' ++ after') blocks := by
  rcases h with none_ | ⟨c, mem, p, mem', freed, gone⟩
  · exact Or.inl none_
  · refine Or.inr ⟨c, List.mem_append_right _ mem, p, ?_, freed, ?_⟩
    · rw [ptrs_append]
      exact List.mem_append_right _ mem'
    · simp only [ptrs_append, List.nodup_append, List.mem_append, not_or]
      rintro ⟨_, nodup, apart⟩
      exact ⟨fun twice => apart p (same.ptrs_sub twice) p mem' rfl, gone nodup⟩

theorem freed_frees (x : Bytes) (t : BinTree Cell) :
    Frees t.inorder (removeTree x t).inorder (freed x t) := by
  fun_induction removeTree x t with
  | case1 => exact Or.inl rfl
  | case2 x c l r lt ih =>
    simp only [freed, lt, inorder_rebalance]
    exact ih.append (Shrinks.refl _)
  | case3 x c l r gt ih =>
    simp only [freed, gt, inorder_rebalance]
    have := ih.append_left (Shrinks.refl (l.inorder ++ [c]))
    simpa using this
  | case4 x c l r same many =>
    simp only [freed, same, if_pos many]
    exact Or.inl rfl
  | case5 x c l r same once empty =>
    simp only [freed, same, if_neg once, empty]
    exact Or.inr ⟨c, by simp, c.ptr, by simp [ptrs], rfl, by simp [ptrs]⟩
  | case6 x c l r same once d a b only =>
    simp only [freed, same, if_neg once, only, inorder_rebalance]
    rcases lone_eq_some only with ⟨rfl, rfl⟩ | ⟨rfl, rfl⟩
    · refine Or.inr ⟨d, by simp, d.ptr, by simp [ptrs], rfl, ?_⟩
      simp only [inorder, ptrs_append, ptrs_cons, Cell.moved_ptr]
      grind
    · refine Or.inr ⟨d, by simp, d.ptr, by simp [ptrs], rfl, ?_⟩
      simp only [inorder, ptrs_append, ptrs_cons, Cell.moved_ptr]
      grind
  | case7 x c l r same once both ih =>
    simp only [freed, same, if_neg once, both, inorder_rebalance]
    refine Frees.append_left ?_ (Shrinks.refl l.inorder)
    rcases ih with none_ | ⟨d, mem, p, mem', blocks, gone⟩
    · exact Or.inl none_
    · refine Or.inr ⟨d, List.mem_cons_of_mem _ mem, p, List.mem_cons_of_mem _ mem', blocks, ?_⟩
      simp only [ptrs_cons, Cell.moved_ptr, List.nodup_cons, List.mem_cons, not_or]
      rintro ⟨other, nodup⟩
      refine ⟨?_, gone nodup⟩
      rintro rfl
      exact other mem'

/-- The blocks of the nodes and of the strings. -/
def places (cells : List Cell) : List (Nat × Nat) := cells.map fun c => (c.ptr, c.item)

theorem places_append : places (cells ++ more) = places cells ++ places more := List.map_append

theorem places_cons : places (c :: cells) = (c.ptr, c.item) :: places cells := rfl

/-- Unless the node of a last occurrence has a child, a removal frees the blocks of one cell and
leaves the others in the tree. -/
theorem removeTree_places (whole : ¬ Splices x t) :
    freed x t = [] ∧ places (removeTree x t).inorder = places t.inorder ∨
      ∃ before c after, t.inorder = before ++ c :: after ∧
        (removeTree x t).inorder = before ++ after ∧ freed x t = [c.item, c.ptr] := by
  fun_induction removeTree x t with
  | case1 => exact Or.inl ⟨rfl, rfl⟩
  | case2 x c l r lt ih =>
    have whole : ¬ Splices x l := by simpa only [Splices, subtree, lt] using whole
    simp only [freed, lt, inorder_rebalance, inorder]
    rcases ih whole with ⟨none_, same⟩ | ⟨before, d, after, split, gone, blocks⟩
    · exact Or.inl ⟨none_, by simp only [places_append, same]⟩
    · refine Or.inr ⟨before, d, after ++ c :: r.inorder, ?_, ?_, blocks⟩
      · simp [split]
      · simp [gone]
  | case3 x c l r gt ih =>
    have whole : ¬ Splices x r := by simpa only [Splices, subtree, gt] using whole
    simp only [freed, gt, inorder_rebalance, inorder]
    rcases ih whole with ⟨none_, same⟩ | ⟨before, d, after, split, gone, blocks⟩
    · exact Or.inl ⟨none_, by simp only [places_append, places_cons, same]⟩
    · refine Or.inr ⟨l.inorder ++ c :: before, d, after, ?_, ?_, blocks⟩
      · simp [split]
      · simp [gone]
  | case4 x c l r same many =>
    simp only [freed, same, if_pos many]
    exact Or.inl ⟨trivial, by simp [places]⟩
  | case5 x c l r same once empty =>
    simp only [freed, same, if_neg once, empty]
    rcases lone_eq_some empty with ⟨rfl, rfl⟩ | ⟨rfl, rfl⟩ <;>
      exact Or.inr ⟨[], c, [], by simp, by simp, rfl⟩
  | case6 x c l r same once d a b only =>
    refine absurd ⟨c, l, r, by simp only [subtree, same], by omega, ?_⟩ whole
    rcases lone_eq_some only with ⟨rfl, rfl⟩ | ⟨rfl, rfl⟩
    · exact Or.inl (by simp)
    · exact Or.inr (by simp)
  | case7 x c l r same once both ih =>
    exact absurd ⟨c, l, r, by simp only [subtree, same], by omega, Or.inl (lone_eq_none both).1⟩
      whole

end

end OsProjects.Persistent
