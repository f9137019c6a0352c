import OsProjects.Persistent.WordStore
import Mathlib.Data.Multiset.AddSub
import Mathlib.Data.Finset.Card
import Mathlib.Algebra.BigOperators.Group.Multiset.Basic

/-!
# The word tree as a multiset

A run of insertions and removals is compared with the same run on a multiset of strings.
Two defects set the limits. A node with two children whose successor occurs more than
once leaves the successor in two nodes. And a removal that moves a string to another
node frees the string that stays, so that a later allocation may overwrite it.
-/
namespace OsProjects.Persistent
open OsProjects.Library BinTree

def bagStep (m : Multiset Bytes) : Edit → Multiset Bytes
  | .insert x => x.bytes ::ₘ m
  | .remove x => m.erase x.bytes

/-- The multiset a run of edits builds. -/
def bag (edits : List Edit) : Multiset Bytes := edits.foldl bagStep 0

/-- What the store shows of a multiset. -/
structure Implements (scm : Scm) (m : Multiset Bytes) : Prop where
  count : ∀ x : Item, avlExists scm x.bytes = .ok (m.count x.bytes)
  items : avlItems scm = m.card
  unique : avlUnique scm = m.toFinset.card
  visits : ∃ visits, avlTraverse scm = .ok visits ∧
    (visits.Pairwise fun i j => strcmp i.1 j.1 = .lt) ∧
    ∀ x n, (x, n) ∈ visits ↔ n = m.count x ∧ 0 < n

/-- The allocations of an insertion stay inside the file and give no block that holds the string
of an item, and the counters do not wrap; a removal does not meet a successor that occurs more
than once. -/
def KeepsItems (scm : Scm) : Edit → Prop
  | .insert x => scm.items + 1 < 2 ^ 64 ∧ ∀ t, scm.tree = .ok t →
      (∀ c ∈ t.inorder, c.key ≠ x.bytes) →
        Grants scm x.bytes fun p => ∃ c ∈ t.inorder, p = c.item
  | .remove x => ∀ t, scm.tree = .ok t → ¬ Doubles x.bytes t

instance (scm : Scm) : DecidablePred (KeepsItems scm)
  | .insert _ => inferInstanceAs (Decidable (_ ∧ ∀ _, _ = _ → _))
  | .remove _ => inferInstanceAs (Decidable (∀ _, _ = _ → _))

/-- The multiset of a list of counted items. -/
def bagOf (items : List (Bytes × Nat)) : Multiset Bytes :=
  (items.map fun i => Multiset.replicate i.2 i.1).sum

section
variable {scm scm' : Scm} {blocks blocks' : List Block} {t : BinTree Cell} {c new : Cell}
  {x : Bytes} {items items' more : List (Bytes × Nat)} {m : Multiset Bytes} {n : Nat}

@[simp] theorem bagOf_nil : bagOf [] = 0 := rfl

@[simp] theorem bagOf_cons (i : Bytes × Nat) :
    bagOf (i :: items) = Multiset.replicate i.2 i.1 + bagOf items := by
  simp [bagOf]

@[simp] theorem bagOf_append : bagOf (items ++ more) = bagOf items + bagOf more := by
  simp [bagOf]

theorem mem_bagOf (positive : ∀ i ∈ items, 0 < i.2) :
    x ∈ bagOf items ↔ ∃ i ∈ items, i.1 = x := by
  induction items with
  | nil => simp
  | cons i items ih =>
    obtain ⟨here, later⟩ := List.forall_mem_cons.mp positive
    rw [bagOf_cons, Multiset.mem_add, Multiset.mem_replicate, ih later, List.exists_mem_cons_iff]
    constructor
    · rintro (⟨_, rfl⟩ | later)
      · exact Or.inl rfl
      · exact Or.inr later
    · rintro (rfl | later)
      · exact Or.inl ⟨by omega, rfl⟩
      · exact Or.inr later

theorem count_bagOf_absent (absent : ∀ i ∈ items, i.1 ≠ x) : (bagOf items).count x = 0 := by
  induction items with
  | nil => simp
  | cons i items ih =>
    obtain ⟨here, later⟩ := List.forall_mem_cons.mp absent
    rw [bagOf_cons, Multiset.count_add, ih later, Multiset.count_replicate, if_neg here]

/-- In an increasing list each item has the count that stands beside it. -/
theorem count_bagOf (order : items.Pairwise fun i j => strcmp i.1 j.1 = .lt)
    (mem : (x, n) ∈ items) : (bagOf items).count x = n := by
  obtain ⟨before, after, rfl⟩ := List.append_of_mem mem
  obtain ⟨_, second, across⟩ := List.pairwise_append.mp order
  have left : ∀ i ∈ before, i.1 ≠ x := by
    rintro i inside rfl
    exact strcmp_irrefl _ (across i inside (i.1, n) (by simp))
  have right : ∀ i ∈ after, i.1 ≠ x := by
    rintro i inside rfl
    exact strcmp_irrefl _ ((List.pairwise_cons.mp second).1 i inside)
  simp [count_bagOf_absent left, count_bagOf_absent right]

theorem length_le_card (positive : ∀ i ∈ items, 0 < i.2) :
    items.length ≤ (bagOf items).card := by
  induction items with
  | nil => simp
  | cons i items ih =>
    obtain ⟨here, later⟩ := List.forall_mem_cons.mp positive
    have := ih later
    simp only [bagOf_cons, Multiset.card_add, Multiset.card_replicate, List.length_cons]
    omega

theorem card_toFinset_bagOf (positive : ∀ i ∈ items, 0 < i.2)
    (order : items.Pairwise fun i j => strcmp i.1 j.1 = .lt) :
    (bagOf items).toFinset.card = items.length := by
  have keys : (bagOf items).toFinset = (items.map Prod.fst).toFinset := by
    ext x
    simp only [Multiset.mem_toFinset, mem_bagOf positive, List.mem_toFinset, List.mem_map]
  have nodup : (items.map Prod.fst).Nodup := by
    refine List.pairwise_map.mpr (order.imp ?_)
    intro i j less same
    rw [same] at less
    exact strcmp_irrefl _ less
  rw [keys, List.toFinset_card_of_nodup nodup, List.length_map]

theorem Inserted.contents {cells cells' : List Cell} (h : Inserted x new cells cells')
    (fresh : (∀ c ∈ cells, c.key ≠ x) → new.key = x ∧ new.count = 1)
    (small : ∀ c ∈ cells, c.count + 1 < 2 ^ 64) :
    bagOf (contents cells') = x ::ₘ bagOf (contents cells) ∧
      ((∀ i ∈ contents cells, 0 < i.2) → ∀ i ∈ contents cells', 0 < i.2) := by
  have split := h.cases
  rcases h with ⟨before, c, after, rfl, rfl, rfl⟩ | ⟨before, after, rfl, rfl, less, greater⟩
  · have count : (c.count + 1) % 2 ^ 64 = c.count + 1 := Nat.mod_eq_of_lt (small c (by simp))
    constructor
    · simp only [contents_append, contents_cons, Cell.counted_key, Cell.counted_count, count]
      simp [Multiset.replicate_succ]
    · intro positive i mem
      simp only [contents_append, contents_cons, List.mem_append, List.mem_cons,
        Cell.counted_key, Cell.counted_count, count] at mem positive
      rcases mem with mem | rfl | mem
      · exact positive i (Or.inl mem)
      · exact Nat.succ_pos _
      · exact positive i (Or.inr (Or.inr mem))
  · obtain ⟨rfl, one⟩ := fresh fun c mem same => by
      subst same
      rcases List.mem_append.mp mem with mem | mem
      · exact strcmp_irrefl _ (less c mem)
      · exact strcmp_irrefl _ (greater c mem)
    constructor
    · simp [contents_append, contents_cons, one]
    · intro positive i mem
      simp only [contents_append, contents_cons, List.mem_append, List.mem_cons, one]
        at mem positive
      rcases mem with mem | rfl | mem
      · exact positive i (Or.inl mem)
      · exact Nat.one_pos
      · exact positive i (Or.inr mem)

theorem Lost.contents (h : Lost x items items') (positive : ∀ i ∈ items, 0 < i.2) :
    bagOf items' = (bagOf items).erase x ∧ ∀ i ∈ items', 0 < i.2 := by
  rcases h with ⟨absent, rfl⟩ | ⟨before, n, after, rfl, rfl⟩
  · refine ⟨(Multiset.erase_of_notMem ?_).symm, positive⟩
    rw [mem_bagOf positive]
    rintro ⟨i, mem, same⟩
    exact absent i mem same
  · have pos : 0 < n := positive (x, n) (by simp)
    obtain ⟨k, rfl⟩ := Nat.exists_eq_succ_of_ne_zero (by omega : n ≠ 0)
    have head : bagOf (before ++ (x, k + 1) :: after) =
        x ::ₘ (bagOf before + (Multiset.replicate k x + bagOf after)) := by
      simp [Multiset.replicate_succ]
    rw [head, Multiset.erase_cons_head]
    cases k with
    | zero =>
      refine ⟨by simp, fun i mem => positive i ?_⟩
      simp only [lt_self_iff_false, if_false, List.append_nil, List.mem_append] at mem
      rcases mem with mem | mem <;> simp [mem]
    | succ k =>
      refine ⟨by simp, fun i mem => ?_⟩
      simp only [Nat.lt_add_left_iff_pos, Nat.succ_pos, if_true, Nat.succ_eq_add_one,
        List.append_assoc, List.mem_append, List.mem_singleton] at mem
      rcases mem with mem | rfl | mem
      · exact positive i (by simp [mem])
      · exact Nat.succ_pos _
      · exact positive i (by simp [mem])

theorem length_contents {cells : List Cell} : (contents cells).length = cells.length :=
  List.length_map _

/-- A removal that frees a node takes one cell out of the tree. -/
theorem freed_length (x : Bytes) (t : BinTree Cell) :
    (removeTree x t).inorder.length + (if freed x t = [] then 0 else 1) = t.inorder.length := by
  fun_induction removeTree x t with
  | case1 => rfl
  | case2 x c l r lt ih =>
    simp only [freed, lt, inorder_rebalance, inorder, List.length_append, List.length_cons]
    omega
  | case3 x c l r gt ih =>
    simp only [freed, gt, inorder_rebalance, inorder, List.length_append, List.length_cons]
    omega
  | case4 x c l r same many => simp [freed, same, many]
  | case5 x c l r same once empty =>
    rcases lone_eq_some empty with ⟨rfl, rfl⟩ | ⟨rfl, rfl⟩ <;> simp [freed, same, once, lone]
  | case6 x c l r same once d a b only =>
    rcases lone_eq_some only with ⟨rfl, rfl⟩ | ⟨rfl, rfl⟩
    · simp [freed, same, once, lone]
      omega
    · simp [freed, same, once, lone]
  | case7 x c l r same once both ih =>
    simp only [freed, same, if_neg once, both, inorder_rebalance, inorder, List.length_append,
      List.length_cons]
    omega

/-- The counts of the tree and of the state block are those of the multiset. -/
structure Counts (scm : Scm) (t : BinTree Cell) (m : Multiset Bytes) : Prop where
  bag : m = bagOf (contents t.inorder)
  positive : ∀ i ∈ contents t.inorder, 0 < i.2
  items : scm.items = m.card
  unique : scm.unique = t.inorder.length

theorem Counts.count_le (h : Counts scm t m) (mem : c ∈ t.inorder)
    (order : Increasing t.inorder) : c.count ≤ scm.items := by
  have inside : (c.key, c.count) ∈ contents t.inorder := List.mem_map.mpr ⟨c, mem, rfl⟩
  rw [h.items, h.bag, ← count_bagOf ((increasing_iff _).mp order) inside]
  exact Multiset.count_le_card _ _

theorem Counts.implements (h : Counts scm t m) (store : Store scm blocks t) :
    Implements scm m := by
  have order := (increasing_iff _).mp store.rooted.increasing
  have absent : ∀ x, (∀ c ∈ t.inorder, c.key ≠ x) → m.count x = 0 := by
    intro x none_
    rw [h.bag]
    refine count_bagOf_absent fun i mem => ?_
    obtain ⟨c, inside, rfl⟩ := List.mem_map.mp mem
    exact none_ c inside
  refine ⟨fun x => ?_, h.items, ?_, contents t.inorder, store.traverse_ok, order, fun x n => ?_⟩
  · obtain ⟨n, ok, ⟨c, mem, key, rfl⟩ | ⟨none_, rfl⟩⟩ := store.rooted.exists_ok store.root x.bytes
    · rw [ok, h.bag, count_bagOf order (List.mem_map.mpr ⟨c, mem, by rw [key]⟩)]
    · rw [ok, absent _ none_]
  · rw [avlUnique, h.unique, h.bag, card_toFinset_bagOf h.positive order, length_contents]
  · constructor
    · intro mem
      rw [h.bag, count_bagOf order mem]
      exact ⟨rfl, h.positive _ mem⟩
    · rintro ⟨rfl, pos⟩
      by_contra missing
      have zero : m.count x = 0 := by
        refine absent x fun c mem key => missing (List.mem_map.mpr ⟨c, mem, ?_⟩)
        rw [h.bag, count_bagOf order (List.mem_map.mpr ⟨c, mem, by rw [key]⟩), key]
      omega

/-- A block that is given away is not allocated, so it is enough that it holds no string. -/
theorem Store.grants (h : Store scm blocks t)
    (grants : Grants scm x fun p => ∃ c ∈ t.inorder, p = c.item) : Grants scm x (HeldBy t) := by
  refine (grants.fresh h.rooted.rep).imp ?_
  rintro p (rfl | ⟨c, mem, rfl | rfl⟩)
  · exact Or.inr h.state_live
  · exact Or.inr (h.nodes_live c mem)
  · exact Or.inl ⟨c, mem, rfl⟩

theorem Store.insert_counts (h : Store scm blocks t) (counts : Counts scm t m) (x : Item)
    (small : scm.items + 1 < 2 ^ 64) (spare : (∀ c ∈ t.inorder, c.key ≠ x.bytes) →
      Grants scm x.bytes fun p => ∃ c ∈ t.inorder, p = c.item) :
    ∃ scm' blocks' t', avlInsert x.bytes scm = .ok (0, scm') ∧ Store scm' blocks' t' ∧
      Counts scm' t' (x.bytes ::ₘ m) := by
  have order := h.rooted.increasing
  obtain ⟨new, scm', blocks', ok, store, present, absent⟩ :=
    h.insert x fun none_ => h.grants (spare none_)
  have made : (∀ c ∈ t.inorder, c.key ≠ x.bytes) → new.key = x.bytes ∧ new.count = 1 :=
    fun none_ => ⟨(absent none_).1.key, (absent none_).1.count⟩
  have ins : Inserted x.bytes new t.inorder (insertTree x.bytes new t).inorder :=
    insertTree_inserted order
  obtain ⟨bag, positive⟩ := ins.contents made fun c mem =>
    Nat.lt_of_le_of_lt (Nat.succ_le_succ (counts.count_le mem order)) small
  have items : scm'.items = m.card + 1 := by
    have value : (scm.items + 1) % 2 ^ 64 = m.card + 1 := by
      rw [Nat.mod_eq_of_lt small, counts.items]
    by_cases here : ∃ c ∈ t.inorder, c.key = x.bytes
    · exact (present here).2.1.trans value
    · exact (absent fun c mem key => here ⟨c, mem, key⟩).2.1.trans value
  have unique : scm'.unique = (insertTree x.bytes new t).inorder.length := by
    rcases ins with ⟨before, c, after, split, key, split'⟩ | ⟨before, after, split, split', less,
      greater⟩
    · have here : ∃ c ∈ t.inorder, c.key = x.bytes := ⟨c, by simp [split], key⟩
      rw [(present here).2.2, counts.unique, split, split']
      simp
    · have none_ : ∀ c ∈ t.inorder, c.key ≠ x.bytes := by
        intro c mem same
        rw [split, List.mem_append] at mem
        rcases mem with mem | mem
        · exact strcmp_irrefl _ (same ▸ less c mem)
        · exact strcmp_irrefl _ (same ▸ greater c mem)
      have fewer := length_le_card counts.positive
      rw [← counts.bag, ← counts.items, length_contents] at fewer
      rw [(absent none_).2.2, counts.unique, Nat.mod_eq_of_lt (by omega), split, split']
      simp
      omega
  refine ⟨scm', blocks', _, ok, store, ?_, positive counts.positive, ?_, unique⟩
  · rw [bag, ← counts.bag]
  · rw [items]
    exact (Multiset.card_cons _ _).symm

theorem Store.remove_counts (h : Store scm blocks t) (counts : Counts scm t m)
    (single : ¬ Doubles x t) :
    ∃ scm' blocks' t', avlRemove x scm = .ok (0, scm') ∧ Store scm' blocks' t' ∧
      Counts scm' t' (m.erase x) := by
  have order := h.rooted.increasing
  obtain ⟨scm', ok, store, present, absent⟩ := h.remove single
  have lost := removeTree_lost order single
  obtain ⟨bag, positive⟩ := lost.contents counts.positive
  have length := freed_length x t
  have items_lt : scm.items < 2 ^ 64 := Mem.load_lt _ 8 _
  have unique_lt : scm.unique < 2 ^ 64 := Mem.load_lt _ 8 _
  refine ⟨scm', _, _, ok, store, ?_, positive, ?_, ?_⟩
  · rw [bag, ← counts.bag]
  · by_cases here : ∃ c ∈ t.inorder, c.key = x
    · have mem : x ∈ m := by
        obtain ⟨c, mem, key⟩ := here
        rw [counts.bag, mem_bagOf counts.positive]
        exact ⟨(c.key, c.count), List.mem_map.mpr ⟨c, mem, rfl⟩, key⟩
      have pos : 0 < m.card := Multiset.card_pos_iff_exists_mem.mpr ⟨_, mem⟩
      rw [(present here).1, counts.items, Multiset.card_erase_of_mem mem, decr,
        Nat.pred_eq_sub_one]
      rw [counts.items] at items_lt
      omega
    · have none_ : ∀ c ∈ t.inorder, c.key ≠ x := fun c mem key => here ⟨c, mem, key⟩
      have out : x ∉ m := by
        rw [counts.bag, mem_bagOf counts.positive]
        rintro ⟨i, mem, same⟩
        obtain ⟨c, inside, rfl⟩ := List.mem_map.mp mem
        exact none_ c inside same
      rw [(absent none_).1, counts.items, Multiset.erase_of_notMem out]
  · by_cases here : ∃ c ∈ t.inorder, c.key = x
    · rw [(present here).2]
      split_ifs at length ⊢ with none_
      · rw [counts.unique]
        omega
      · rw [decr, counts.unique]
        rw [counts.unique] at unique_lt
        omega
    · have none_ : ∀ c ∈ t.inorder, c.key ≠ x := fun c mem key => here ⟨c, mem, key⟩
      rw [(absent none_).2, counts.unique]
      rcases lost with ⟨_, same⟩ | ⟨before, n, after, split, _⟩
      · rw [← length_contents, ← same, length_contents]
      · have mem : (x, n) ∈ contents t.inorder := by simp [split]
        obtain ⟨c, inside, eq⟩ := List.mem_map.mp mem
        exact absurd (congrArg Prod.fst eq) (none_ c inside)

theorem Store.edit_counts (h : Store scm blocks t) (counts : Counts scm t m) (e : Edit)
    (keeps : KeepsItems scm e) :
    ∃ scm' blocks' t', edit e scm = .ok (0, scm') ∧ Store scm' blocks' t' ∧
      Counts scm' t' (bagStep m e) := by
  cases e with
  | insert x => exact h.insert_counts counts x keeps.1 (keeps.2 t h.tree_ok)
  | remove x => exact h.remove_counts counts (keeps t h.tree_ok)

theorem run_counts (edits : List Edit) (h : Store scm blocks t) (counts : Counts scm t m)
    (admits : Admits KeepsItems scm edits) :
    ∃ scm' blocks' t', runEdits edits scm = .ok scm' ∧ Store scm' blocks' t' ∧
      Counts scm' t' (edits.foldl bagStep m) := by
  induction edits generalizing scm blocks t m with
  | nil => exact ⟨scm, blocks, t, rfl, h, counts⟩
  | cons e edits ih =>
    obtain ⟨keeps, rest⟩ := admits
    obtain ⟨scm₁, blocks₁, t₁, ok, store, counts₁⟩ := h.edit_counts counts e keeps
    simp only [runEdits, ok]
    exact ih store counts₁ (rest 0 scm₁ ok)

end

/-- In every run on a store that was opened empty the tree implements the multiset of the run, as
long as the allocations stay inside the file and reuse no block that holds an item, the counters
do not wrap, and no removal meets a successor that occurs more than once. -/
theorem avl_run_multiset (file : Mem) (capacity : Nat) (mapped : virtAddr + capacity < 2 ^ 64)
    (truncate : Bool) (empty : (scmOpen file capacity mapped truncate).utilized = 0)
    (room : 8 + headerLen + stateLen ≤ capacity) :
    ∃ scm, avlOpen file capacity mapped truncate = .ok (some scm) ∧
      ∀ edits, Admits KeepsItems scm edits →
        ∃ scm', runEdits edits scm = .ok scm' ∧ Implements scm' (bag edits) := by
  obtain ⟨scm, blocks, ok, store, items, unique⟩ :=
    avlOpen_store file capacity mapped truncate empty room
  refine ⟨scm, ok, fun edits admits => ?_⟩
  have counts : Counts scm .leaf 0 := ⟨rfl, by simp [contents], items, unique.1⟩
  obtain ⟨scm', blocks', t, run, store', counts'⟩ := run_counts edits store counts admits
  exact ⟨scm', run, counts'.implements store'⟩

def edits_ab : List Edit :=
  [.insert (.letter 98 b_ne_nul), .insert (.letter 97 a_ne_nul),
    .insert (.letter 97 a_ne_nul), .remove (.letter 97 a_ne_nul)]

set_option maxRecDepth 100000 in
theorem avl_run_multiset_ab :
    ∃ scm scm', avlOpen (fun _ => 0) 400 (by decide) true = .ok (some scm) ∧
      runEdits edits_ab scm = .ok scm' ∧ Implements scm' {[97], [98]} := by
  obtain ⟨scm, ok, runs⟩ := avl_run_multiset (fun _ => 0) 400 (by decide) true
    (by decide +kernel) (by decide)
  have admits : ∀ o, avlOpen (fun _ => 0) 400 (by decide) true = .ok o → ∀ scm, o = some scm →
      Admits KeepsItems scm edits_ab := by decide +kernel
  obtain ⟨scm', run, shows⟩ := runs _ (admits _ ok scm rfl)
  exact ⟨scm, scm', ok, run, shows⟩

def edits_abcc : List Edit :=
  [.insert (.letter 98 b_ne_nul), .insert (.letter 97 a_ne_nul),
    .insert (.letter 99 c_ne_nul), .insert (.letter 99 c_ne_nul),
    .remove (.letter 98 b_ne_nul)]

set_option maxRecDepth 100000 in
/-- Removing the item of a node with two children whose successor occurs twice. -/
theorem avl_run_doubles :
    ∃ o, avlOpen (fun _ => 0) 400 (by decide) true = .ok o ∧ ∃ scm, o = some scm ∧
      Admits Granted scm edits_abcc ∧ ∃ scm', runEdits edits_abcc scm = .ok scm' ∧
        (∃ visits, avlTraverse scm' = .ok visits ∧
          visits = [([97], 1), ([99], 2), ([99], 1)]) ∧
        ¬ Implements scm' (bag edits_abcc) := by
  have run : ∃ o, avlOpen (fun _ => 0) 400 (by decide) true = .ok o ∧ ∃ scm, o = some scm ∧
      Admits Granted scm edits_abcc ∧ ∃ scm', runEdits edits_abcc scm = .ok scm' ∧
        ∃ visits, avlTraverse scm' = .ok visits ∧ visits = [([97], 1), ([99], 2), ([99], 1)] := by
    decide +kernel
  obtain ⟨o, ok, scm, opened, admits, scm', run, visits, visit, eq⟩ := run
  refine ⟨o, ok, scm, opened, admits, scm', run, ⟨visits, visit, eq⟩, fun shows => ?_⟩
  obtain ⟨visits', visit', order, _⟩ := shows.visits
  obtain rfl := Except.ok.inj (visit.symm.trans visit')
  subst eq
  exact absurd order (by decide)

end OsProjects.Persistent
