import OsProjects.Persistent.WordRemove

/-!
# Runs of the word tree

A store is a region whose state block points to a balanced search tree. The tree can be
read back from the memory; the lookup and the traversal give what the tree holds, and an
insertion or a removal leads from a store to a store. The conditions under which runs
behave are stated on the tree that stands in the memory before a step.
-/
namespace OsProjects.Persistent
open OsProjects.Library BinTree

/-- What a caller may pass: a nonempty string. -/
structure Item where
  bytes : Bytes
  nonempty : bytes ≠ []
  ends : 0 ∉ bytes

def Item.letter (b : UInt8) (h : b ≠ 0) : Item := ⟨[b], by simp, by simpa using h.symm⟩

-- The letters of the runs below.
theorem a_ne_nul : (97 : UInt8) ≠ 0 := by decide
theorem b_ne_nul : (98 : UInt8) ≠ 0 := by decide
theorem c_ne_nul : (99 : UInt8) ≠ 0 := by decide

inductive Edit where
  | insert (x : Item)
  | remove (x : Item)

def edit : Edit → Prog Int
  | .insert x => avlInsert x.bytes
  | .remove x => avlRemove x.bytes

def runEdits : List Edit → Scm → Except Fault Scm
  | [], scm => .ok scm
  | e :: es, scm =>
    match edit e scm with
    | .error f => .error f
    | .ok (_, scm) => runEdits es scm

/-- The tree at a pointer, read node by node. -/
def readTree : Nat → Nat → Prog (BinTree Cell)
  | 0, _ => fault .hang
  | fuel + 1, p =>
    if p = 0 then return .leaf
    else do
      let n ← getNode p
      let s ← getString n.item
      let l ← readTree fuel n.left
      let r ← readTree fuel n.right
      return .node ⟨p, n.count, n.item, s⟩ l r

def Scm.tree (scm : Scm) : Except Fault (BinTree Cell) :=
  (readTree (walkFuel scm) scm.root scm).map Prod.fst

/-- Every step of a run meets the condition. -/
def Admits (condition : Scm → Edit → Prop) : Scm → List Edit → Prop
  | _, [] => True
  | scm, e :: es => condition scm e ∧ ∀ r scm', edit e scm = .ok (r, scm') → Admits condition scm' es

/-- The allocations of the run succeed, inside the file. -/
def Granted (scm : Scm) : Edit → Prop
  | .insert x => ∀ t, scm.tree = .ok t → (∀ c ∈ t.inorder, c.key ≠ x.bytes) →
      Grants scm x.bytes fun _ => False
  | .remove _ => True

section
variable {α β : Type} {e : Except Fault α} {P : α → Prop} [DecidablePred P]

instance : Decidable (∀ a, e = .ok a → P a) :=
  match e with
  | .error _ => isTrue nofun
  | .ok a => decidable_of_iff (P a) ⟨fun h _ same => Except.ok.inj same ▸ h, fun h => h a rfl⟩

instance : Decidable (∃ a, e = .ok a ∧ P a) :=
  match e with
  | .error _ => isFalse nofun
  | .ok a => decidable_of_iff (P a)
      ⟨fun h => ⟨a, rfl, h⟩, fun ⟨_, same, h⟩ => Except.ok.inj same ▸ h⟩

instance decidableExistsSome {o : Option α} : Decidable (∃ a, o = some a ∧ P a) :=
  match o with
  | none => isFalse nofun
  | some a => decidable_of_iff (P a)
      ⟨fun h => ⟨a, rfl, h⟩, fun ⟨_, same, h⟩ => Option.some.inj same ▸ h⟩

instance {e : Except Fault (β × α)} : Decidable (∀ b a, e = .ok (b, a) → P a) :=
  match e with
  | .error _ => isTrue nofun
  | .ok (b, a) => decidable_of_iff (P a)
      ⟨fun h _ _ same => (Prod.mk.inj (Except.ok.inj same)).2 ▸ h, fun h => h b a rfl⟩

instance [DecidableEq β] {e : Except Fault (β × α)} {b : β} :
    Decidable (∀ a, e = .ok (b, a) → P a) :=
  match e with
  | .error _ => isTrue nofun
  | .ok (c, a) => decidable_of_iff (c = b → P a)
      ⟨fun h _ same => (Prod.mk.inj (Except.ok.inj same)).2 ▸ h (Prod.mk.inj (Except.ok.inj same)).1,
        fun h same => h a (same ▸ rfl)⟩

end

instance (scm : Scm) (x : Bytes) (held : Nat → Prop) [DecidablePred held] :
    Decidable (Grants scm x held) := inferInstanceAs (Decidable (∃ _, _ ∧ _))

instance (scm : Scm) : DecidablePred (Granted scm)
  | .insert _ => inferInstanceAs (Decidable (∀ _, _ = _ → _))
  | .remove _ => inferInstanceAs (Decidable True)

def decideAdmits (condition : Scm → Edit → Prop) [∀ scm, DecidablePred (condition scm)] :
    ∀ edits scm, Decidable (Admits condition scm edits)
  | [], _ => isTrue trivial
  | e :: es, scm =>
    have := decideAdmits condition es
    inferInstanceAs (Decidable (_ ∧ ∀ r scm', edit e scm = .ok (r, scm') → Admits condition scm' es))

instance {condition : Scm → Edit → Prop} [∀ scm, DecidablePred (condition scm)] {scm : Scm}
    {edits : List Edit} : Decidable (Admits condition scm edits) := decideAdmits condition edits scm

/-- The blocks of a tree and the state block. -/
def HeldBy (t : BinTree Cell) (p : Nat) : Prop :=
  p = stateAt ∨ ∃ c ∈ t.inorder, p = c.ptr ∨ p = c.item

structure Store (scm : Scm) (blocks : List Block) (t : BinTree Cell) : Prop where
  rooted : Rooted (HeldBy t) scm blocks t
  root : scm.root = root t
  state_live : stateAt ∈ allocated blocks
  nodes_live : ∀ c ∈ t.inorder, c.ptr ∈ allocated blocks

section
variable {scm scm' : Scm} {blocks blocks' : List Block} {held : Nat → Prop} {t l r : BinTree Cell}
  {c new : Cell} {p : Nat} {x : Bytes}

theorem traverse_ok (fuel : Nat) (heap : Heap scm t) (owns : Owns blocks t.inorder)
    (rep : scm.Rep blocks) (enough : t.height < fuel) :
    traverse fuel (root t) scm = .ok (contents t.inorder, scm) := by
  induction t generalizing fuel with
  | leaf =>
    obtain ⟨fuel, rfl⟩ := Nat.exists_eq_succ_of_ne_zero (by omega : fuel ≠ 0)
    rfl
  | node c l r ihl ihr =>
    obtain ⟨fuel, rfl⟩ := Nat.exists_eq_succ_of_ne_zero (by omega : fuel ≠ 0)
    simp only [height] at enough
    have parted := owns.parted_node
    obtain ⟨fields, _, hl, hr⟩ := heap
    have left : (scm.node c.ptr).left = root l := fields.near
    have right : (scm.node c.ptr).right = root r := fields.far
    rw [root, traverse, if_neg (parted.node.nonzero rep), run_bind (getNode_ok parted.node rep),
      left, right, fields.item, run_bind (ihl fuel hl parted.near (by omega)),
      run_bind (getString_ok fields.text parted.string rep),
      run_bind (ihr fuel hr parted.far (by omega)), run_pure, fields.count]
    simp only [inorder, contents_append, contents_cons]

theorem readTree_ok (fuel : Nat) (heap : Heap scm t) (owns : Owns blocks t.inorder)
    (rep : scm.Rep blocks) (enough : t.height < fuel) :
    readTree fuel (root t) scm = .ok (t, scm) := by
  induction t generalizing fuel with
  | leaf =>
    obtain ⟨fuel, rfl⟩ := Nat.exists_eq_succ_of_ne_zero (by omega : fuel ≠ 0)
    rfl
  | node c l r ihl ihr =>
    obtain ⟨fuel, rfl⟩ := Nat.exists_eq_succ_of_ne_zero (by omega : fuel ≠ 0)
    simp only [height] at enough
    have parted := owns.parted_node
    obtain ⟨fields, _, hl, hr⟩ := heap
    have left : (scm.node c.ptr).left = root l := fields.near
    have right : (scm.node c.ptr).right = root r := fields.far
    rw [root, readTree, if_neg (parted.node.nonzero rep), run_bind (getNode_ok parted.node rep),
      left, right, fields.item, run_bind (getString_ok fields.text parted.string rep),
      run_bind (ihl fuel hl parted.near (by omega)), run_bind (ihr fuel hr parted.far (by omega)),
      run_pure, fields.count]

/-- The count found on the side of the item is that of the whole tree. -/
theorem finds_side {side : Side} {n : Nat} (split : Increasing (join side c l r).inorder)
    (away : strcmp x c.key = order side)
    (found : (∃ d ∈ l.inorder, d.key = x ∧ n = d.count) ∨ (∀ d ∈ l.inorder, d.key ≠ x) ∧ n = 0) :
    (∃ d ∈ (join side c l r).inorder, d.key = x ∧ n = d.count) ∨
      (∀ d ∈ (join side c l r).inorder, d.key ≠ x) ∧ n = 0 := by
  rcases found with ⟨d, mem, same⟩ | ⟨absent, zero⟩
  · exact Or.inl ⟨d, mem_inorder_join.mpr (Or.inr (Or.inl mem)), same⟩
  · refine Or.inr ⟨fun d mem key => ?_, zero⟩
    obtain ⟨e, mem', key'⟩ := (mem_side split away).2.mp ⟨d, mem, key⟩
    exact absent e mem' key'

/-- The lookup finds the count of the item. -/
theorem search_ok (fuel : Nat) (heap : Heap scm t) (owns : Owns blocks t.inorder)
    (rep : scm.Rep blocks) (increasing : Increasing t.inorder) (enough : t.height < fuel) :
    ∃ n, search x fuel (root t) scm = .ok (n, scm) ∧
      ((∃ c ∈ t.inorder, c.key = x ∧ n = c.count) ∨ (∀ c ∈ t.inorder, c.key ≠ x) ∧ n = 0) := by
  induction t generalizing fuel with
  | leaf =>
    obtain ⟨fuel, rfl⟩ := Nat.exists_eq_succ_of_ne_zero (by omega : fuel ≠ 0)
    exact ⟨0, rfl, Or.inr ⟨by simp, rfl⟩⟩
  | node c l r ihl ihr =>
    obtain ⟨fuel, rfl⟩ := Nat.exists_eq_succ_of_ne_zero (by omega : fuel ≠ 0)
    simp only [height] at enough
    have parted := owns.parted_node
    obtain ⟨fields, _, hl, hr⟩ := heap
    have left : (scm.node c.ptr).left = root l := fields.near
    have right : (scm.node c.ptr).right = root r := fields.far
    rw [root, search, if_neg (parted.node.nonzero rep), run_bind (getNode_ok parted.node rep),
      left, right, fields.item, run_bind (getString_ok fields.text parted.string rep)]
    rcases strcmp_cases x c.key with same | ⟨side, away⟩
    · rw [same]
      exact ⟨c.count, by rw [← fields.count]; rfl,
        Or.inl ⟨c, by simp, (strcmp_eq_eq.mp same).symm, rfl⟩⟩
    · rw [away]
      cases side with
      | left =>
        have split : Increasing (join .left c l r).inorder := increasing
        obtain ⟨n, ok, found⟩ := ihl fuel hl parted.near (mem_side split away).1 (by omega)
        exact ⟨n, ok, finds_side split away found⟩
      | right =>
        have split : Increasing (join .right c r l).inorder := increasing
        obtain ⟨n, ok, found⟩ := ihr fuel hr parted.far (mem_side split away).1 (by omega)
        exact ⟨n, ok, finds_side split away found⟩

/-- There are fewer nodes than bytes. -/
theorem Rooted.length_lt (h : Rooted held scm blocks t) : t.inorder.length < walkFuel scm := by
  have sub : ptrs t.inorder ⊆ blocks.map Block.ptr := by
    intro p mem
    obtain ⟨c, inside, rfl⟩ := mem_ptrs.mp mem
    obtain ⟨b, there, ptr, _⟩ := h.owns.nodes c inside
    exact List.mem_map.mpr ⟨b, there, ptr⟩
  have count := (h.owns.distinct.subperm sub).length_le
  have size := h.rep.chain.length_le
  have within := h.rep.within
  simp only [ptrs, List.length_map, walkFuel] at count ⊢
  omega

theorem Rooted.height_lt (h : Rooted held scm blocks t) : t.height < walkFuel scm :=
  Nat.lt_of_le_of_lt (height_le_length t) h.length_lt

/-- Balance keeps the depths inside an `int`. -/
theorem Rooted.height_small (h : Rooted held scm blocks t) : t.height + 3 < 2 ^ 31 := by
  have mapped := scm.mapped
  have length := h.length_lt
  simp only [walkFuel, virtAddr] at mapped length
  have square : (t.inorder.length + 1) ^ 2 ≤ (2 ^ 64) ^ 2 :=
    Nat.pow_le_pow_left (by omega) 2
  have bound : 2 ^ t.height ≤ 2 ^ 128 := by
    calc 2 ^ t.height ≤ (t.inorder.length + 1) ^ 2 := h.balanced.two_pow_height_le
      _ ≤ (2 ^ 64) ^ 2 := square
      _ = 2 ^ 128 := by norm_num
  have := (Nat.pow_le_pow_iff_right (by decide : 1 < 2)).mp bound
  omega

theorem Store.tree_ok (h : Store scm blocks t) : scm.tree = .ok t := by
  have read := readTree_ok _ h.rooted.heap h.rooted.owns h.rooted.rep h.rooted.height_lt
  simp only [Scm.tree, h.root, read]
  rfl

theorem Store.traverse_ok (h : Store scm blocks t) : avlTraverse scm = .ok (contents t.inorder) := by
  have read := Persistent.traverse_ok _ h.rooted.heap h.rooted.owns h.rooted.rep h.rooted.height_lt
  simp only [avlTraverse, h.root, read]
  rfl

theorem Rooted.exists_ok (h : Rooted held scm blocks t) (at_root : scm.root = Persistent.root t)
    (x : Bytes) : ∃ n, avlExists scm x = .ok n ∧
      ((∃ c ∈ t.inorder, c.key = x ∧ n = c.count) ∨ (∀ c ∈ t.inorder, c.key ≠ x) ∧ n = 0) := by
  obtain ⟨n, ok, found⟩ := search_ok _ h.heap h.owns h.rep h.increasing h.height_lt
  refine ⟨n, ?_, found⟩
  simp only [avlExists, at_root, ok]
  rfl

theorem increasing_iff (cells : List Cell) : Increasing cells ↔
    (contents cells).Pairwise fun i j => strcmp i.1 j.1 = .lt := by
  simp only [Increasing, contents, List.pairwise_map]

theorem Lost.pairwise {items items' : List (Bytes × Nat)} (h : Lost x items items')
    (order : items.Pairwise fun i j => strcmp i.1 j.1 = .lt) :
    items'.Pairwise fun i j => strcmp i.1 j.1 = .lt := by
  rcases h with ⟨_, rfl⟩ | ⟨before, n, after, rfl, rfl⟩
  · exact order
  · obtain ⟨first, second, across⟩ := List.pairwise_append.mp order
    obtain ⟨greater, rest⟩ := List.pairwise_cons.mp second
    have less : ∀ i ∈ before, strcmp i.1 x = .lt := fun i mem => across i mem (x, n) (by simp)
    have past : ∀ i ∈ before, ∀ j ∈ after, strcmp i.1 j.1 = .lt := fun i mem j mem' =>
      across i mem j (by simp [mem'])
    split_ifs
    · simp only [List.append_assoc, List.singleton_append]
      refine List.pairwise_append.mpr ⟨first, List.pairwise_cons.mpr ⟨greater, rest⟩, ?_⟩
      intro i mem j mem'
      rcases List.mem_cons.mp mem' with rfl | mem'
      · exact less i mem
      · exact past i mem j mem'
    · simpa using List.pairwise_append.mpr ⟨first, rest, past⟩

theorem Inserted.increasing {cells cells' : List Cell} (h : Inserted x new cells cells')
    (key : (∀ c ∈ cells, c.key ≠ x) → new.key = x) (order : Increasing cells) :
    Increasing cells' := by
  have h' := h.cases
  rcases h with ⟨before, c, after, rfl, _, rfl⟩ | ⟨before, after, rfl, rfl, less, greater⟩
  · simpa only [increasing_append, increasing_cons, List.forall_mem_cons, Cell.counted_key]
      using order
  · have key : new.key = x := by
      refine key fun c mem same => ?_
      subst same
      rcases List.mem_append.mp mem with mem | mem
      · exact strcmp_irrefl _ (less c mem)
      · exact strcmp_irrefl _ (greater c mem)
    obtain ⟨first, second, across⟩ := increasing_append.mp order
    refine increasing_append.mpr ⟨first, increasing_cons.mpr ⟨?_, second⟩, ?_⟩
    · rw [key]
      exact greater
    · intro c mem d mem'
      rcases List.mem_cons.mp mem' with rfl | mem'
      · rw [key]
        exact less c mem
      · exact across c mem d mem'

theorem root_insertTree_ne (held : ∀ c ∈ (insertTree x new t).inorder, c.ptr ≠ 0) :
    root (insertTree x new t) ≠ 0 := by
  have ne : (insertTree x new t).inorder ≠ [] := by
    cases t with
    | leaf => simp [insertTree]
    | node c l r =>
      simp only [insertTree]
      split <;> simp
  cases split : insertTree x new t with
  | leaf => simp [split] at ne
  | node c l r =>
    rw [split] at held
    exact held c (by simp)

/-- What an update makes of a tree is rooted in its own blocks. -/
theorem Rooted.updated (h : Rooted (HeldBy t) scm blocks t)
    (done : Updated x (HeldBy t) scm blocks t.inorder (insertTree x new t) new scm' blocks') :
    Rooted (HeldBy (insertTree x new t)) scm' blocks' (insertTree x new t) := by
  have made : (∀ c ∈ t.inorder, c.key ≠ x) → Made x (HeldBy t) new blocks blocks' :=
    fun absent => (done.absent absent).1
  have ins : Inserted x new t.inorder (insertTree x new t).inorder :=
    insertTree_inserted h.increasing
  have off : ∀ c ∈ (insertTree x new t).inorder, c.ptr ≠ stateAt ∧ c.item ≠ stateAt := by
    intro c mem
    rcases ins.cases with less | ⟨absent, before, after, split, split'⟩
    · obtain ⟨d, there, same⟩ := mem_ptrs.mp (less.nodes c mem)
      obtain ⟨e, there', item, _⟩ := less.strings c mem
      exact ⟨same ▸ (h.off_state d there).1, item ▸ (h.off_state e there').2⟩
    · rw [split', List.mem_append, List.mem_cons] at mem
      rcases mem with mem | rfl | mem
      · exact h.off_state c (by simp [split, mem])
      · have fresh := (made absent).fresh
        exact ⟨fun same => fresh.1 (Or.inl same), fun same => fresh.2 (Or.inl same)⟩
      · exact h.off_state c (by simp [split, mem])
  exact ⟨done.rep, done.mono _ _ h.base, done.heap, h.owns.inserted done.mono ins h.all_held made,
    (insertTree_grows _ _ h.balanced).balanced,
    ins.increasing (fun absent => (made absent).key) h.increasing,
    fun c mem => ⟨Or.inr ⟨c, mem, Or.inl rfl⟩, Or.inr ⟨c, mem, Or.inr rfl⟩⟩, off, Or.inl rfl⟩

/-- So is what a removal leaves, where no item has come to stand in two nodes. -/
theorem Rooted.removed (h : Rooted (HeldBy t) scm blocks t) (done : Removed x scm blocks t scm')
    (single : ¬ Doubles x t) :
    Rooted (HeldBy (removeTree x t)) scm' (releaseAll (freed x t) blocks) (removeTree x t) := by
  have less := removeTree_shrinks x t
  have mono : ∀ p n, Placed blocks p n → Placed (releaseAll (freed x t) blocks) p n :=
    fun p n => placed_releaseAll.mpr
  have increasing : Increasing (removeTree x t).inorder := by
    rw [increasing_iff]
    exact (removeTree_lost h.increasing single).pairwise ((increasing_iff _).mp h.increasing)
  have off : ∀ c ∈ (removeTree x t).inorder, c.ptr ≠ stateAt ∧ c.item ≠ stateAt := by
    intro c mem
    obtain ⟨d, there, same⟩ := mem_ptrs.mp (less.nodes c mem)
    obtain ⟨e, there', item, _⟩ := less.strings c mem
    exact ⟨same ▸ (h.off_state d there).1, item ▸ (h.off_state e there').2⟩
  exact ⟨done.rep, mono _ _ h.base, done.heap, (h.owns.mono mono).shrinks less,
    (removeTree_balanced x h.balanced).1, increasing,
    fun c mem => ⟨Or.inr ⟨c, mem, Or.inl rfl⟩, Or.inr ⟨c, mem, Or.inr rfl⟩⟩, off, Or.inl rfl⟩

/-- `avl->state->root = root` -/
theorem Rooted.setRoot (h : Rooted (HeldBy t) scm blocks t) :
    ∃ scm', setRoot (Persistent.root t) scm = .ok ((), scm') ∧ Rooted (HeldBy t) scm' blocks t ∧
      scm'.items = scm.items ∧ scm'.unique = scm.unique ∧ scm'.root = Persistent.root t := by
  obtain ⟨scm', ok, rep, same, items, unique, root⟩ :=
    setRoot_spec h.base h.rep (root_lt h.owns h.rep)
  exact ⟨scm', ok, ⟨rep, h.base, same.heap h.owns h.off_state h.heap, h.owns, h.balanced,
    h.increasing, h.all_held, h.off_state, h.state_held⟩, items, unique, root⟩

/-- An insertion leads from a store to a store. -/
theorem Store.insert (h : Store scm blocks t) (x : Item)
    (grants : (∀ c ∈ t.inorder, c.key ≠ x.bytes) → Grants scm x.bytes (HeldBy t)) :
    ∃ new scm' blocks', avlInsert x.bytes scm = .ok (0, scm') ∧
      Store scm' blocks' (insertTree x.bytes new t) ∧
      ((∃ c ∈ t.inorder, c.key = x.bytes) → blocks' = blocks ∧
        scm'.items = (scm.items + 1) % 2 ^ 64 ∧ scm'.unique = scm.unique) ∧
      ((∀ c ∈ t.inorder, c.key ≠ x.bytes) → Made x.bytes (HeldBy t) new blocks blocks' ∧
        scm'.items = (scm.items + 1) % 2 ^ 64 ∧ scm'.unique = (scm.unique + 1) % 2 ^ 64) := by
  have rooted := h.rooted
  obtain ⟨new, scm₁, blocks₁, ok₁, done⟩ := update_spec _ rooted rooted.height_lt
    rooted.height_small x.ends grants
  have made : (∀ c ∈ t.inorder, c.key ≠ x.bytes) → Made x.bytes (HeldBy t) new blocks blocks₁ :=
    fun absent => (done.absent absent).1
  have ins : Inserted x.bytes new t.inorder (insertTree x.bytes new t).inorder :=
    insertTree_inserted rooted.increasing
  have rooted₁ := rooted.updated done
  obtain ⟨scm₂, ok₂, rooted₂, items, unique, root₂⟩ := rooted₁.setRoot
  -- each node is one of the old ones or new
  have old_node : ∀ c ∈ (insertTree x.bytes new t).inorder, c.ptr ∈ ptrs t.inorder ∨
      (∀ d ∈ t.inorder, d.key ≠ x.bytes) ∧ c = new := by
    intro c mem
    rcases ins.cases with less | ⟨absent, before, after, split, split'⟩
    · exact Or.inl (less.nodes c mem)
    · rw [split', List.mem_append, List.mem_cons] at mem
      rw [mem_ptrs, split]
      rcases mem with mem | rfl | mem
      · exact Or.inl ⟨c, by simp [mem], rfl⟩
      · exact Or.inr ⟨split ▸ absent, rfl⟩
      · exact Or.inl ⟨c, by simp [mem], rfl⟩
  have nonzero : Persistent.root (insertTree x.bytes new t) ≠ 0 :=
    root_insertTree_ne fun c mem => (rooted₁.owns.nodes c mem).nonzero done.rep
  have live : ∀ q, q ∈ allocated blocks → q ∈ allocated blocks₁ := by
    intro q mem
    by_cases present : ∃ c ∈ t.inorder, c.key = x.bytes
    · rw [(done.present present).1]
      exact mem
    · exact ((made fun c there key => present ⟨c, there, key⟩).live q).mpr (Or.inr (Or.inr mem))
  refine ⟨new, scm₂, blocks₁, ?_, ⟨rooted₂, root₂, live _ h.state_live, ?_⟩, ?_, ?_⟩
  · simp only [avlInsert, h.root, ok₁, if_neg nonzero, ok₂]
    rfl
  · intro c mem
    rcases old_node c mem with old | ⟨absent, rfl⟩
    · obtain ⟨d, there, same⟩ := mem_ptrs.mp old
      exact live _ (same ▸ h.nodes_live d there)
    · exact ((made absent).live c.ptr).mpr (Or.inr (Or.inl rfl))
  · intro present
    obtain ⟨same, state⟩ := done.present present
    simp only [Scm.state, State.mk.injEq] at state
    exact ⟨same, items.trans state.1, unique.trans state.2.1⟩
  · intro absent
    obtain ⟨made, state⟩ := done.absent absent
    simp only [Scm.state, State.mk.injEq] at state
    exact ⟨made, items.trans state.1, unique.trans state.2.1⟩

/-- So does a removal that does not leave an item in two nodes. -/
theorem Store.remove (h : Store scm blocks t) (single : ¬ Doubles x t) :
    ∃ scm', avlRemove x scm = .ok (0, scm') ∧
      Store scm' (releaseAll (freed x t) blocks) (removeTree x t) ∧
      ((∃ c ∈ t.inorder, c.key = x) → scm'.items = decr scm.items % 2 ^ 64 ∧
        scm'.unique = if freed x t = [] then scm.unique else decr scm.unique % 2 ^ 64) ∧
      ((∀ c ∈ t.inorder, c.key ≠ x) → scm'.items = scm.items ∧ scm'.unique = scm.unique) := by
  have rooted := h.rooted
  obtain ⟨scm₁, ok₁, done⟩ := remove_spec _ rooted rooted.height_lt rooted.height_small
  have frees := freed_frees x t
  obtain ⟨scm₂, ok₂, rooted₂, items, unique, root₂⟩ := (rooted.removed done single).setRoot
  refine ⟨scm₂, ?_, ⟨rooted₂, root₂, ?_, ?_⟩, ?_, ?_⟩
  · simp only [avlRemove, h.root, ok₁, bind, Except.bind, ok₂]
    rfl
  · refine mem_allocated_releaseAll.mpr ⟨h.state_live, fun inside => ?_⟩
    rcases frees with none_ | ⟨d, there, p, there', eq, _⟩
    · simp [none_] at inside
    · rw [eq, List.mem_cons, List.mem_singleton] at inside
      rcases inside with same | same
      · exact (rooted.off_state d there).2 same.symm
      · exact rooted.state_off (same ▸ there')
  · intro c mem
    have node := (removeTree_shrinks x t).nodes c mem
    obtain ⟨d, there, same⟩ := mem_ptrs.mp node
    refine mem_allocated_releaseAll.mpr ⟨same ▸ h.nodes_live d there, fun inside => ?_⟩
    rcases frees with none_ | ⟨e, there', p, _, eq, gone⟩
    · simp [none_] at inside
    · rw [eq, List.mem_cons, List.mem_singleton] at inside
      rcases inside with twice | twice
      · exact rooted.owns.apart e there' d there (twice.symm.trans same.symm)
      · exact gone rooted.owns.distinct (twice ▸ mem_ptrs.mpr ⟨c, mem, rfl⟩)
  · intro present
    have state := done.present present
    simp only [Scm.state, State.mk.injEq] at state
    exact ⟨items.trans state.1, unique.trans state.2.1⟩
  · intro absent
    have state := done.absent absent
    simp only [Scm.state, State.mk.injEq] at state
    exact ⟨items.trans state.1, unique.trans state.2.1⟩

/-- `avl_open` of a region without utilized bytes that has room for the state block. -/
theorem avlOpen_store (file : Mem) (capacity : Nat) (mapped : virtAddr + capacity < 2 ^ 64)
    (truncate : Bool) (empty : (scmOpen file capacity mapped truncate).utilized = 0)
    (room : 8 + headerLen + stateLen ≤ capacity) :
    ∃ scm blocks, avlOpen file capacity mapped truncate = .ok (some scm) ∧
      Store scm blocks .leaf ∧ scm.items = 0 ∧ scm.unique = 0 ∧
      ∀ p, p ∈ allocated blocks ↔ p = stateAt := by
  set scm := scmOpen file capacity mapped truncate with scm_def
  have chain : Chain scm.mem scm.addr [] (scm.addr + scm.utilized) := by
    rw [empty]
    rfl
  obtain ⟨b, scm₁, hdr, size, live, ok, rep₁, _, _⟩ :=
    scmMalloc_extend chain (by rw [empty]; exact room : 8 + scm.utilized + headerLen + stateLen ≤ _)
  have ptr : b.ptr = stateAt := by
    rw [Block.ptr, hdr, empty]
    rfl
  rw [ptr] at ok
  have base : Placed ([] ++ [b]) stateAt stateLen := ⟨b, by simp, ptr, Nat.le_of_eq size.symm⟩
  have zeros : 0 + (List.replicate stateLen (0 : UInt8)).length ≤ stateLen := by simp
  obtain ⟨rep₂, _⟩ := base.write rep₁ zeros
  have word : ∀ i, i + 8 ≤ stateLen →
      (scm₁.mem.write (stateAt + 0) (List.replicate stateLen 0)).load 8 (stateAt + i) = 0 := by
    intro i le
    refine Mem.load_zeros fun y ge lt => ?_
    obtain ⟨j, rfl⟩ := Nat.exists_eq_add_of_le (by omega : stateAt ≤ y)
    exact Mem.write_inside scm₁.mem (List.getElem?_replicate_of_lt (by omega))
  refine ⟨_, _, ?_, ⟨⟨rep₂, base, trivial, ⟨by simp, by simp, by simp [ptrs], by simp⟩, trivial,
    .nil, by simp, by simp, Or.inl rfl⟩, word 16 (by decide), ?_, by simp⟩, word 0 (by decide),
    word 8 (by decide), fun p => ?_⟩
  · have first : stateAt = scmMbase scm₁ := rfl
    simp only [avlOpen, ← scm_def, empty, ne_eq, not_true_eq_false, if_false, ok, if_pos first]
    rfl
  · exact mem_allocated.mpr ⟨b, by simp, live, ptr⟩
  · rw [mem_allocated]
    constructor
    · rintro ⟨c, mem, -, rfl⟩
      rw [List.mem_singleton.mp mem, ptr]
    · rintro rfl
      exact ⟨b, List.mem_singleton.mpr rfl, live, ptr⟩

end

end OsProjects.Persistent
