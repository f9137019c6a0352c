import OsProjects.Persistent.WordRotate

/-!
# Insertion in the region

`update` on the pointers of a tree is `insertTree` on the tree. A missing item takes two
allocations, for its node and its string; what matters of them is that they give blocks
apart from everything that is held.
-/
namespace OsProjects.Persistent
open OsProjects.Library BinTree

/-- `struct state` -/
structure State where
  items : Nat
  unique : Nat
  root : Nat
  deriving DecidableEq, Repr

def Scm.state (scm : Scm) : State := ⟨scm.items, scm.unique, scm.root⟩

/-- The pointer to the first block of a region. -/
def stateAt : Nat := virtAddr + 8 + headerLen

/-- The two allocations of an insertion give blocks that are not held. -/
def Grants (scm : Scm) (x : Bytes) (held : Nat → Prop) : Prop :=
  ∃ p, scm.grant nodeLen = some p ∧ ¬ held p ∧
    ∀ scm', scmMalloc scm nodeLen = .ok (some p, scm') →
      ∃ q, scm'.grant (x.length + 1) = some q ∧ ¬ held q

/-- A new node with a string of its own. -/
structure Made (x : Bytes) (held : Nat → Prop) (new : Cell) (blocks blocks' : List Block) :
    Prop where
  key : new.key = x
  count : new.count = 1
  node : Placed blocks' new.ptr nodeLen
  string : Placed blocks' new.item (x.length + 1)
  fresh : ¬ held new.ptr ∧ ¬ held new.item
  apart : new.item ≠ new.ptr
  live : ∀ q, q ∈ allocated blocks' ↔ q = new.item ∨ q = new.ptr ∨ q ∈ allocated blocks

section
variable {scm scm' : Scm} {blocks blocks' : List Block} {K held : Nat → Prop} {c new : Cell}
  {side : Side} {l r t t' : BinTree Cell} {cells cells' : List Cell} {p n : Nat} {x : Bytes}

theorem Grants.imp {held' : Nat → Prop} (h : Grants scm x held) (le : ∀ p, held' p → held p) :
    Grants scm x held' := by
  obtain ⟨p, grant, free, rest⟩ := h
  refine ⟨p, grant, fun inside => free (le p inside), fun scm' ok => ?_⟩
  obtain ⟨q, grant', free'⟩ := rest scm' ok
  exact ⟨q, grant', fun inside => free' (le q inside)⟩

/-- A block that is given away is not allocated. -/
theorem Grants.fresh (rep : scm.Rep blocks) (h : Grants scm x held) :
    Grants scm x fun p => held p ∨ p ∈ allocated blocks := by
  obtain ⟨p, grant, free, rest⟩ := h
  obtain ⟨scm₁, blocks₁, ok, alloc⟩ := scmMalloc_grant rep (by decide) grant
  refine ⟨p, grant, not_or.mpr ⟨free, alloc.fresh⟩, fun scm' ok' => ?_⟩
  obtain ⟨q, grant', free'⟩ := rest scm' ok'
  obtain rfl : scm₁ = scm' := by
    have same := Except.ok.inj (ok.symm.trans ok')
    exact (Prod.mk.inj same).2
  obtain ⟨_, _, _, alloc'⟩ := scmMalloc_grant alloc.rep (Nat.succ_pos _) grant'
  refine ⟨q, grant', not_or.mpr ⟨free', fun inside => ?_⟩⟩
  exact alloc'.fresh ((alloc.live q).mpr (Or.inr inside))

theorem Same.state (h : Same blocks K scm scm') (kept : K stateAt)
    (placed : Placed blocks stateAt stateLen) : scm'.state = scm.state := by
  have bytes := h.2 stateAt stateLen kept placed
  simp only [stateLen] at bytes
  have load : ∀ i, i + 8 ≤ 24 → scm'.mem.load 8 (stateAt + i) = scm.mem.load 8 (stateAt + i) := by
    intro i le
    exact Mem.load_congr fun y ge lt => bytes y (by omega) (by omega)
  have items : scm'.items = scm.items := load 0 (by omega)
  have unique : scm'.unique = scm.unique := load 8 (by omega)
  have root : scm'.root = scm.root := load 16 (by omega)
  simp only [Scm.state, items, unique, root]

/-- A write of a word of the state block. -/
theorem pokeState_spec (placed : Placed blocks stateAt stateLen) (rep : scm.Rep blocks) (v : Nat)
    {i : Nat} (fits : i + 8 ≤ stateLen) :
    ∃ scm', poke stateAt i (leBytes 8 v) scm = .ok ((), scm') ∧ scm'.Rep blocks ∧
      Same blocks (· ≠ stateAt) scm scm' ∧ scm'.mem.load 8 (stateAt + i) = v % 2 ^ 64 ∧
      ∀ j, j + 8 ≤ i ∨ i + 8 ≤ j →
        scm'.mem.load 8 (stateAt + j) = scm.mem.load 8 (stateAt + j) := by
  have length : i + (leBytes 8 v).length ≤ stateLen := by rwa [length_leBytes]
  obtain ⟨rep', same⟩ := placed.write rep length
  refine ⟨_, poke_ok placed rep (by decide) i _, rep', same, Mem.load_store_self _ 8 _ v, ?_⟩
  intro j apart
  exact Mem.load_store_of_apart scm.mem (by omega)

theorem setItems_spec (placed : Placed blocks stateAt stateLen) (rep : scm.Rep blocks)
    (f : Nat → Nat) : ∃ scm', setItems f scm = .ok ((), scm') ∧ scm'.Rep blocks ∧
      Same blocks (· ≠ stateAt) scm scm' ∧
      scm'.state = { scm.state with items := f scm.state.items % 2 ^ 64 } := by
  obtain ⟨scm', ok, rep', same, value, other⟩ :=
    pokeState_spec placed rep (f scm.items) (by decide : 0 + 8 ≤ stateLen)
  refine ⟨scm', ok, rep', same, ?_⟩
  have items : scm'.items = f scm.items % 2 ^ 64 := value
  have unique : scm'.unique = scm.unique := other 8 (by omega)
  have root : scm'.root = scm.root := other 16 (by omega)
  simp only [Scm.state, items, unique, root]

theorem setUnique_spec (placed : Placed blocks stateAt stateLen) (rep : scm.Rep blocks)
    (f : Nat → Nat) : ∃ scm', setUnique f scm = .ok ((), scm') ∧ scm'.Rep blocks ∧
      Same blocks (· ≠ stateAt) scm scm' ∧
      scm'.state = { scm.state with unique := f scm.state.unique % 2 ^ 64 } := by
  obtain ⟨scm', ok, rep', same, value, other⟩ :=
    pokeState_spec placed rep (f scm.unique) (by decide : 8 + 8 ≤ stateLen)
  refine ⟨scm', ok, rep', same, ?_⟩
  have items : scm'.items = scm.items := other 0 (by omega)
  have unique : scm'.unique = f scm.unique % 2 ^ 64 := value
  have root : scm'.root = scm.root := other 16 (by omega)
  simp only [Scm.state, items, unique, root]

theorem setRoot_spec (placed : Placed blocks stateAt stateLen) (rep : scm.Rep blocks)
    (small : p < 2 ^ 64) : ∃ scm', setRoot p scm = .ok ((), scm') ∧ scm'.Rep blocks ∧
      Same blocks (· ≠ stateAt) scm scm' ∧ scm'.items = scm.items ∧ scm'.unique = scm.unique ∧
      scm'.root = p := by
  obtain ⟨scm', ok, rep', same, value, other⟩ :=
    pokeState_spec placed rep p (by decide : 16 + 8 ≤ stateLen)
  exact ⟨scm', ok, rep', same, other 0 (by omega), other 8 (by omega),
    value.trans (Nat.mod_eq_of_lt small)⟩

theorem grant_congr (rep : scm.Rep blocks) (rep' : scm'.Rep blocks)
    (capacity : scm'.capacity = scm.capacity) (utilized : scm'.utilized = scm.utilized) (n : Nat) :
    scm'.grant n = scm.grant n := by
  simp only [Scm.grant, capacity, utilized, rep.blocks_eq, rep'.blocks_eq]
  rfl

/-- A node with all its bytes zero. -/
theorem node_zero (zero : ∀ y, p ≤ y → y < p + nodeLen → scm.mem y = 0) :
    scm.node p = ⟨0, 0, 0, 0, 0⟩ := by
  simp only [nodeLen] at zero
  have load : ∀ w i, i + w ≤ 40 → scm.mem.load w (p + i) = 0 := by
    intro w i le
    exact Mem.load_zeros fun y ge lt => zero y (by omega) (by omega)
  simp only [Scm.node]
  rw [load 8 8 (by omega), load 8 16 (by omega), load 8 24 (by omega), load 8 32 (by omega),
    show scm.mem.load 4 p = 0 from load 4 0 (by omega)]
  rfl

/-- What an update of the tree `t` to `t'` does to the region. -/
structure Updated (x : Bytes) (held : Nat → Prop) (scm : Scm) (blocks : List Block)
    (cells : List Cell) (t' : BinTree Cell) (new : Cell) (scm' : Scm) (blocks' : List Block) :
    Prop where
  rep : scm'.Rep blocks'
  mono : ∀ p n, Placed blocks p n → Placed blocks' p n
  heap : Heap scm' t'
  same : Same blocks (fun p => held p ∧ p ∉ ptrs cells ∧ p ≠ stateAt) scm scm'
  present : (∃ c ∈ cells, c.key = x) → blocks' = blocks ∧
    scm'.state = { scm.state with items := (scm.state.items + 1) % 2 ^ 64 }
  absent : (∀ c ∈ cells, c.key ≠ x) → Made x held new blocks blocks' ∧
    scm'.state = { scm.state with
      items := (scm.state.items + 1) % 2 ^ 64
      unique := (scm.state.unique + 1) % 2 ^ 64 }

/-- A new block that has been written. -/
structure Gains (scm : Scm) (blocks : List Block) (p n : Nat) (scm' : Scm)
    (blocks' : List Block) : Prop where
  rep : scm'.Rep blocks'
  mono : ∀ q k, Placed blocks q k → Placed blocks' q k
  placed : Placed blocks' p n
  same : Same blocks (· ≠ p) scm scm'
  live : ∀ q, q ∈ allocated blocks' ↔ q = p ∨ q ∈ allocated blocks
  fresh : p ∉ allocated blocks

theorem Allocates.write (h : Allocates scm blocks p n scm' blocks') {bytes : Bytes}
    (fits : bytes.length ≤ n) :
    Gains scm blocks p n { scm' with mem := scm'.mem.write p bytes } blocks' := by
  have fits : 0 + bytes.length ≤ n := by omega
  obtain ⟨rep, same⟩ := h.placed.write h.rep fits
  exact ⟨rep, h.mono, h.placed, h.keeps.same.trans same h.mono, h.live, h.fresh⟩

theorem strdup_spec (rep : scm.Rep blocks) (grant : scm.grant (x.length + 1) = some p)
    (ends : 0 ∉ x) : ∃ scm' blocks', strdup x scm = .ok (some p, scm') ∧
      Gains scm blocks p (x.length + 1) scm' blocks' ∧ Text scm' p x := by
  obtain ⟨scm₁, blocks₁, ok, alloc⟩ := scmMalloc_grant rep (Nat.succ_pos _) grant
  have length : (x ++ [0]).length = x.length + 1 := by simp
  refine ⟨{ scm₁ with mem := scm₁.mem.write p (x ++ [0]) }, blocks₁, ?_,
    alloc.write (by omega), ?_, ends⟩
  · simp only [strdup, scmStrdup, ok]
  · have self := Mem.read_write_self scm₁.mem p (x ++ [0])
    rwa [length] at self

/-- `scm_malloc` of a node and `memset` -/
theorem mallocNode_spec (rep : scm.Rep blocks) (grant : scm.grant nodeLen = some p) :
    ∃ scm₁ scm' blocks', malloc nodeLen scm = .ok (some p, scm₁) ∧
      poke p 0 (List.replicate nodeLen 0) scm₁ = .ok ((), scm') ∧
      Gains scm blocks p nodeLen scm' blocks' ∧ scm'.node p = ⟨0, 0, 0, 0, 0⟩ ∧
      ∀ n, scm'.grant n = scm₁.grant n := by
  obtain ⟨scm₁, blocks₁, ok, alloc⟩ := scmMalloc_grant rep (by decide) grant
  have length : (List.replicate nodeLen (0 : UInt8)).length = nodeLen := List.length_replicate
  have gains := alloc.write (Nat.le_of_eq length)
  refine ⟨scm₁, _, blocks₁, ok, poke_ok alloc.placed alloc.rep (by decide) 0 _, gains, ?_, ?_⟩
  · apply node_zero
    intro y ge lt
    obtain ⟨i, rfl⟩ := Nat.exists_eq_add_of_le ge
    exact Mem.write_inside scm₁.mem (List.getElem?_replicate_of_lt (by omega))
  · exact grant_congr alloc.rep gains.rep rfl rfl

theorem newNode_spec (rep : scm.Rep blocks) (base : Placed blocks stateAt stateLen)
    (grants : Grants scm x held) (ends : 0 ∉ x) (held_state : held stateAt) :
    ∃ new scm' blocks', newNode x scm = .ok (new.ptr, scm') ∧
      Updated x held scm blocks [] (.node new .leaf .leaf) new scm' blocks' := by
  obtain ⟨p, grant, fresh, rest⟩ := grants
  obtain ⟨scm₁, scm₂, blocks₂, ok₁, ok₂, node, zero, same_grant⟩ := mallocNode_spec rep grant
  obtain ⟨q, grant', fresh'⟩ := rest scm₁ ok₁
  obtain ⟨scm₃, blocks₃, ok₃, string, text⟩ :=
    strdup_spec node.rep ((same_grant _).trans grant') ends
  have apart : q ≠ p := by
    rintro rfl
    exact string.fresh ((node.live q).mpr (Or.inl rfl))
  have placed := string.mono p nodeLen node.placed
  obtain ⟨scm₄, ok₄, rep₄, same₄, node₄⟩ := setItem_spec placed string.rep (string.placed.lt string.rep)
  obtain ⟨scm₅, ok₅, rep₅, same₅, node₅⟩ := setCount_spec placed rep₄ ((scm₄.node p).count + 1)
  have base₃ := string.mono _ _ (node.mono _ _ base)
  obtain ⟨scm₆, ok₆, rep₆, same₆, state₆⟩ := setItems_spec base₃ rep₅ (· + 1)
  obtain ⟨scm₇, ok₇, rep₇, same₇, state₇⟩ := setUnique_spec base₃ rep₆ (· + 1)
  have not_p : stateAt ≠ p := by
    rintro rfl
    exact fresh held_state
  have not_q : stateAt ≠ q := by
    rintro rfl
    exact fresh' held_state
  refine ⟨⟨p, 1, q, x⟩, scm₇, blocks₃, ?_, ?_⟩
  · simp only [newNode]
    rw [run_bind ok₁]
    simp only
    rw [run_bind ok₂, run_bind ok₃]
    simp only
    rw [run_bind ok₄, run_bind (getNode_ok placed rep₄), run_bind ok₅, run_bind ok₆, run_bind ok₇,
      run_pure]
  · refine ⟨rep₇, fun a n h => string.mono _ _ (node.mono _ _ h), ⟨?_, ?_, trivial, trivial⟩, ?_,
      by simp, fun _ => ⟨⟨rfl, rfl, placed, string.placed, ⟨fresh, fresh'⟩, apart, ?_⟩, ?_⟩⟩
    · have read : scm₇.node p = ⟨0, 1, q, 0, 0⟩ := by
        rw [same₇.node not_p.symm placed, same₆.node not_p.symm placed, node₅, node₄,
          string.same.node apart.symm node.placed, zero]
        rfl
      have text := same₅.text apart string.placed (same₄.text apart string.placed text)
      refine ⟨by rw [read], by rw [read], by rw [read]; rfl, by rw [read]; rfl, ?_⟩
      exact same₇.text not_q.symm string.placed (same₆.text not_q.symm string.placed text)
    · have depth : (scm₇.node p).depth = 0 := by
        rw [same₇.node not_p.symm placed, same₆.node not_p.symm placed, node₅, node₄,
          string.same.node apart.symm node.placed, zero]
      simpa using depth
    · have old₂ : Same blocks (fun a => held a ∧ a ∉ ptrs [] ∧ a ≠ stateAt) scm scm₂ := by
        apply node.same.mono
        rintro a ⟨h, _⟩ rfl
        exact fresh h
      have old₃ := old₂.trans (string.same.mono fun a h => by
        rintro rfl
        exact fresh' h.1) node.mono
      have mono : ∀ a n, Placed blocks a n → Placed blocks₃ a n := fun a n h =>
        string.mono _ _ (node.mono _ _ h)
      have node_away : ∀ a, held a ∧ a ∉ ptrs [] ∧ a ≠ stateAt → a ≠ p := by
        rintro a ⟨h, _⟩ rfl
        exact fresh h
      have old₄ := old₃.trans (same₄.mono node_away) mono
      have old₅ := old₄.trans (same₅.mono node_away) mono
      have old₆ := old₅.trans (same₆.mono fun a h => h.2.2) mono
      exact old₆.trans (same₇.mono fun a h => h.2.2) mono
    · intro a
      rw [string.live, node.live]
    · rw [state₇, state₆, same₅.state not_p base₃, same₄.state not_p base₃,
        string.same.state not_q (node.mono _ _ base), node.same.state not_p base]

theorem Owns.shrinks (h : Owns blocks cells) (less : Shrinks cells cells') :
    Owns blocks cells' := by
  refine ⟨fun c mem => ?_, fun c mem => ?_, less.nodup h.distinct, fun c mem d mem' => ?_⟩
  · obtain ⟨e, inside, same⟩ := mem_ptrs.mp (less.nodes c mem)
    rw [← same]
    exact h.nodes e inside
  · obtain ⟨e, inside, item, key⟩ := less.strings c mem
    rw [← item, ← key]
    exact h.strings e inside
  · obtain ⟨e, inside, item, _⟩ := less.strings c mem
    obtain ⟨f, inside', same⟩ := mem_ptrs.mp (less.nodes d mem')
    rw [← item, ← same]
    exact h.apart e inside f inside'

theorem Owns.mono (h : Owns blocks cells)
    (mono : ∀ p n, Placed blocks p n → Placed blocks' p n) : Owns blocks' cells :=
  ⟨fun c mem => mono _ _ (h.nodes c mem), fun c mem => mono _ _ (h.strings c mem), h.distinct,
    h.apart⟩

theorem Inserted.cases (h : Inserted x new cells cells') :
    Shrinks cells cells' ∨ (∀ c ∈ cells, c.key ≠ x) ∧
      ∃ before after, cells = before ++ after ∧ cells' = before ++ new :: after := by
  rcases h with ⟨before, c, after, rfl, _, rfl⟩ | ⟨before, after, rfl, rfl, lt, gt⟩
  · exact Or.inl ((Shrinks.refl before).append (shrinks_recount c _ after))
  · refine Or.inr ⟨?_, before, after, rfl, rfl⟩
    intro c mem same
    subst same
    rcases List.mem_append.mp mem with mem | mem
    · exact strcmp_irrefl _ (lt c mem)
    · exact strcmp_irrefl _ (gt c mem)

theorem Owns.inserted (owns : Owns blocks cells)
    (mono : ∀ p n, Placed blocks p n → Placed blocks' p n) (ins : Inserted x new cells cells')
    (all_held : ∀ c ∈ cells, held c.ptr ∧ held c.item)
    (made : (∀ c ∈ cells, c.key ≠ x) → Made x held new blocks blocks') : Owns blocks' cells' := by
  rcases ins.cases with less | ⟨absent, before, after, rfl, rfl⟩
  · exact (owns.mono mono).shrinks less
  · obtain ⟨key, _, node, string, ⟨fresh, fresh'⟩, apart, _⟩ := made absent
    have cell : ∀ c ∈ before ++ new :: after, c = new ∨ c ∈ before ++ after := by
      intro c mem
      simp only [List.mem_append, List.mem_cons] at mem ⊢
      tauto
    refine ⟨fun c mem => ?_, fun c mem => ?_, ?_, fun c mem d mem' => ?_⟩
    · rcases cell c mem with rfl | old
      · exact node
      · exact mono _ _ (owns.nodes c old)
    · rcases cell c mem with rfl | old
      · rw [key]
        exact string
      · exact mono _ _ (owns.strings c old)
    · have outside : new.ptr ∉ ptrs (before ++ after) := by
        intro twice
        obtain ⟨c, mem, same⟩ := mem_ptrs.mp twice
        exact fresh (same ▸ (all_held c mem).1)
      have distinct := owns.distinct
      simp only [ptrs_append, ptrs_cons] at outside distinct ⊢
      grind
    · rcases cell c mem with rfl | old
      · rcases cell d mem' with rfl | old'
        · exact apart
        · intro same
          exact fresh' (same ▸ (all_held d old').1)
      · rcases cell d mem' with rfl | old'
        · intro same
          exact fresh (same ▸ (all_held c old).2)
        · exact owns.apart c old d old'

theorem Inserted.not_held (ins : Inserted x new cells cells') (h : held p)
    (made : (∀ c ∈ cells, c.key ≠ x) → Made x held new blocks blocks') (out : p ∉ ptrs cells) :
    p ∉ ptrs cells' := by
  intro inside
  rcases ins.cases with less | ⟨absent, before, after, rfl, rfl⟩
  · exact out (less.ptrs_sub inside)
  · simp only [ptrs_append, ptrs_cons, List.mem_append, List.mem_cons] at inside out
    rcases inside with old | rfl | old
    · exact out (Or.inl old)
    · exact (made absent).fresh.1 h
    · exact out (Or.inr old)

/-- An item that belongs on one side of a node is nowhere else in its tree. -/
theorem mem_side (order : Increasing (join side c l r).inorder)
    (away : strcmp x c.key = Persistent.order side) :
    Increasing l.inorder ∧
      ((∃ d ∈ (join side c l r).inorder, d.key = x) ↔ ∃ d ∈ l.inorder, d.key = x) := by
  have other : ∀ d, d = c ∨ d ∈ r.inorder → d.key ≠ x := by
    rintro d mem rfl
    cases side with
    | left => exact strcmp_irrefl _ (above order away d (List.mem_cons.mpr mem))
    | right =>
      refine strcmp_irrefl _ (below order away d ?_)
      rw [List.mem_append, List.mem_singleton]
      exact mem.symm
  refine ⟨?_, ?_⟩
  · cases side with
    | left => exact (increasing_node.mp order).1
    | right => exact (increasing_node.mp order).2.1
  · constructor
    · rintro ⟨d, mem, key⟩
      rcases mem_inorder_join.mp mem with rfl | inside | inside
      · exact absurd key (other d (Or.inl rfl))
      · exact ⟨d, inside, key⟩
      · exact absurd key (other d (Or.inr inside))
    · rintro ⟨d, mem, key⟩
      exact ⟨d, mem_inorder_join.mpr (Or.inr (Or.inl mem)), key⟩

/-- One step down on a side. -/
theorem update_side {fuel : Nat} (fields : Fields scm c side l r) (owns : Parted blocks c l r)
    (rep : scm.Rep blocks) (away : strcmp x c.key = order side) :
    update x (fuel + 1) c.ptr scm = (update x fuel (root l) >>= fun child =>
      setChild side c.ptr child >>= fun _ => settle side c.ptr x >>= fun root =>
        updateDepth root >>= fun _ => pure root) scm := by
  have string := getString_ok fields.text owns.string rep
  have near := fields.near
  rw [update, if_neg (owns.node.nonzero rep), run_bind (getNode_ok owns.node rep), fields.item,
    run_bind string, away]
  cases side with
  | left =>
    rw [← near]
    rfl
  | right =>
    rw [← near]
    rfl

/-- A balanced search tree in blocks that are held, beside the state block. -/
structure Rooted (held : Nat → Prop) (scm : Scm) (blocks : List Block) (t : BinTree Cell) :
    Prop where
  rep : scm.Rep blocks
  base : Placed blocks stateAt stateLen
  heap : Heap scm t
  owns : Owns blocks t.inorder
  balanced : t.Balanced
  increasing : Increasing t.inorder
  all_held : ∀ d ∈ t.inorder, held d.ptr ∧ held d.item
  off_state : ∀ d ∈ t.inorder, d.ptr ≠ stateAt ∧ d.item ≠ stateAt
  state_held : held stateAt

theorem Rooted.child (h : Rooted held scm blocks (join side c l r)) :
    Rooted held scm blocks l where
  rep := h.rep
  base := h.base
  heap := (heap_join.mp h.heap).2.2.1
  owns := h.owns.parted.near
  balanced := (balanced_join.mp h.balanced).1
  increasing := by
    have increasing := h.increasing
    cases side with
    | left => exact (increasing_node.mp increasing).1
    | right => exact (increasing_node.mp increasing).2.1
  all_held := fun d mem => h.all_held d (mem_inorder_join.mpr (Or.inr (Or.inl mem)))
  off_state := fun d mem => h.off_state d (mem_inorder_join.mpr (Or.inr (Or.inl mem)))
  state_held := h.state_held

/-- The root and the other subtree share no block with the subtree on a side. -/
theorem Rooted.aside (h : Rooted held scm blocks (join side c l r)) {d : Cell}
    (part : d = c ∨ d ∈ r.inorder) :
    (held d.ptr ∧ d.ptr ∉ ptrs l.inorder ∧ d.ptr ≠ stateAt) ∧
      held d.item ∧ d.item ∉ ptrs l.inorder ∧ d.item ≠ stateAt := by
  have parted := h.owns.parted
  have mem : d ∈ (join side c l r).inorder := mem_inorder_join.mpr (part.imp_right Or.inr)
  have all_held := h.all_held d mem
  have off := h.off_state d mem
  rcases part with rfl | part
  · exact ⟨⟨all_held.1, parted.root_out.1, off.1⟩, all_held.2, parted.root_out.2, off.2⟩
  · have out := parted.far_out d part
    exact ⟨⟨all_held.1, out.1, off.1⟩, all_held.2, out.2, off.2⟩

theorem Rooted.state_off (h : Rooted held scm blocks t) : stateAt ∉ ptrs t.inorder := by
  intro inside
  obtain ⟨d, mem, same⟩ := mem_ptrs.mp inside
  exact (h.off_state d mem).1 same

/-- What `update` returns for a tree. -/
def Updates (x : Bytes) (held : Nat → Prop) (scm : Scm) (blocks : List Block) (t : BinTree Cell)
    (fuel : Nat) : Prop :=
  ∃ new scm' blocks', update x fuel (root t) scm = .ok (root (insertTree x new t), scm') ∧
    Updated x held scm blocks t.inorder (insertTree x new t) new scm' blocks'

/-- The rest of `update` when the subtree on a side has become `u`. -/
theorem relink_turns {u : BinTree Cell} (fields : Fields scm c side l r)
    (parted : Parted blocks c l r) (hu : Heap scm u) (hr : Heap scm r)
    (owns : Owns blocks (join side c u r).inorder) (rep : scm.Rep blocks)
    (low : (join side c u r).height + 2 < 2 ^ 31)
    (shape : (u.height ≤ r.height + 1 ∧ r.height ≤ u.height + 1) ∨
      ∃ b y z, u = join side b y z ∧ r.height + 1 < u.height ∧
        (strcmp x b.key = order side ∨
          strcmp x b.key ≠ order side ∧ ∃ d p q, z = join side d p q)) :
    Turns (setChild side c.ptr (root u) >>= fun _ => settle side c.ptr x >>= fun root =>
      updateDepth root >>= fun _ => pure root) scm blocks (join side c u r)
      (settleTree side x (join side c u r)) :=
  Turns.relink fields parted hu hr owns rep fun _ loose rep₁ =>
    settle_turns loose owns rep₁ low shape

theorem update_descend {fuel : Nat} (h : Rooted held scm blocks (join side c l r))
    (small : (join side c l r).height + 3 < 2 ^ 31) (away : strcmp x c.key = order side)
    (ih : Updates x held scm blocks l fuel) :
    Updates x held scm blocks (join side c l r) (fuel + 1) := by
  obtain ⟨new, scm₁, blocks₁, ok₁, done⟩ := ih
  have parted := h.owns.parted
  obtain ⟨fields, _, _, hr⟩ := heap_join.mp h.heap
  have ⟨_, where_⟩ := mem_side h.increasing away
  have absent : (∀ d ∈ (join side c l r).inorder, d.key ≠ x) → ∀ d ∈ l.inorder, d.key ≠ x :=
    fun none_ d mem => none_ d (mem_inorder_join.mpr (Or.inr (Or.inl mem)))
  -- the new tree is in its blocks
  set u := insertTree x new l with u_def
  have whole : insertTree x new (join side c l r) = settleTree side x (join side c u r) :=
    insertTree_join away
  have ins : Inserted x new (join side c l r).inorder (join side c u r).inorder := by
    have : Inserted x new (join side c l r).inorder (insertTree x new (join side c l r)).inorder :=
      insertTree_inserted h.increasing
    rwa [whole, inorder_settleTree] at this
  have made : (∀ d ∈ (join side c l r).inorder, d.key ≠ x) → Made x held new blocks blocks₁ :=
    fun none_ => (done.absent (absent none_)).1
  have owns' := h.owns.inserted done.mono ins h.all_held made
  -- the root and the other subtree are as before
  have fields₁ := done.same.fields (h.aside (Or.inl rfl)) parted.node parted.string fields
  have hr₁ := done.same.heap parted.far (fun d mem => h.aside (Or.inr mem)) hr
  -- the rest of the function
  obtain ⟨hl, _, le, ge⟩ := balanced_join.mp h.balanced
  have grows : Grows x l u := insertTree_grows x new hl
  have grown := grows.height
  have low : (join side c u r).height + 2 < 2 ^ 31 := by
    simp only [height_join] at small ⊢
    omega
  have shape : (u.height ≤ r.height + 1 ∧ r.height ≤ u.height + 1) ∨
      ∃ b y z, u = join side b y z ∧ r.height + 1 < u.height ∧
        (strcmp x b.key = order side ∨
          strcmp x b.key ≠ order side ∧ ∃ d p q, z = join side d p q) := by
    by_cases high : u.height = r.height + 2
    · obtain ⟨b, y, z, split, turn⟩ := grows.shape side high le
      refine Or.inr ⟨b, y, z, split, by omega, turn.imp And.left fun inward => ?_⟩
      exact ⟨inward.1, inward.2.2.2⟩
    · exact Or.inl (by omega)
  obtain ⟨scm₂, ok₂, rep₂, same₂, heap₂⟩ := relink_turns fields₁ (h.owns.mono done.mono).parted
    done.heap hr₁ owns' done.rep low shape
  have state : scm₂.state = scm₁.state := by
    have off : stateAt ∉ ptrs (join side c u r).inorder :=
      ins.not_held h.state_held made h.state_off
    exact same₂.state off (done.mono _ _ h.base)
  refine ⟨new, scm₂, blocks₁, ?_, rep₂, done.mono, ?_, ?_, ?_, ?_⟩
  · rw [root_join, update_side fields parted h.rep away, run_bind ok₁, ok₂, whole]
  · rw [whole]
    exact heap₂
  · have old₁ : Same blocks
        (fun p => held p ∧ p ∉ ptrs (join side c l r).inorder ∧ p ≠ stateAt) scm scm₁ := by
      apply done.same.mono
      rintro p ⟨h₁, out, h₂⟩
      refine ⟨h₁, fun inside => out ?_, h₂⟩
      obtain ⟨d, mem, same⟩ := mem_ptrs.mp inside
      exact mem_ptrs.mpr ⟨d, mem_inorder_join.mpr (Or.inr (Or.inl mem)), same⟩
    exact old₁.trans (same₂.mono fun p out => ins.not_held out.1 made out.2.1) done.mono
  · intro present
    rw [state]
    exact done.present (where_.mp present)
  · intro none_
    rw [state]
    exact done.absent (absent none_)

theorem update_found {fuel : Nat} (h : Rooted held scm blocks (.node c l r))
    (small : (BinTree.node c l r).height + 3 < 2 ^ 31) (same : strcmp x c.key = .eq) :
    Updates x held scm blocks (.node c l r) (fuel + 1) := by
  have parted := h.owns.parted_node
  obtain ⟨fields, _, hl, hr⟩ := h.heap
  have here : c ∈ (BinTree.node c l r).inorder := by simp
  have off := h.off_state c here
  set n := (c.count + 1) % 2 ^ 64 with n_def
  have owns' : Owns blocks (BinTree.node (c.counted n) l r).inorder :=
    h.owns.shrinks ((Shrinks.refl l.inorder).append (shrinks_recount c _ r.inorder))
  -- `++root->count`
  obtain ⟨scm₁, ok₁, writes₁⟩ := setCount_spec parted.node h.rep (c.count + 1)
  have fields₁ := fields.counted writes₁ parted.own parted.string
  obtain ⟨rep₁, same₁, _⟩ := writes₁
  have hl₁ := same₁.heap parted.near
    (fun d mem => (parted.near_root d mem).imp_right And.left) hl
  have hr₁ := same₁.heap parted.far (fun d mem => (parted.far_root d mem).imp_right And.left) hr
  -- `++avl->state->items`
  obtain ⟨scm₂, ok₂, rep₂, same₂, state₂⟩ := setItems_spec h.base rep₁ (· + 1)
  have fields₂ := same₂.fields (c := c.counted n) off parted.node parted.string fields₁
  have hl₂ := same₂.heap parted.near (fun d mem => h.off_state d (by simp [mem])) hl₁
  have hr₂ := same₂.heap parted.far (fun d mem => h.off_state d (by simp [mem])) hr₁
  -- the depth of the root
  obtain ⟨scm₃, ok₃, rep₃, same₃, heap₃⟩ := updateDepth_node ⟨fields₂, hl₂, hr₂⟩ owns' rep₂
    (by simp only [height] at small ⊢; omega)
  have cells : ptrs (BinTree.node (c.counted n) l r).inorder =
      ptrs (BinTree.node c l r).inorder := by
    simp only [inorder, ptrs_append, ptrs_cons, Cell.counted_ptr]
  rw [cells] at same₃
  rw [Cell.counted_ptr] at ok₃
  refine ⟨c, scm₃, blocks, ?_, rep₃, fun _ _ => id, ?_, ?_, fun _ => ⟨rfl, ?_⟩, fun none_ => ?_⟩
  · rw [insertTree_node same, root, root, update, if_neg (parted.node.nonzero h.rep),
      run_bind (getNode_ok parted.node h.rep), fields.item,
      run_bind (getString_ok fields.text parted.string h.rep), same]
    simp only
    rw [fields.count, run_bind ok₁, run_bind ok₂, run_bind ok₃, run_pure, Cell.counted_ptr]
  · rw [insertTree_node same]
    exact heap₃
  · have old₁ : Same blocks
        (fun p => held p ∧ p ∉ ptrs (BinTree.node c l r).inorder ∧ p ≠ stateAt) scm scm₁ := by
      apply same₁.mono
      rintro p out rfl
      exact out.2.1 (mem_ptrs.mpr ⟨c, here, rfl⟩)
    have old₂ := old₁.trans (same₂.mono fun p out => out.2.2) fun _ _ => id
    exact old₂.trans (same₃.mono fun p out => out.2.1) fun _ _ => id
  · rw [same₃.state h.state_off h.base, state₂, same₁.state off.1.symm h.base]
  · exact absurd (strcmp_eq_eq.mp same).symm (none_ c here)

/-- `update` inserts into the tree, however deep the item belongs. -/
theorem update_spec (fuel : Nat) (h : Rooted held scm blocks t) (enough : t.height < fuel)
    (small : t.height + 3 < 2 ^ 31) (ends : 0 ∉ x)
    (grants : (∀ d ∈ t.inorder, d.key ≠ x) → Grants scm x held) :
    Updates x held scm blocks t fuel := by
  induction t generalizing fuel with
  | leaf =>
    obtain ⟨fuel, rfl⟩ := Nat.exists_eq_succ_of_ne_zero (by omega : fuel ≠ 0)
    obtain ⟨new, scm', blocks', ok, updated⟩ :=
      newNode_spec h.rep h.base (grants (by simp)) ends h.state_held
    exact ⟨new, scm', blocks', ok, updated⟩
  | node c l r ihl ihr =>
    obtain ⟨fuel, rfl⟩ := Nat.exists_eq_succ_of_ne_zero (by omega : fuel ≠ 0)
    simp only [height] at enough small
    rcases strcmp_cases x c.key with same | ⟨side, away⟩
    · exact update_found h (by simp only [height]; omega) same
    · have sub : ∀ {u v : BinTree Cell}, join side c u v = .node c l r →
          (∀ d ∈ u.inorder, d.key ≠ x) → Grants scm x held := by
        intro u v split none_
        refine grants fun d mem key => ?_
        rw [← split] at mem
        have increasing := h.increasing
        rw [← split] at increasing
        obtain ⟨e, mem', key'⟩ := (mem_side increasing away).2.mp ⟨d, mem, key⟩
        exact none_ e mem' key'
      cases side with
      | left =>
        have h : Rooted held scm blocks (join .left c l r) := h
        exact update_descend h (by simp only [height_join]; omega) away
          (ihl fuel h.child (by omega) (by omega) (sub rfl))
      | right =>
        have h : Rooted held scm blocks (join .right c r l) := h
        exact update_descend h (by simp only [height_join]; omega) away
          (ihr fuel h.child (by omega) (by omega) (sub rfl))

end

end OsProjects.Persistent
