import OsProjects.Persistent.WordMultiset

/-!
# The room of the words

How many bytes of the file the words take. A new word extends the chain by two blocks as long as the
file has room for them, and no other step of the tree changes the number of utilized bytes. So a run
that stays inside the file is known by its words alone.
-/
namespace OsProjects.Persistent
open OsProjects.Library BinTree

/-- What a new word takes: a node and its string, each behind a header. -/
def cost (x : Bytes) : Nat := headerLen + nodeLen + (headerLen + (x.length + 1))

/-- The program allocates nothing. -/
def Steady {α : Type} (p : Prog α) : Prop :=
  ∀ scm r scm', p scm = .ok (r, scm') →
    scm'.utilized = scm.utilized ∧ scm'.capacity = scm.capacity

/-- Where the last occurrence of the word goes, the next word occurs once. -/
def NextOnce (m : Multiset Bytes) (x : Bytes) : Prop :=
  m.count x = 1 → ∀ y ∈ m, strcmp x y = .lt → (∀ z ∈ m, strcmp x z = .lt → strcmp z y ≠ .lt) →
    m.count y = 1

instance (m : Multiset Bytes) (x : Bytes) : Decidable (NextOnce m x) :=
  inferInstanceAs (Decidable (_ → ∀ y ∈ m, _ → (∀ z ∈ m, _) → _))

/-- The words of a store, and the number of bytes that have gone to them. -/
structure Words where
  bag : Multiset Bytes
  used : Nat

def Words.insert (w : Words) (x : Bytes) : Words :=
  ⟨x ::ₘ w.bag, if x ∈ w.bag then w.used else w.used + cost x⟩

def Words.remove (w : Words) (x : Bytes) : Words := ⟨w.bag.erase x, w.used⟩

/-- The counters and a file of `capacity` bytes have room for the word. -/
def Words.Room (capacity : Nat) (w : Words) (x : Bytes) : Prop :=
  w.bag.card + 1 < 2 ^ 64 ∧ (x ∉ w.bag → 8 + w.used + cost x ≤ capacity)

instance (capacity : Nat) (w : Words) (x : Bytes) : Decidable (w.Room capacity x) :=
  inferInstanceAs (Decidable (_ ∧ _))

/-- The region holds the words. -/
def Stores (scm : Scm) (w : Words) : Prop :=
  ∃ blocks t, Store scm blocks t ∧ Counts scm t w.bag ∧ scm.utilized = w.used

/-- What a step takes for a word that is present or not. -/
structure Spends (here : Prop) (x : Bytes) (scm scm' : Scm) : Prop where
  capacity : scm'.capacity = scm.capacity
  present : here → scm'.utilized = scm.utilized
  absent : ¬ here → scm'.utilized = scm.utilized + cost x

section
variable {α β : Type} {scm scm' : Scm} {blocks blocks' : List Block} {held : Nat → Prop}
  {t l r : BinTree Cell} {c new : Cell} {x : Bytes} {p : Prog α} {n q : Nat}

theorem run_bind_ok {f : α → Prog β} {b : β} :
    (p >>= f) scm = .ok (b, scm') ↔ ∃ a scm₁, p scm = .ok (a, scm₁) ∧ f a scm₁ = .ok (b, scm') := by
  change (p scm >>= fun r => f r.1 r.2) = .ok (b, scm') ↔ _
  cases p scm with
  | error f => simp [bind, Except.bind]
  | ok r => simp [bind, Except.bind, Prod.ext_iff]

theorem Steady.bind {f : α → Prog β} (h : Steady p) (h' : ∀ a, Steady (f a)) : Steady (p >>= f) := by
  intro scm b scm' ok
  obtain ⟨a, scm₁, first, second⟩ := run_bind_ok.mp ok
  obtain ⟨utilized, capacity⟩ := h scm a scm₁ first
  obtain ⟨utilized', capacity'⟩ := h' a scm₁ b scm' second
  exact ⟨utilized'.trans utilized, capacity'.trans capacity⟩

theorem steady_pure (a : α) : Steady (pure a : Prog α) := by
  intro scm b scm' ok
  obtain ⟨_, rfl⟩ := Prod.mk.inj (Except.ok.inj ok)
  exact ⟨rfl, rfl⟩

theorem steady_getNode : Steady (getNode q) := by
  intro scm b scm' ok
  unfold getNode at ok
  split_ifs at ok
  cases ok
  exact ⟨rfl, rfl⟩

theorem steady_getString : Steady (getString q) := by
  intro scm b scm' ok
  unfold getString at ok
  split_ifs at ok
  cases text : cString scm.mem (virtAddr + scm.capacity - q) q with
  | none => simp [text] at ok
  | some s =>
    simp only [text] at ok
    cases ok
    exact ⟨rfl, rfl⟩

theorem steady_poke {i : Nat} {bytes : Bytes} : Steady (poke q i bytes) := by
  intro scm b scm' ok
  unfold poke at ok
  split_ifs at ok
  cases ok
  exact ⟨rfl, rfl⟩

theorem steady_setChild {side : Side} : Steady (setChild side q n) := by
  cases side <;> exact steady_poke

theorem steady_delta : Steady (delta q) := by
  unfold delta
  split_ifs
  · exact steady_pure _
  · exact .bind steady_getNode fun _ => steady_pure _

theorem steady_balance : Steady (balance q) :=
  .bind steady_getNode fun _ => .bind steady_delta fun _ => .bind steady_delta fun _ => steady_pure _

theorem steady_depth : Steady (depth q n) :=
  .bind steady_delta fun _ => .bind steady_delta fun _ => steady_pure _

theorem steady_updateDepth : Steady (updateDepth q) :=
  .bind steady_getNode fun _ => .bind steady_depth fun _ => steady_poke

theorem steady_rotate {side : Side} : Steady (rotate side q) :=
  .bind steady_getNode fun _ => .bind steady_getNode fun _ => .bind steady_setChild fun _ =>
    .bind steady_setChild fun _ => .bind steady_updateDepth fun _ => .bind steady_getNode fun _ =>
      .bind steady_depth fun _ => .bind steady_poke fun _ => steady_pure _

theorem steady_rotateTwice {side : Side} : Steady (rotateTwice side q) :=
  .bind steady_getNode fun _ => .bind steady_rotate fun _ => .bind steady_setChild fun _ =>
    steady_rotate

theorem steady_settle {side : Side} : Steady (settle side q x) := by
  refine .bind steady_balance fun b => ?_
  split_ifs
  · refine .bind steady_getNode fun _ => .bind steady_getNode fun _ => .bind steady_getString fun s => ?_
    split_ifs
    · exact steady_rotate
    · exact steady_rotateTwice
  · exact steady_pure _

/-- The words of the state block are written in place. -/
theorem steady_setRoot : Steady (setRoot q) := fun scm b scm' ok => steady_poke scm b scm' ok

theorem steady_setItems {f : Nat → Nat} : Steady (setItems f) :=
  fun scm b scm' ok => steady_poke scm b scm' ok

theorem steady_setUnique {f : Nat → Nat} : Steady (setUnique f) :=
  fun scm b scm' ok => steady_poke scm b scm' ok

/-- An allocation that has room behind the last block. -/
theorem scmMalloc_room (room : 8 + scm.utilized + headerLen + n ≤ scm.capacity) :
    ∃ mem, scmMalloc scm n = .ok (some (scm.addr + scm.utilized + headerLen),
      { scm with mem := mem, utilized := scm.utilized + headerLen + n }) := by
  have mapped := scm.mapped
  have top : (scm.addr + scm.utilized) % 2 ^ 64 = scm.addr + scm.utilized := by
    simp only [Scm.addr, virtAddr, headerLen] at *
    omega
  have sum : (scm.utilized + (headerLen + n) % 2 ^ 64) % 2 ^ 64 = scm.utilized + headerLen + n := by
    simp only [headerLen] at *
    omega
  have enough : ¬ scm.capacity < scm.utilized + headerLen + n := by omega
  refine ⟨((scm.mem.store 2 (scm.addr + scm.utilized) 1).store 8 (scm.addr + scm.utilized + 2) n).store
    8 (scm.addr - 8) (scm.utilized + headerLen + n), ?_⟩
  simp only [scmMalloc, top, sum, if_neg enough]

theorem newNode_spends (room : 8 + scm.utilized + cost x ≤ scm.capacity)
    (ok : newNode x scm = .ok (q, scm')) :
    scm'.capacity = scm.capacity ∧ scm'.utilized = scm.utilized + cost x := by
  simp only [cost] at room ⊢
  obtain ⟨mem, node⟩ := scmMalloc_room
    (show 8 + scm.utilized + headerLen + nodeLen ≤ scm.capacity by omega)
  obtain ⟨a, scm₁, first, ok⟩ := run_bind_ok.mp ok
  obtain ⟨rfl, rfl⟩ := Prod.mk.inj (Except.ok.inj (node.symm.trans first))
  obtain ⟨_, scm₂, cleared, ok⟩ := run_bind_ok.mp ok
  obtain ⟨utilized, capacity⟩ := steady_poke _ _ _ cleared
  simp only at utilized capacity
  obtain ⟨b, scm₃, text, ok⟩ := run_bind_ok.mp ok
  obtain ⟨mem', string⟩ := scmMalloc_room
    (show 8 + scm₂.utilized + headerLen + (x.length + 1) ≤ scm₂.capacity by omega)
  simp only [strdup, scmStrdup, string] at text
  obtain ⟨rfl, rfl⟩ := Prod.mk.inj (Except.ok.inj text)
  have rest : ∀ root s, Steady (do
      setItem root s
      let n ← getNode root
      setCount root (n.count + 1)
      setItems (· + 1)
      setUnique (· + 1)
      return root) := fun root s =>
    .bind steady_poke fun _ => .bind steady_getNode fun _ => .bind steady_poke fun _ =>
      .bind steady_setItems fun _ => .bind steady_setUnique fun _ => steady_pure _
  obtain ⟨utilized', capacity'⟩ := rest _ _ _ _ _ ok
  simp only at utilized' capacity'
  exact ⟨capacity'.trans capacity, by omega⟩

/-- A missing word takes its cost, however deep it belongs. -/
theorem update_spends {fuel : Nat} (h : Rooted held scm blocks t)
    (room : (∀ d ∈ t.inorder, d.key ≠ x) → 8 + scm.utilized + cost x ≤ scm.capacity)
    (ok : update x fuel (root t) scm = .ok (q, scm')) :
    Spends (∃ d ∈ t.inorder, d.key = x) x scm scm' := by
  induction t generalizing fuel q scm' with
  | leaf =>
    cases fuel with
    | zero => cases ok
    | succ fuel =>
      obtain ⟨capacity, utilized⟩ := newNode_spends (room (by simp)) ok
      exact ⟨capacity, by simp, fun _ => utilized⟩
  | node c l r ihl ihr =>
    cases fuel with
    | zero => cases ok
    | succ fuel =>
      rcases strcmp_cases x c.key with same | ⟨side, away⟩
      · have parted := h.owns.parted_node
        have fields := h.heap.1
        rw [root, update, if_neg (parted.node.nonzero h.rep),
          run_bind (getNode_ok parted.node h.rep), fields.item,
          run_bind (getString_ok fields.text parted.string h.rep), same] at ok
        have rest : Steady (do
            setCount c.ptr ((scm.node c.ptr).count + 1)
            setItems (· + 1)
            updateDepth c.ptr
            return c.ptr) :=
          .bind steady_poke fun _ => .bind steady_setItems fun _ =>
            .bind steady_updateDepth fun _ => steady_pure _
        obtain ⟨utilized, capacity⟩ := rest _ _ _ ok
        exact ⟨capacity, fun _ => utilized, fun none_ =>
          absurd ⟨c, by simp, (strcmp_eq_eq.mp same).symm⟩ none_⟩
      · have descend : ∀ {u v : BinTree Cell}, join side c u v = .node c l r →
            (∀ {q : Nat} {scm' : Scm}, update x fuel (root u) scm = .ok (q, scm') →
              Spends (∃ d ∈ u.inorder, d.key = x) x scm scm') →
            Spends (∃ d ∈ (BinTree.node c l r).inorder, d.key = x) x scm scm' := by
          intro u v split below
          rw [← split] at h ok ⊢
          rw [root_join, update_side (heap_join.mp h.heap).1 h.owns.parted h.rep away] at ok
          obtain ⟨child, scm₁, first, rest⟩ := run_bind_ok.mp ok
          have steady : Steady (setChild side c.ptr child >>= fun _ => settle side c.ptr x >>=
              fun root => updateDepth root >>= fun _ => pure root) :=
            .bind steady_setChild fun _ => .bind steady_settle fun _ => .bind steady_updateDepth
              fun _ => steady_pure _
          obtain ⟨utilized, capacity⟩ := steady _ _ _ rest
          have spends := below first
          have where_ := (mem_side h.increasing away).2
          exact ⟨capacity.trans spends.capacity,
            fun here => utilized.trans (spends.present (where_.mp here)),
            fun none_ => utilized.trans (spends.absent fun here => none_ (where_.mpr here))⟩
        have below : ∀ {u v : BinTree Cell}, join side c u v = .node c l r →
            (∀ d ∈ u.inorder, d.key ≠ x) → 8 + scm.utilized + cost x ≤ scm.capacity := by
          intro u v split none_
          refine room fun d mem key => ?_
          rw [← split] at mem h
          obtain ⟨e, inside, key'⟩ := (mem_side h.increasing away).2.mp ⟨d, mem, key⟩
          exact none_ e inside key'
        cases side with
        | left =>
          have child : Rooted held scm blocks (join .left c l r) := h
          exact descend rfl (ihl child.child (below rfl))
        | right =>
          have child : Rooted held scm blocks (join .right c r l) := h
          exact descend rfl (ihr child.child (below rfl))

theorem steady_free : Steady (free q) := by
  intro scm b scm' ok
  cases ok
  exact ⟨rfl, rfl⟩

theorem steady_copyNode : Steady (copyNode q n) := by
  intro scm b scm' ok
  unfold copyNode at ok
  split_ifs at ok
  exact steady_poke scm b scm' ok

theorem steady_freeNode : Steady (freeNode q) :=
  .bind steady_getNode fun _ => .bind steady_free fun _ => .bind steady_free fun _ =>
    .bind steady_setItems fun _ => steady_setUnique

theorem steady_fault (f : Fault) : Steady (fault f : Prog α) := fun _ _ _ ok => by cases ok

theorem steady_leftmost (fuel : Nat) : Steady (leftmost fuel q) := by
  induction fuel generalizing q with
  | zero => exact steady_fault _
  | succ fuel ih =>
    refine .bind steady_getNode fun t => ?_
    split_ifs
    · exact steady_pure _
    · exact ih

theorem steady_restoreBalance : Steady (restoreBalance q) := by
  refine .bind steady_updateDepth fun _ => .bind steady_balance fun _ => .bind steady_getNode fun _ => ?_
  split_ifs
  · refine .bind steady_balance fun _ => ?_
    split_ifs
    · exact steady_rotate
    · exact steady_rotateTwice
  · refine .bind steady_balance fun _ => ?_
    split_ifs
    · exact steady_rotate
    · exact steady_rotateTwice
  · exact steady_pure _

/-- A removal gives its blocks back and keeps the utilized bytes. -/
theorem steady_removeNode (fuel : Nat) : Steady (removeNode fuel q x) := by
  induction fuel generalizing q x with
  | zero => exact steady_fault _
  | succ fuel ih =>
    unfold removeNode
    split_ifs
    · exact steady_pure _
    · refine .bind steady_getNode fun n => .bind steady_getString fun s => ?_
      have single : ∀ temp, Steady (if temp = 0 then do
            freeNode q
            return 0
          else do
            copyNode q temp
            freeNode temp
            restoreBalance q) := by
        intro temp
        split_ifs
        · exact .bind steady_freeNode fun _ => steady_pure _
        · exact .bind steady_copyNode fun _ => .bind steady_freeNode fun _ => steady_restoreBalance
      split
      · exact ih.bind fun _ => .bind steady_setChild fun _ => steady_restoreBalance
      · exact ih.bind fun _ => .bind steady_setChild fun _ => steady_restoreBalance
      · split_ifs
        · exact .bind steady_poke fun _ => .bind steady_setItems fun _ => steady_pure _
        · exact single _
        · exact single _
        · exact (steady_leftmost fuel).bind fun _ => .bind steady_getNode fun _ =>
            .bind steady_poke fun _ => .bind steady_poke fun _ =>
              .bind steady_getString fun _ => ih.bind fun _ => .bind steady_setChild fun _ =>
                steady_restoreBalance

theorem steady_avlRemove : Steady (avlRemove x) := by
  intro scm b scm' ok
  have rest : Steady (removeNode (walkFuel scm) scm.root x >>= fun root => setRoot root >>= fun _ =>
      (pure 0 : Prog Int)) :=
    (steady_removeNode _).bind fun _ => .bind steady_setRoot fun _ => steady_pure _
  exact rest scm b scm' ok

/-- The node of a word with its subtrees stands in one piece. -/
theorem subtree_inorder (found : subtree x t = .node c l r) :
    c.key = x ∧ ∃ before after, t.inorder = before ++ (l.inorder ++ c :: r.inorder) ++ after := by
  induction t with
  | leaf => simp [subtree] at found
  | node d u v ihu ihv =>
    cases order : strcmp x d.key with
    | lt =>
      simp only [subtree, order] at found
      obtain ⟨key, before, after, split⟩ := ihu found
      exact ⟨key, before, after ++ d :: v.inorder, by simp [split]⟩
    | gt =>
      simp only [subtree, order] at found
      obtain ⟨key, before, after, split⟩ := ihv found
      exact ⟨key, u.inorder ++ d :: before, after, by simp [split]⟩
    | eq =>
      simp only [subtree, order] at found
      obtain ⟨rfl, rfl, rfl⟩ := BinTree.node.inj found
      exact ⟨(strcmp_eq_eq.mp order).symm, [], [], by simp⟩

theorem Counts.mem_iff {m : Multiset Bytes} (counts : Counts scm t m) :
    x ∈ m ↔ ∃ c ∈ t.inorder, c.key = x := by
  rw [counts.bag, mem_bagOf counts.positive]
  constructor
  · rintro ⟨i, mem, rfl⟩
    obtain ⟨c, inside, rfl⟩ := List.mem_map.mp mem
    exact ⟨c, inside, rfl⟩
  · rintro ⟨c, mem, rfl⟩
    exact ⟨(c.key, c.count), List.mem_map.mpr ⟨c, mem, rfl⟩, rfl⟩

theorem Counts.count_key {m : Multiset Bytes} (counts : Counts scm t m)
    (increasing : Increasing t.inorder) (mem : c ∈ t.inorder) : m.count c.key = c.count := by
  rw [counts.bag]
  exact count_bagOf ((increasing_iff _).mp increasing) (List.mem_map.mpr ⟨c, mem, rfl⟩)

/-- The successor in the tree is the next word. -/
theorem Counts.not_doubles {m : Multiset Bytes} (counts : Counts scm t m)
    (increasing : Increasing t.inorder) (safe : NextOnce m x) : ¬ Doubles x t := by
  rintro ⟨c, l, r, found, once, _, some_, many⟩
  obtain ⟨rfl, before, after, split⟩ := subtree_inorder found
  obtain ⟨s, rest, first⟩ := List.exists_cons_of_ne_nil (inorder_ne_nil some_)
  have here : c ∈ t.inorder := by simp [split]
  have next : s ∈ t.inorder := by simp [split, first]
  have positive := counts.positive (c.key, c.count) (List.mem_map.mpr ⟨c, here, rfl⟩)
  simp only at positive
  have head : successor c r = s := by rw [successor, first, List.headD_cons]
  rw [head] at many
  have whole := increasing
  rw [split, first] at whole
  have pieces : before ++ (l.inorder ++ c :: s :: rest) ++ after =
      (before ++ l.inorder) ++ c :: s :: (rest ++ after) := by simp
  rw [pieces] at whole
  obtain ⟨_, behind, across⟩ := increasing_append.mp whole
  obtain ⟨greater, later⟩ := increasing_cons.mp behind
  have last := (increasing_cons.mp later).1
  have single := safe (by rw [counts.count_key increasing here]; omega) s.key
    (counts.mem_iff.mpr ⟨s, next, rfl⟩) (greater s (by simp)) fun z mem above below => ?_
  · rw [counts.count_key increasing next] at single
    omega
  · obtain ⟨e, inside, rfl⟩ := counts.mem_iff.mp mem
    rw [split, first, pieces, List.mem_append, List.mem_cons, List.mem_cons] at inside
    rcases inside with early | rfl | rfl | late
    · exact strcmp_irrefl _ (strcmp_trans above (across e early c (by simp)))
    · exact strcmp_irrefl _ above
    · exact strcmp_irrefl _ below
    · exact strcmp_irrefl _ (strcmp_trans below (last e late))

/-- Where the file has room, an insertion gets blocks behind all others. -/
theorem Store.grants_room (h : Store scm blocks t)
    (room : 8 + scm.utilized + cost x ≤ scm.capacity) :
    Grants scm x fun p => ∃ c ∈ t.inorder, p = c.item := by
  simp only [cost] at room
  have below : ∀ c ∈ t.inorder, c.item < scm.addr + scm.utilized + headerLen := by
    intro c mem
    obtain ⟨b, inside, ptr, _⟩ := h.rooted.owns.strings c mem
    have stop := (h.rooted.rep.chain.bounds b inside).2
    simp only [Block.ptr, Block.stop, headerLen] at ptr stop ⊢
    omega
  refine ⟨scm.addr + scm.utilized + headerLen, if_pos (by omega), ?_, fun scm' ok => ?_⟩
  · rintro ⟨c, mem, same⟩
    exact absurd (below c mem) (by omega)
  · obtain ⟨mem, extended⟩ := scmMalloc_room
      (show 8 + scm.utilized + headerLen + nodeLen ≤ scm.capacity by omega)
    obtain rfl := (Prod.mk.inj (Except.ok.inj (extended.symm.trans ok))).2
    refine ⟨_, if_pos (by simp only; omega), ?_⟩
    rintro ⟨c, inside, same⟩
    have lt := below c inside
    simp only [Scm.addr] at same lt
    omega

theorem Store.avlInsert_spends {r : Int} (h : Store scm blocks t)
    (room : (∀ d ∈ t.inorder, d.key ≠ x) → 8 + scm.utilized + cost x ≤ scm.capacity)
    (ok : avlInsert x scm = .ok (r, scm')) : Spends (∃ d ∈ t.inorder, d.key = x) x scm scm' := by
  rw [avlInsert, h.root] at ok
  cases updated : update x (walkFuel scm) (Persistent.root t) scm with
  | error f => simp [updated] at ok
  | ok done =>
    obtain ⟨q, scm₁⟩ := done
    have spends := update_spends h.rooted room updated
    simp only [updated] at ok
    split_ifs at ok
    · obtain ⟨_, rfl⟩ := Prod.mk.inj (Except.ok.inj ok)
      exact spends
    · have rest : Steady (setRoot q >>= fun _ => (pure 0 : Prog Int)) :=
        .bind steady_setRoot fun _ => steady_pure _
      obtain ⟨utilized, capacity⟩ := rest scm₁ r scm' ok
      exact ⟨capacity.trans spends.capacity, fun here => utilized.trans (spends.present here),
        fun none_ => utilized.trans (spends.absent none_)⟩

theorem Stores.insert {w : Words} (h : Stores scm w) (x : Item)
    (room : w.Room scm.capacity x.bytes) : ∃ scm', avlInsert x.bytes scm = .ok (0, scm') ∧
      Stores scm' (w.insert x.bytes) ∧ scm'.capacity = scm.capacity := by
  obtain ⟨blocks, t, store, counts, used⟩ := h
  obtain ⟨few, room⟩ := room
  have spare : (∀ d ∈ t.inorder, d.key ≠ x.bytes) →
      8 + scm.utilized + cost x.bytes ≤ scm.capacity := by
    intro none_
    rw [used]
    refine room fun inside => ?_
    obtain ⟨c, mem, key⟩ := counts.mem_iff.mp inside
    exact none_ c mem key
  obtain ⟨scm', blocks', t', ok, store', counts'⟩ := store.insert_counts counts x
    (by rw [counts.items]; exact few) fun none_ => store.grants_room (spare none_)
  have spends := store.avlInsert_spends spare ok
  refine ⟨scm', ok, ⟨blocks', t', store', counts', ?_⟩, spends.capacity⟩
  simp only [Words.insert]
  split_ifs with inside
  · rw [spends.present (counts.mem_iff.mp inside), used]
  · rw [spends.absent fun here => inside (counts.mem_iff.mpr here), used]

theorem Stores.remove {w : Words} (h : Stores scm w) (safe : NextOnce w.bag x) :
    ∃ scm', avlRemove x scm = .ok (0, scm') ∧ Stores scm' (w.remove x) ∧
      scm'.capacity = scm.capacity := by
  obtain ⟨blocks, t, store, counts, used⟩ := h
  obtain ⟨scm', blocks', t', ok, store', counts'⟩ :=
    store.remove_counts counts (counts.not_doubles store.rooted.increasing safe)
  obtain ⟨utilized, capacity⟩ := steady_avlRemove _ _ _ ok
  exact ⟨scm', ok, ⟨blocks', t', store', counts', utilized.trans used⟩, capacity⟩

end

end OsProjects.Persistent
