import OsProjects.Persistent.Blocks

/-!
# What a user of the region sees

A user holds pointers to blocks with room for so many bytes. An allocation gives a pointer
that is not allocated, a free takes one away, a write inside a block changes nothing in
another one, and none of them moves a block.
-/
namespace OsProjects.Persistent
open OsProjects.Library

/-- The pointer of a block with room for `n` bytes. -/
def Placed (blocks : List Block) (p n : Nat) : Prop := ∃ b ∈ blocks, b.ptr = p ∧ n ≤ b.size

/-- The pointers of the blocks that are marked as allocated. -/
def allocated (blocks : List Block) : List Nat := (blocks.filter (·.live)).map Block.ptr

/-- The blocks that a walk over the headers finds from an address on. -/
def headers (m : Mem) (stop : Nat) : Nat → Nat → List Block
  | 0, _ => []
  | fuel + 1, a =>
    if a < stop then
      let b : Block := ⟨a, m.load 8 (a + 2), m.load 2 a ≠ 0⟩
      b :: headers m stop fuel b.stop
    else []

def Scm.blocks (scm : Scm) : List Block :=
  headers scm.mem (scm.addr + scm.utilized) scm.utilized scm.addr

/-- The pointer that an allocation of `n` bytes gives: behind the last block where the file has
room for the block, else the first free block that is large enough. -/
def Scm.grant (scm : Scm) (n : Nat) : Option Nat :=
  if 8 + scm.utilized + headerLen + n ≤ scm.capacity then
    some (scm.addr + scm.utilized + headerLen)
  else if scm.capacity < (scm.utilized + (headerLen + n) % 2 ^ 64) % 2 ^ 64 then
    (scm.blocks.find? fun b => !b.live && n ≤ b.size).map Block.ptr
  else none

/-- The bytes in the blocks of the pointers that satisfy `K` are the same. -/
def Same (blocks : List Block) (K : Nat → Prop) (scm scm' : Scm) : Prop :=
  scm'.capacity = scm.capacity ∧
    ∀ p n, K p → Placed blocks p n → ∀ x, p ≤ x → x < p + n → scm'.mem x = scm.mem x

/-- The flag of a block is set. -/
def flagged (flag : Bool) (p : Nat) (blocks : List Block) : List Block :=
  blocks.map fun b => if b.ptr = p then { b with live := flag } else b

/-- The free of a block. -/
def release (p : Nat) (blocks : List Block) : List Block :=
  blocks.map fun b => if b.ptr = p then { b with live := false } else b

section
variable {scm scm' scm'' : Scm} {blocks blocks' : List Block} {K K' : Nat → Prop} {p q n k : Nat}

/-- Only one block of a chain has the pointer. -/
theorem Chain.flagged {m : Mem} {a e : Nat} {before after : List Block} {b : Block}
    (h : Chain m a (before ++ b :: after) e) (flag : Bool) :
    Persistent.flagged flag b.ptr (before ++ b :: after) =
      before ++ { b with live := flag } :: after := by
  have others : ∀ c ∈ before ++ after, (if c.ptr = b.ptr then { c with live := flag } else c) =
      c := by
    intro c inside
    apply if_neg
    intro same
    have ordered := h.ordered
    rw [List.pairwise_append, List.pairwise_cons] at ordered
    rcases List.mem_append.mp inside with left | right
    · have := ordered.2.2 c left b (by simp)
      simp only [Block.stop, Block.ptr, headerLen] at *
      omega
    · have := ordered.2.1.1 c right
      simp only [Block.stop, Block.ptr, headerLen] at *
      omega
  simp only [Persistent.flagged, List.map_append, List.map_cons, if_true]
  rw [List.map_congr_left fun c inside => others c (by simp [inside]), List.map_id',
    List.map_congr_left fun c inside => others c (by simp [inside]), List.map_id']

theorem headers_of_chain {m : Mem} {a e fuel : Nat} (h : Chain m a blocks e)
    (enough : blocks.length ≤ fuel) : headers m e fuel a = blocks := by
  induction blocks generalizing a fuel with
  | nil =>
    obtain rfl : a = e := h
    cases fuel <;> simp [headers]
  | cons b bs ih =>
    obtain ⟨rfl, flag, size, rest⟩ := h
    have before : b.hdr < e := by
      have := rest.le
      simp only [Block.stop, headerLen] at this
      omega
    cases fuel with
    | zero => simp at enough
    | succ fuel =>
      have here : (⟨b.hdr, m.load 8 (b.hdr + 2), m.load 2 b.hdr ≠ 0⟩ : Block) = b := by
        rw [flag, size]
        rcases b with ⟨_, _, _ | _⟩ <;> rfl
      simp only [headers, if_pos before, here]
      rw [ih rest (by simpa using enough)]

theorem Scm.Holds.blocks_eq (h : scm.Holds blocks) : scm.blocks = blocks := by
  have := h.chain.length_le
  exact headers_of_chain h.chain (by omega)

theorem Scm.Rep.blocks_eq (h : scm.Rep blocks) : scm.blocks = blocks := h.holds.blocks_eq

theorem Same.refl : Same blocks K scm scm := ⟨rfl, fun _ _ _ _ _ _ _ => rfl⟩

theorem Same.mono (h : Same blocks K scm scm') (le : ∀ p, K' p → K p) :
    Same blocks K' scm scm' :=
  ⟨h.1, fun p n kept => h.2 p n (le p kept)⟩

theorem Same.trans (h : Same blocks K scm scm') (h' : Same blocks' K scm' scm'')
    (mono : ∀ p n, Placed blocks p n → Placed blocks' p n) : Same blocks K scm scm'' := by
  refine ⟨h'.1.trans h.1, fun p n kept placed x ge lt => ?_⟩
  exact (h'.2 p n kept (mono p n placed) x ge lt).trans (h.2 p n kept placed x ge lt)

theorem Scm.Keeps.same (h : scm.Keeps scm' blocks) : Same blocks K scm scm' := by
  refine ⟨h.1, fun p n _ placed x ge lt => ?_⟩
  obtain ⟨b, mem, rfl, le⟩ := placed
  apply h.2 b mem x ge
  simp only [Block.ptr, Block.stop] at *
  omega

theorem Placed.le (h : Placed blocks p n) (le : k ≤ n) : Placed blocks p k := by
  obtain ⟨b, mem, ptr, size⟩ := h
  exact ⟨b, mem, ptr, le.trans size⟩

/-- A block lies inside the mapping, behind its header. -/
theorem Placed.bounds (h : Placed blocks p n) (rep : scm.Rep blocks) :
    virtAddr + 18 ≤ p ∧ p + n ≤ virtAddr + scm.capacity := by
  obtain ⟨b, mem, rfl, le⟩ := h
  have low := rep.hdr_ge mem
  have high := rep.stop_le mem
  simp only [Block.ptr, Block.stop, headerLen] at *
  omega

/-- Blocks with different pointers share no byte. -/
theorem Placed.apart (h : Placed blocks p n) (h' : Placed blocks q k) (rep : scm.Rep blocks)
    (ne : p ≠ q) : p + n ≤ q ∨ q + k ≤ p := by
  obtain ⟨b, mem, rfl, le⟩ := h
  obtain ⟨b', mem', rfl, le'⟩ := h'
  rcases rep.chain.apart mem mem' with rfl | lt | lt
  · exact absurd rfl ne
  · simp only [Block.ptr, Block.stop] at *
    omega
  · simp only [Block.ptr, Block.stop] at *
    omega

theorem mem_allocated : p ∈ allocated blocks ↔ ∃ b ∈ blocks, b.live = true ∧ b.ptr = p := by
  simp [allocated, and_assoc]

theorem Scm.Rep.nodup_allocated (h : scm.Rep blocks) : (allocated blocks).Nodup := by
  refine List.pairwise_map.mpr ((h.chain.ordered.filter _).imp ?_)
  intro b b' le
  simp only [Block.stop, Block.ptr, headerLen] at *
  omega

theorem Placed.nonzero (h : Placed blocks p n) (rep : scm.Rep blocks) : p ≠ 0 := by
  have := (h.bounds rep).1
  simp only [virtAddr] at this
  omega

theorem Placed.lt (h : Placed blocks p n) (rep : scm.Rep blocks) : p < 2 ^ 64 := by
  have mapped := scm.mapped
  have := (h.bounds rep).2
  omega

/-- What an allocation of `n` bytes does when it gives `p`. -/
structure Allocates (scm : Scm) (blocks : List Block) (p n : Nat) (scm' : Scm)
    (blocks' : List Block) : Prop where
  rep : scm'.Rep blocks'
  keeps : scm.Keeps scm' blocks
  placed : Placed blocks' p n
  mono : ∀ q k, Placed blocks q k → Placed blocks' q k
  live : ∀ q, q ∈ allocated blocks' ↔ q = p ∨ q ∈ allocated blocks
  fresh : p ∉ allocated blocks

theorem allocates_extend {b : Block} (rep : scm'.Rep (blocks ++ [b])) (live : b.live = true)
    (keeps : scm.Keeps scm' blocks) :
    Allocates scm blocks b.ptr b.size scm' (blocks ++ [b]) where
  rep := rep
  keeps := keeps
  placed := ⟨b, by simp, rfl, Nat.le_refl _⟩
  mono := fun q k ⟨c, mem, ptr, le⟩ => ⟨c, by simp [mem], ptr, le⟩
  live := by
    intro q
    simp only [allocated, List.filter_append, List.map_append, List.mem_append]
    simp [live, or_comm]
  fresh := by
    intro twice
    obtain ⟨c, mem, _, same⟩ := mem_allocated.mp twice
    have last := (List.pairwise_append.mp rep.chain.ordered).2.2 c mem b (by simp)
    simp only [Block.ptr, Block.stop, headerLen] at same last
    omega

theorem allocates_reuse {before after : List Block} {b : Block}
    (h : scm.Rep (before ++ b :: after)) (free : b.live = false) (large : n ≤ b.size) :
    Allocates scm (before ++ b :: after) b.ptr n
      { scm with mem := scm.mem.store 2 b.hdr true.toNat }
      (before ++ { b with live := true } :: after) where
  rep := (h.mark true).1
  keeps := (h.mark true).2
  placed := ⟨{ b with live := true }, by simp, rfl, large⟩
  mono := by
    rintro q k ⟨c, mem, rfl, le⟩
    simp only [List.mem_append, List.mem_cons] at mem
    rcases mem with mem | rfl | mem
    · exact ⟨c, by simp [mem], rfl, le⟩
    · exact ⟨{ c with live := true }, by simp, rfl, le⟩
    · exact ⟨c, by simp [mem], rfl, le⟩
  live := by
    intro q
    simp only [allocated, List.filter_append, List.map_append, List.mem_append, List.filter_cons,
      free]
    simp only [if_true, List.map_cons, List.mem_cons, Bool.false_eq_true, if_false]
    have ptr : Block.ptr { b with live := true } = b.ptr := rfl
    rw [ptr]
    tauto
  fresh := by
    intro twice
    obtain ⟨c, mem, live, same⟩ := mem_allocated.mp twice
    obtain rfl := h.eq_of_ptr mem (by simp) same
    simp [free] at live

/-- The one block of a chain that `find?` takes is its first fit. -/
theorem FirstFit.find {before after : List Block} {b : Block} (h : FirstFit n before b) :
    (before ++ b :: after).find? (fun b => !b.live && n ≤ b.size) = some b := by
  obtain ⟨free, large, skipped⟩ := h
  refine List.find?_eq_some_iff_append.mpr ⟨by simp [free, large], before, after, rfl, ?_⟩
  intro c mem
  have := skipped c mem
  cases live : c.live with
  | true => simp
  | false => simpa using this live

theorem scmMalloc_grant (h : scm.Rep blocks) (pos : 0 < n) (grant : scm.grant n = some p) :
    ∃ scm' blocks', scmMalloc scm n = .ok (some p, scm') ∧
      Allocates scm blocks p n scm' blocks' := by
  simp only [Scm.grant] at grant
  split_ifs at grant with room full
  · obtain rfl := Option.some.inj grant
    obtain ⟨b, scm', hdr, rfl, live, ok, rep, keeps, _⟩ := scmMalloc_extend h.chain room
    have ptr : scm.addr + scm.utilized + headerLen = b.ptr := by rw [Block.ptr, hdr]
    rw [ptr]
    exact ⟨scm', _, ok, allocates_extend rep live keeps⟩
  · obtain ⟨c, found, rfl⟩ := Option.map_eq_some_iff.mp grant
    rw [h.blocks_eq] at found
    have fit : ∃ b ∈ blocks, b.live = false ∧ n ≤ b.size := by
      have hit := List.find?_some found
      simp only [Bool.and_eq_true, Bool.not_eq_true', decide_eq_true_eq] at hit
      exact ⟨c, List.mem_of_find?_eq_some found, hit⟩
    obtain ⟨before, b, after, rfl, first, ok⟩ := scmMalloc_reuse h pos full fit
    obtain rfl := Option.some.inj (first.find.symm.trans found)
    exact ⟨_, _, ok, allocates_reuse h first.1 first.2.1⟩

theorem scmMalloc_refused (h : scm.Rep blocks) (blank : scm.Blank) (fits : scm.Fits n)
    (refused : scm.grant n = none) : scmMalloc scm n = .ok (none, scm) := by
  simp only [Scm.grant] at refused
  split_ifs at refused with room full
  · rcases scmMalloc_full h blank full with ⟨before, b, after, rfl, first, _⟩ | none_
    · rw [h.blocks_eq, first.find] at refused
      cases refused
    · exact none_
  · exact absurd fits (not_or.mpr ⟨full, room⟩)

@[simp] theorem placed_release : Placed (release q blocks) p n ↔ Placed blocks p n := by
  constructor
  · rintro ⟨_, inside, rfl, le⟩
    obtain ⟨c, mem, rfl⟩ := List.mem_map.mp inside
    refine ⟨c, mem, ?_, ?_⟩
    · split_ifs <;> rfl
    · split_ifs at le <;> exact le
  · rintro ⟨c, mem, rfl, le⟩
    refine ⟨_, List.mem_map_of_mem mem, ?_, ?_⟩
    · split_ifs <;> rfl
    · split_ifs <;> exact le

theorem mem_allocated_release :
    p ∈ allocated (release q blocks) ↔ p ∈ allocated blocks ∧ p ≠ q := by
  simp only [mem_allocated, release, List.mem_map]
  constructor
  · rintro ⟨_, ⟨b, mem, rfl⟩, live, rfl⟩
    by_cases same : b.ptr = q
    · simp [if_pos same] at live
    · simp only [if_neg same] at live ⊢
      exact ⟨⟨b, mem, live, rfl⟩, same⟩
  · rintro ⟨⟨b, mem, live, rfl⟩, ne⟩
    exact ⟨b, ⟨b, mem, if_neg ne⟩, live, rfl⟩

theorem scmFree_release (h : scm.Rep blocks) (placed : Placed blocks p n) :
    (scmFree scm p).Rep (release p blocks) ∧ scm.Keeps (scmFree scm p) blocks := by
  obtain ⟨b, mem, rfl, _⟩ := placed
  obtain ⟨before, after, rfl⟩ := List.append_of_mem mem
  have split : release b.ptr _ = _ := h.chain.flagged false
  rw [split]
  exact scmFree_spec h

/-- A write inside one block. -/
theorem Placed.write (h : Placed blocks p n) (rep : scm.Rep blocks) {i : Nat} {bytes : Bytes}
    (fits : i + bytes.length ≤ n) :
    Scm.Rep { scm with mem := scm.mem.write (p + i) bytes } blocks ∧
      Same blocks (· ≠ p) scm { scm with mem := scm.mem.write (p + i) bytes } := by
  have placed := h
  obtain ⟨b, mem, rfl, le⟩ := h
  have high : b.ptr + i + bytes.length ≤ b.stop := by
    simp only [Block.ptr, Block.stop] at *
    omega
  refine ⟨rep.write mem (by omega) high, rfl, fun q k ne other x ge lt => ?_⟩
  apply Mem.write_outside
  rcases placed.apart other rep (Ne.symm ne) with before | before
  · omega
  · omega

end

end OsProjects.Persistent
