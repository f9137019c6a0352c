import OsProjects.Persistent.HeaderScan

/-!
# The blocks of a region

`Scm.Rep scm blocks` says that the headers of a region form the chain of the given
blocks, and `Scm.Blank` that nothing has been written behind them. An allocation either
extends the chain or marks its first fitting free block, a free marks one block, and no
operation touches a byte inside a block.
-/
namespace OsProjects.Persistent
open OsProjects.Library

structure Scm.Rep (scm : Scm) (blocks : List Block) : Prop where
  chain : Chain scm.mem scm.addr blocks (scm.addr + scm.utilized)
  within : scm.utilized = 0 ∨ 8 + scm.utilized ≤ scm.capacity
  word : scm.mem.load 8 virtAddr = scm.utilized

def Scm.Blank (scm : Scm) : Prop := ∀ a, scm.addr + scm.utilized ≤ a → scm.mem a = 0

section
variable {scm : Scm} {blocks : List Block}

theorem Scm.Rep.holds (h : scm.Rep blocks) : scm.Holds blocks := ⟨h.chain, h.within⟩

theorem Scm.Rep.stop_le (h : scm.Rep blocks) {b : Block} (mem : b ∈ blocks) :
    b.stop ≤ virtAddr + scm.capacity :=
  (h.holds.bounds mem).2.2

theorem Scm.Rep.hdr_ge (h : scm.Rep blocks) {b : Block} (mem : b ∈ blocks) :
    virtAddr + 8 ≤ b.hdr :=
  (h.chain.bounds b mem).1

/-- A block is known by its pointer. -/
theorem Scm.Rep.eq_of_ptr (h : scm.Rep blocks) {b b' : Block} (mem : b ∈ blocks)
    (mem' : b' ∈ blocks) (same : b.ptr = b'.ptr) : b = b' := by
  simp only [Block.ptr] at same
  rcases h.chain.apart mem mem' with eq | lt | lt
  · exact eq
  · simp only [Block.stop, headerLen] at lt
    omega
  · simp only [Block.stop, headerLen] at lt
    omega

/-- What an operation on the region leaves alone: the bytes inside the blocks. -/
def Scm.Keeps (scm scm' : Scm) (blocks : List Block) : Prop :=
  scm'.capacity = scm.capacity ∧
    ∀ b ∈ blocks, ∀ x, b.ptr ≤ x → x < b.stop → scm'.mem x = scm.mem x

/-- Marking a block changes its flag and nothing inside a block. -/
theorem Scm.Rep.mark {before after : List Block} {b : Block}
    (h : scm.Rep (before ++ b :: after)) (flag : Bool) :
    Scm.Rep { scm with mem := scm.mem.store 2 b.hdr flag.toNat }
        (before ++ { b with live := flag } :: after) ∧
      scm.Keeps { scm with mem := scm.mem.store 2 b.hdr flag.toNat } (before ++ b :: after) := by
  have mem : b ∈ before ++ b :: after := by simp
  have low := h.hdr_ge mem
  have high := (h.chain.bounds b mem).2
  simp only [Block.stop, headerLen] at high
  refine ⟨⟨h.chain.store_flag flag, h.within, ?_⟩, rfl, ?_⟩
  · rw [← h.word]
    exact Mem.load_store_of_apart _ (by omega)
  · intro b' mem' x ge lt
    apply Mem.store_outside
    rcases h.chain.apart mem mem' with rfl | apart | apart
    · simp only [Block.ptr, headerLen] at ge
      omega
    · simp only [Block.ptr, Block.stop, headerLen] at ge apart
      omega
    · simp only [Block.stop, headerLen] at lt apart
      omega

theorem Scm.Blank.mark {b : Block} (blank : scm.Blank) (h : scm.Rep blocks) (mem : b ∈ blocks)
    (flag : Bool) : Scm.Blank { scm with mem := scm.mem.store 2 b.hdr flag.toNat } := by
  have high := (h.chain.bounds b mem).2
  simp only [Block.stop, headerLen] at high
  intro x ge
  have ge : scm.addr + scm.utilized ≤ x := ge
  exact (scm.mem.store_outside (by omega)).trans (blank x ge)

/-- The check of `scm_malloc` decides correctly: it rejects the request, or the file has room for
the word, the block and its header. -/
def Scm.Fits (scm : Scm) (n : Nat) : Prop :=
  scm.capacity < (scm.utilized + (headerLen + n) % 2 ^ 64) % 2 ^ 64 ∨
    8 + scm.utilized + headerLen + n ≤ scm.capacity

instance (scm : Scm) (n : Nat) : Decidable (scm.Fits n) := inferInstanceAs (Decidable (_ ∨ _))

/-- With room behind the last block an allocation extends the chain. -/
theorem scmMalloc_extend (chain : Chain scm.mem scm.addr blocks (scm.addr + scm.utilized))
    {n : Nat} (room : 8 + scm.utilized + headerLen + n ≤ scm.capacity) :
    ∃ b scm', b.hdr = scm.addr + scm.utilized ∧ b.size = n ∧ b.live = true ∧
      scmMalloc scm n = .ok (some b.ptr, scm') ∧ scm'.Rep (blocks ++ [b]) ∧
      scm.Keeps scm' blocks ∧ (scm.Blank → scm'.Blank) := by
  have mapped := scm.mapped
  have top : (scm.addr + scm.utilized) % 2 ^ 64 = scm.addr + scm.utilized := by
    simp only [Scm.addr, virtAddr, headerLen] at *
    omega
  have sum : (scm.utilized + (headerLen + n) % 2 ^ 64) % 2 ^ 64 =
      scm.utilized + headerLen + n := by
    simp only [headerLen] at *
    omega
  have enough : ¬ scm.capacity < scm.utilized + headerLen + n := by omega
  simp only [scmMalloc, top, sum, if_neg enough]
  set b : Block := ⟨scm.addr + scm.utilized, n, true⟩ with b_def
  have other : ∀ x, virtAddr + 8 ≤ x → x < scm.addr + scm.utilized ∨
      scm.addr + scm.utilized + headerLen ≤ x →
      (((scm.mem.store 2 (scm.addr + scm.utilized) 1).store 8 (scm.addr + scm.utilized + 2)
        n).store 8 (scm.addr - 8) (scm.utilized + headerLen + n)) x = scm.mem x := by
    intro x low apart
    simp only [Scm.addr, headerLen] at apart ⊢
    rw [Mem.store_outside _ (by omega), Mem.store_outside _ (by omega),
      Mem.store_outside _ (by omega)]
  refine ⟨b, _, rfl, rfl, rfl, rfl, ⟨?_, Or.inr ?_, ?_⟩, ⟨rfl, ?_⟩, ?_⟩
  · refine Chain.append.mpr ⟨scm.addr + scm.utilized, chain.congr ?_, rfl, ?_, ?_, ?_⟩
    · intro b' mem x ge lt
      have bounds := chain.bounds b' mem
      simp only [Block.ptr, Block.stop, Scm.addr] at *
      exact (other x (by omega) (by omega)).symm
    · simp only [b_def, Scm.addr]
      rw [Mem.load_store_of_apart _ (by omega), Mem.load_store_of_apart _ (by omega),
        Mem.load_store_self]
      rfl
    · simp only [b_def, Scm.addr]
      rw [Mem.load_store_of_apart _ (by omega), Mem.load_store_self]
      exact Nat.mod_eq_of_lt (by omega)
    · simp only [Chain, b_def, Block.stop, Scm.addr]
      omega
  · simp only [headerLen] at *
    omega
  · have word : scm.addr - 8 = virtAddr := rfl
    rw [word, Mem.load_store_self]
    exact Nat.mod_eq_of_lt (by simp only [headerLen] at *; omega)
  · intro b' mem x ge lt
    have bounds := chain.bounds b' mem
    simp only [Block.ptr, Block.stop, Scm.addr] at *
    exact other x (by omega) (by omega)
  · intro blank x ge
    have ge : scm.addr + (scm.utilized + headerLen + n) ≤ x := ge
    exact (other x (by simp only [Scm.addr] at *; omega) (by omega)).trans (blank x (by omega))

/-- A full region gives the first free block that is large enough. -/
theorem scmMalloc_reuse (h : scm.Rep blocks) {n : Nat} (pos : 0 < n)
    (full : scm.capacity < (scm.utilized + (headerLen + n) % 2 ^ 64) % 2 ^ 64)
    (fit : ∃ b ∈ blocks, b.live = false ∧ n ≤ b.size) :
    ∃ before b after, blocks = before ++ b :: after ∧ FirstFit n before b ∧
      scmMalloc scm n =
        .ok (some b.ptr, { scm with mem := scm.mem.store 2 b.hdr true.toNat }) := by
  simp only [scmMalloc, if_pos full]
  rcases firstFit_or blocks n with ⟨before, b, after, rfl, first⟩ | none_
  · have size := first.2.1
    exact ⟨before, b, after, rfl, first, (scan_first h.holds first (by omega)).1⟩
  · obtain ⟨b, mem, free, large⟩ := fit
    exact absurd large (Nat.not_le.mpr (none_ b mem free))

/-- A full region gives its first fitting free block or nothing. -/
theorem scmMalloc_full (h : scm.Rep blocks) (blank : scm.Blank) {n : Nat}
    (full : scm.capacity < (scm.utilized + (headerLen + n) % 2 ^ 64) % 2 ^ 64) :
    (∃ before b after, blocks = before ++ b :: after ∧ FirstFit n before b ∧ scmMalloc scm n =
      .ok (some b.ptr, { scm with mem := scm.mem.store 2 b.hdr true.toNat })) ∨
      scmMalloc scm n = .ok (none, scm) := by
  have misses : 0 < n ∨ virtAddr + scm.capacity ≤ scm.addr + scm.utilized + headerLen := by
    simp only [headerLen, Scm.addr] at full ⊢
    omega
  simp only [scmMalloc, if_pos full]
  rcases firstFit_or blocks n with ⟨before, b, after, rfl, first⟩ | none_
  · by_cases last : b.size = 0 ∧ virtAddr + scm.capacity ≤ b.stop
    · exact Or.inr (scan_last h.holds first last.1 last.2)
    · exact Or.inl ⟨before, b, after, rfl, first, (scan_first h.holds first (by omega)).1⟩
  · rcases Nat.lt_or_ge (8 + scm.utilized + headerLen) scm.capacity with room | tight
    · obtain ⟨fuel, enough, beyond, _⟩ := scan_top h.holds none_ room
      refine Or.inr (beyond.trans (scan_zero ?_ blank misses enough))
      simp only [Scm.addr]
      omega
    · exact Or.inr (scan_ends h.holds none_ tight).1

/-- An allocation fails, reuses the first fitting free block, or extends the chain. -/
theorem scmMalloc_spec (h : scm.Rep blocks) (blank : scm.Blank) {n : Nat} (fits : scm.Fits n) :
    scmMalloc scm n = .ok (none, scm) ∨
      (∃ before b after scm', blocks = before ++ b :: after ∧ FirstFit n before b ∧
        scmMalloc scm n = .ok (some b.ptr, scm') ∧
        scm'.Rep (before ++ { b with live := true } :: after) ∧ scm'.Blank) ∨
      ∃ b scm', b.size = n ∧ b.live = true ∧ scmMalloc scm n = .ok (some b.ptr, scm') ∧
        scm'.Rep (blocks ++ [b]) ∧ scm'.Blank := by
  by_cases full : scm.capacity < (scm.utilized + (headerLen + n) % 2 ^ 64) % 2 ^ 64
  · rcases scmMalloc_full h blank full with ⟨before, b, after, rfl, fit, found⟩ | none_
    · obtain ⟨rep, _⟩ := h.mark true
      exact Or.inr (Or.inl ⟨before, b, after, _, rfl, fit, found, rep,
        blank.mark h (by simp) true⟩)
    · exact Or.inl none_
  · obtain ⟨b, scm', _, size, live, ok, rep, _, clean⟩ :=
      scmMalloc_extend h.chain (fits.resolve_left full)
    exact Or.inr (Or.inr ⟨b, scm', size, live, ok, rep, clean blank⟩)

theorem scmMalloc_blank {scm' : Scm} (h : scm.Rep blocks) (blank : scm.Blank) {n p : Nat}
    (fits : scm.Fits n) (ok : scmMalloc scm n = .ok (some p, scm')) : scm'.Blank := by
  rcases scmMalloc_spec h blank fits with none_ | ⟨_, _, _, _, _, _, ok', _, blank'⟩ |
    ⟨_, _, _, _, ok', _, blank'⟩
  · cases none_.symm.trans ok
  · cases ok'.symm.trans ok
    exact blank'
  · cases ok'.symm.trans ok
    exact blank'

/-- Where the check does not decide correctly, the block it grants ends behind the file. -/
theorem scmMalloc_past (h : scm.Rep blocks) {n : Nat} (unfit : ¬ scm.Fits n) :
    ∃ p scm', scmMalloc scm n = .ok (some p, scm') ∧ virtAddr + scm.capacity < p + n := by
  have mapped := scm.mapped
  have within := h.within
  obtain ⟨granted, room⟩ := not_or.mp unfit
  have top : (scm.addr + scm.utilized) % 2 ^ 64 = scm.addr + scm.utilized := by
    simp only [Scm.addr, virtAddr] at *
    omega
  refine ⟨scm.addr + scm.utilized + headerLen, _,
    by simp only [scmMalloc, top, if_neg granted]; rfl, ?_⟩
  simp only [Scm.addr, headerLen] at *
  omega

theorem scmFree_spec {before after : List Block} {b : Block} (h : scm.Rep (before ++ b :: after)) :
    (scmFree scm b.ptr).Rep (before ++ { b with live := false } :: after) ∧
      scm.Keeps (scmFree scm b.ptr) (before ++ b :: after) := by
  have hdr : b.ptr - headerLen = b.hdr := by simp [Block.ptr]
  simp only [scmFree, hdr]
  exact h.mark false

theorem Scm.Rep.write {b : Block} (h : scm.Rep blocks) (mem : b ∈ blocks) {a : Nat} {bs : Bytes}
    (low : b.ptr ≤ a) (high : a + bs.length ≤ b.stop) :
    Scm.Rep { scm with mem := scm.mem.write a bs } blocks := by
  have ge := h.hdr_ge mem
  have := low
  simp only [Block.ptr] at this
  refine ⟨h.chain.write mem low high, h.within, ?_⟩
  rw [← h.word]
  refine Mem.load_congr fun x _ lt => scm.mem.write_outside ?_
  omega

theorem Scm.Blank.write {b : Block} (blank : scm.Blank) (h : scm.Rep blocks) (mem : b ∈ blocks)
    {a : Nat} {bs : Bytes} (high : a + bs.length ≤ b.stop) :
    Scm.Blank { scm with mem := scm.mem.write a bs } := by
  have stop := (h.chain.bounds b mem).2
  intro x ge
  have ge : scm.addr + scm.utilized ≤ x := ge
  exact (scm.mem.write_outside (by omega)).trans (blank x ge)

/-- A region without utilized bytes has no block. -/
theorem Scm.Rep.empty (utilized : scm.utilized = 0) (word : scm.mem.load 8 virtAddr = 0) :
    scm.Rep [] := by
  refine ⟨?_, Or.inl utilized, word.trans utilized.symm⟩
  rw [utilized]
  rfl

theorem scmOpen_rep (capacity : Nat) (mapped : virtAddr + capacity < 2 ^ 64) (truncate : Bool) :
    (scmOpen (fun _ => 0) capacity mapped truncate).Rep [] ∧
      (scmOpen (fun _ => 0) capacity mapped truncate).Blank := by
  have zero : ∀ a, (scmOpen (fun _ => 0) capacity mapped truncate).mem a = 0 := by
    intro a
    simp [scmOpen]
  refine ⟨Scm.Rep.empty ?_ (Mem.load_zeros fun x _ _ => zero x), fun a _ => zero a⟩
  simp only [scmOpen]
  split_ifs
  · rfl
  · exact Mem.load_zeros fun x _ _ => zero x

end

end OsProjects.Persistent
