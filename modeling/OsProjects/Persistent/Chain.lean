import OsProjects.Persistent.Scm

/-!
# Chains of headers

A block is known by the address of its header, and `Chain` says that a walk over the headers meets
the given blocks. The blocks of a chain stand in the order of their addresses and do not overlap.
-/
namespace OsProjects.Persistent
open OsProjects.Library

/-- A block by the address of its header. -/
structure Block where
  hdr : Nat
  size : Nat
  live : Bool
  deriving DecidableEq, Repr

def Block.ptr (b : Block) : Nat := b.hdr + headerLen

/-- The address behind the block. -/
def Block.stop (b : Block) : Nat := b.hdr + headerLen + b.size

/-- Walking the headers from the first address meets the blocks and lands on the second. -/
def Chain (m : Mem) : Nat → List Block → Nat → Prop
  | a, [], e => a = e
  | a, b :: bs, e =>
    b.hdr = a ∧ m.load 2 a = b.live.toNat ∧ m.load 8 (a + 2) = b.size ∧ Chain m b.stop bs e

section
variable {m m' : Mem} {a e : Nat} {bs bs' : List Block} {b : Block}

theorem Chain.append : Chain m a (bs ++ bs') e ↔ ∃ k, Chain m a bs k ∧ Chain m k bs' e := by
  induction bs generalizing a with
  | nil => simp [Chain]
  | cons b bs ih => simp [Chain, ih, and_assoc]

theorem Chain.le (h : Chain m a bs e) : a ≤ e := by
  induction bs generalizing a with
  | nil => exact Nat.le_of_eq h
  | cons b bs ih =>
    obtain ⟨rfl, _, _, rest⟩ := h
    have := ih rest
    simp only [Block.stop] at this
    omega

theorem Chain.bounds (h : Chain m a bs e) : ∀ b ∈ bs, a ≤ b.hdr ∧ b.stop ≤ e := by
  induction bs generalizing a with
  | nil => simp
  | cons b bs ih =>
    obtain ⟨rfl, _, _, rest⟩ := h
    have le := rest.le
    intro b' mem
    rcases List.mem_cons.mp mem with rfl | mem
    · exact ⟨Nat.le_refl _, le⟩
    · have := ih rest b' mem
      simp only [Block.stop] at this ⊢
      omega

/-- The blocks of a chain stand in the order of their addresses. -/
theorem Chain.ordered (h : Chain m a bs e) : bs.Pairwise fun b b' => b.stop ≤ b'.hdr := by
  induction bs generalizing a with
  | nil => exact .nil
  | cons b bs ih =>
    obtain ⟨rfl, _, _, rest⟩ := h
    exact List.pairwise_cons.mpr ⟨fun b' mem => (rest.bounds b' mem).1, ih rest⟩

/-- Two blocks of a chain do not overlap. -/
theorem Chain.apart (h : Chain m a bs e) {b b' : Block} (mem : b ∈ bs) (mem' : b' ∈ bs) :
    b = b' ∨ b.stop ≤ b'.hdr ∨ b'.stop ≤ b.hdr := by
  induction bs generalizing a with
  | nil => simp at mem
  | cons c bs ih =>
    obtain ⟨rfl, _, _, rest⟩ := h
    rcases List.mem_cons.mp mem with rfl | inside
    · rcases List.mem_cons.mp mem' with rfl | inside'
      · exact Or.inl rfl
      · exact Or.inr (Or.inl (rest.bounds b' inside').1)
    · rcases List.mem_cons.mp mem' with rfl | inside'
      · exact Or.inr (Or.inr (rest.bounds b inside).1)
      · exact ih rest inside inside'

/-- A chain depends on its headers only. -/
theorem Chain.congr (h : Chain m a bs e)
    (same : ∀ b ∈ bs, ∀ x, b.hdr ≤ x → x < b.ptr → m x = m' x) : Chain m' a bs e := by
  induction bs generalizing a with
  | nil => exact h
  | cons b bs ih =>
    obtain ⟨rfl, flag, size, rest⟩ := h
    obtain ⟨here, later⟩ := List.forall_mem_cons.mp same
    simp only [Block.ptr, headerLen] at here
    refine ⟨rfl, ?_, ?_, ih rest later⟩
    · rw [← flag]
      exact (Mem.load_congr fun x ge lt => here x ge (by omega)).symm
    · rw [← size]
      exact (Mem.load_congr fun x ge lt => here x (by omega) (by omega)).symm

/-- Bytes written inside a block leave the headers alone. -/
theorem Chain.write (h : Chain m a bs e) (mem : b ∈ bs) {x : Nat} {bytes : Bytes}
    (low : b.ptr ≤ x) (high : x + bytes.length ≤ b.stop) : Chain (m.write x bytes) a bs e := by
  refine h.congr ?_
  intro b' mem' y ge lt
  refine (m.write_outside ?_).symm
  rcases h.apart mem mem' with rfl | apart | apart
  · omega
  · omega
  · simp only [Block.ptr, Block.stop] at *
    omega

/-- Storing a flag changes one block of the chain. -/
theorem Chain.store_flag (h : Chain m a (bs ++ b :: bs') e) (flag : Bool) :
    Chain (m.store 2 b.hdr flag.toNat) a (bs ++ { b with live := flag } :: bs') e := by
  obtain ⟨k, before, rfl, _, size, rest⟩ := Chain.append.mp h
  refine Chain.append.mpr ⟨b.hdr, before.congr ?_, rfl, ?_, ?_, rest.congr ?_⟩
  · intro b' mem x _ lt
    have := (before.bounds b' mem).2
    simp only [Block.ptr, Block.stop] at lt this
    exact (m.store_outside (by omega)).symm
  · rw [Mem.load_store_self]
    cases flag <;> rfl
  · rw [Mem.load_store_of_apart _ (by omega)]
    exact size
  · intro b' mem x ge _
    have := (rest.bounds b' mem).1
    simp only [Block.stop, headerLen] at this
    exact (m.store_outside (by omega)).symm

theorem Chain.length_le (h : Chain m a bs e) :
    a + 10 * bs.length ≤ e := by
  induction bs generalizing a with
  | nil => exact Nat.le_of_eq h
  | cons b bs ih =>
    obtain ⟨rfl, _, _, rest⟩ := h
    have := ih rest
    simp only [Block.stop, headerLen, List.length_cons] at *
    omega

/-- The blocks of a chain in front of an address, and the place where they end. -/
theorem Chain.early (chain : Chain m a bs e) (limit : Nat) (le : limit ≤ e) :
    ∃ before after k, bs = before ++ after ∧ Chain m a before k ∧ limit ≤ k ∧ k ≤ e ∧
      ∀ b ∈ before, b.hdr < limit := by
  induction bs generalizing a with
  | nil =>
    obtain rfl : a = e := chain
    exact ⟨[], [], a, rfl, rfl, le, Nat.le_refl a, by simp⟩
  | cons b bs ih =>
    have upper := chain.le
    obtain ⟨rfl, flag, size, rest⟩ := chain
    by_cases early : b.hdr < limit
    · obtain ⟨before, after, k, rfl, chain, past, high, all⟩ := ih rest
      exact ⟨b :: before, after, k, rfl, ⟨rfl, flag, size, chain⟩, past, high,
        List.forall_mem_cons.mpr ⟨early, all⟩⟩
    · exact ⟨[], b :: bs, b.hdr, rfl, rfl, Nat.le_of_not_lt early, upper, by simp⟩

end

end OsProjects.Persistent
