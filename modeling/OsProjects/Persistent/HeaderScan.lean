import OsProjects.Persistent.Chain

/-!
# The scan over the headers

`scm_malloc` walks over the headers where the file is full. Along a chain the scan passes the blocks
that do not fit and takes the first one that does; behind the chain it goes on until the end of the
file.
-/
namespace OsProjects.Persistent
open OsProjects.Library

/-- The addresses at which `scan` reads a header. -/
def visited (scm : Scm) (n : Nat) : Nat → Nat → List Nat
  | 0, _ => []
  | fuel + 1, p =>
    if p < scm.addr + scm.capacity - 2 - 8 - 8 then
      if p < virtAddr then [p]
      else
        let mallocd := scm.mem.load 8 (p + 2)
        if scm.mem.load 2 p = 0 ∧ n ≤ mallocd then [p]
        else p :: visited scm n fuel ((p + headerLen + mallocd) % 2 ^ 64)
    else []

/-- The headers of a region are the chain of the carved blocks, whatever its first word is. -/
structure Scm.Holds (scm : Scm) (carved : List Block) : Prop where
  chain : Chain scm.mem scm.addr carved (scm.addr + scm.utilized)
  within : scm.utilized = 0 ∨ 8 + scm.utilized ≤ scm.capacity

/-- A free block that the scan takes, with the blocks it has passed. -/
def FirstFit (n : Nat) (before : List Block) (b : Block) : Prop :=
  b.live = false ∧ n ≤ b.size ∧ ∀ b' ∈ before, b'.live = false → b'.size < n

section
variable {scm : Scm} {carved before after : List Block} {b : Block} {n p k : Nat}

theorem firstFit_or (carved : List Block) (n : Nat) :
    (∃ before b after, carved = before ++ b :: after ∧ FirstFit n before b) ∨
      ∀ b ∈ carved, b.live = false → b.size < n := by
  induction carved with
  | nil => exact .inr (by simp)
  | cons c carved ih =>
    by_cases fit : c.live = false ∧ n ≤ c.size
    · exact .inl ⟨[], c, carved, rfl, fit.1, fit.2, by simp⟩
    · have unfit : c.live = false → c.size < n := fun free =>
        Nat.lt_of_not_le fun large => fit ⟨free, large⟩
      rcases ih with ⟨before, b, after, rfl, free, large, skipped⟩ | none_
      · exact .inl ⟨c :: before, b, after, rfl, free, large,
          List.forall_mem_cons.mpr ⟨unfit, skipped⟩⟩
      · exact .inr (List.forall_mem_cons.mpr ⟨unfit, none_⟩)

theorem Scm.Holds.top_lt (h : scm.Holds carved) : scm.addr + scm.utilized < 2 ^ 64 := by
  have within := h.within
  have mapped := scm.mapped
  simp only [Scm.addr, virtAddr] at *
  omega

theorem Scm.Holds.bounds (h : scm.Holds carved) (mem : b ∈ carved) :
    scm.addr ≤ b.hdr ∧ b.stop ≤ scm.addr + scm.utilized ∧ b.stop ≤ virtAddr + scm.capacity := by
  obtain ⟨low, high⟩ := h.chain.bounds b mem
  have within := h.within
  refine ⟨low, high, ?_⟩
  simp only [Block.stop, headerLen, Scm.addr] at *
  omega

/-- The scan passes blocks that do not fit. -/
theorem scan_pass (fuel : Nat) (chain : Chain scm.mem p before k) (low : virtAddr ≤ p)
    (high : k < 2 ^ 64) (unfit : ∀ b ∈ before, b.live = false → b.size < n)
    (early : ∀ b ∈ before, b.hdr < scm.addr + scm.capacity - 2 - 8 - 8) :
    scan scm n (fuel + before.length) p = scan scm n fuel k ∧
      visited scm n (fuel + before.length) p = before.map Block.hdr ++ visited scm n fuel k := by
  induction before generalizing p with
  | nil =>
    obtain rfl : p = k := chain
    exact ⟨rfl, rfl⟩
  | cons b before ih =>
    obtain ⟨rfl, flag, size, rest⟩ := chain
    obtain ⟨here, unfit⟩ := List.forall_mem_cons.mp unfit
    obtain ⟨more, early⟩ := List.forall_mem_cons.mp early
    have le := rest.le
    have wild : ¬ b.hdr < virtAddr := by omega
    have next : (b.hdr + headerLen + b.size) % 2 ^ 64 = b.stop := by
      simp only [Block.stop] at le ⊢
      omega
    have passed : ¬ (b.live.toNat = 0 ∧ n ≤ b.size) := by
      rintro ⟨zero, large⟩
      have free : b.live = false := by cases live : b.live <;> simp [live] at zero ⊢
      exact absurd (here free) (Nat.not_lt.mpr large)
    have low : virtAddr ≤ b.stop := by
      simp only [Block.stop]
      omega
    obtain ⟨scans, visits⟩ := ih rest low unfit early
    rw [List.length_cons, ← Nat.add_assoc, scan, visited, if_pos more, if_pos more, if_neg wild,
      if_neg wild, flag, size]
    simp only [if_neg passed, next]
    exact ⟨scans, by rw [visits, List.map_cons, List.cons_append]⟩

/-- The scan of an allocation has the fuel to pass carved blocks. -/
theorem scan_reach (h : scm.Holds (before ++ after)) (passed : Chain scm.mem scm.addr before k)
    (high : k ≤ scm.addr + scm.utilized) (unfit : ∀ b ∈ before, b.live = false → b.size < n)
    (early : ∀ b ∈ before, b.hdr < scm.addr + scm.capacity - 2 - 8 - 8) :
    ∃ fuel, scm.capacity = fuel + before.length ∧
      scan scm n (scm.capacity + 1) scm.addr = scan scm n (fuel + 1) k ∧
      visited scm n (scm.capacity + 1) scm.addr =
        before.map Block.hdr ++ visited scm n (fuel + 1) k := by
  have length := h.chain.length_le
  have within := h.within
  rw [List.length_append] at length
  obtain ⟨fuel, eq⟩ : ∃ fuel, scm.capacity = fuel + before.length :=
    ⟨scm.capacity - before.length, by omega⟩
  obtain ⟨scans, visits⟩ := scan_pass (n := n) (fuel + 1) passed
    (by simp only [Scm.addr]; omega) (high.trans_lt h.top_lt) unfit early
  have split : scm.capacity + 1 = fuel + 1 + before.length := by omega
  exact ⟨fuel, eq, by rw [split, scans], by rw [split, visits]⟩

/-- The scan comes to a block behind others that do not fit. -/
theorem scan_block (h : scm.Holds (before ++ b :: after))
    (unfit : ∀ b ∈ before, b.live = false → b.size < n) :
    ∃ fuel, scan scm n (scm.capacity + 1) scm.addr = scan scm n (fuel + 1) b.hdr ∧
      visited scm n (scm.capacity + 1) scm.addr =
        before.map Block.hdr ++ visited scm n (fuel + 1) b.hdr := by
  obtain ⟨k, passed, rfl, _⟩ := Chain.append.mp h.chain
  obtain ⟨_, top, high⟩ := h.bounds (b := b) (by simp)
  obtain ⟨fuel, _, scans, visits⟩ := scan_reach h passed (by simp only [Block.stop] at top; omega) unfit
    fun c mem => by
      have := (passed.bounds c mem).2
      simp only [Block.stop, headerLen, Scm.addr] at *
      omega
  exact ⟨fuel, scans, visits⟩

/-- The scan finds the first fitting block, unless that is an empty one that ends with the file. -/
theorem scan_first (h : scm.Holds (before ++ b :: after)) (fit : FirstFit n before b)
    (early : b.size = 0 → b.stop < virtAddr + scm.capacity) :
    scan scm n (scm.capacity + 1) scm.addr =
        .ok (some b.ptr, { scm with mem := scm.mem.store 2 b.hdr true.toNat }) ∧
      visited scm n (scm.capacity + 1) scm.addr = (before ++ [b]).map Block.hdr := by
  obtain ⟨free, large, skipped⟩ := fit
  obtain ⟨k, _, rfl, flag, size, _⟩ := Chain.append.mp h.chain
  obtain ⟨low, _, high⟩ := h.bounds (b := b) (by simp)
  obtain ⟨fuel, scans, visits⟩ := scan_block h skipped
  have more : b.hdr < scm.addr + scm.capacity - 2 - 8 - 8 := by
    simp only [Block.stop, headerLen, Scm.addr] at *
    omega
  have wild : ¬ b.hdr < virtAddr := by
    simp only [Scm.addr] at low
    omega
  have suits : b.live.toNat = 0 ∧ n ≤ b.size := ⟨by rw [free]; rfl, large⟩
  rw [scans, visits, scan, visited, if_pos more, if_pos more, if_neg wild, if_neg wild, flag, size]
  simp only [if_pos suits, List.map_append, List.map_cons, List.map_nil]
  exact ⟨rfl, trivial⟩

/-- An empty block that ends with the file is not looked at. -/
theorem scan_last (h : scm.Holds (before ++ b :: after)) (fit : FirstFit n before b)
    (empty : b.size = 0) (last : virtAddr + scm.capacity ≤ b.stop) :
    scan scm n (scm.capacity + 1) scm.addr = .ok (none, scm) := by
  obtain ⟨fuel, scans, _⟩ := scan_block h fit.2.2
  rw [scans, scan, if_neg]
  simp only [Block.stop, headerLen, Scm.addr] at *
  omega

/-- Without a fitting block the scan ends with the carved ones where no header has room behind. -/
theorem scan_ends (h : scm.Holds carved) (none_ : ∀ b ∈ carved, b.live = false → b.size < n)
    (tight : scm.capacity ≤ 8 + scm.utilized + headerLen) :
    scan scm n (scm.capacity + 1) scm.addr = .ok (none, scm) ∧
      ∀ p ∈ visited scm n (scm.capacity + 1) scm.addr,
        p + headerLen ≤ scm.addr + scm.utilized := by
  obtain ⟨before, after, k, rfl, passed, past, high, early⟩ :=
    h.chain.early (scm.addr + scm.capacity - 2 - 8 - 8) (by
      simp only [headerLen, Scm.addr] at *
      omega)
  obtain ⟨fuel, _, scans, visits⟩ := scan_reach h passed high
    (fun b mem => none_ b (List.mem_append_left after mem)) early
  have done : ¬ k < scm.addr + scm.capacity - 2 - 8 - 8 := Nat.not_lt.mpr past
  rw [scans, visits, scan, visited, if_neg done, if_neg done, List.append_nil]
  refine ⟨rfl, fun p mem => ?_⟩
  obtain ⟨b, inside, rfl⟩ := List.mem_map.mp mem
  have := (passed.bounds b inside).2
  simp only [Block.stop] at this
  omega

/-- Else it goes on behind the utilized area. -/
theorem scan_top (h : scm.Holds carved) (none_ : ∀ b ∈ carved, b.live = false → b.size < n)
    (room : 8 + scm.utilized + headerLen < scm.capacity) :
    ∃ fuel, scm.addr + scm.capacity ≤ scm.addr + scm.utilized + fuel ∧
      scan scm n (scm.capacity + 1) scm.addr = scan scm n (fuel + 1) (scm.addr + scm.utilized) ∧
      visited scm n (scm.capacity + 1) scm.addr =
        carved.map Block.hdr ++ visited scm n (fuel + 1) (scm.addr + scm.utilized) := by
  have length := h.chain.length_le
  have all : scm.Holds (carved ++ []) := by rwa [List.append_nil]
  obtain ⟨fuel, eq, scans, visits⟩ := scan_reach all h.chain (Nat.le_refl _) none_ fun b mem => by
    have := (h.bounds mem).2.1
    simp only [Block.stop, headerLen, Scm.addr] at *
    omega
  exact ⟨fuel, by omega, scans, visits⟩

/-- The bytes there are taken as a header. -/
theorem scan_behind (h : scm.Holds carved) (none_ : ∀ b ∈ carved, b.live = false → b.size < n)
    (room : 8 + scm.utilized + headerLen < scm.capacity) :
    scm.addr + scm.utilized ∈ visited scm n (scm.capacity + 1) scm.addr := by
  obtain ⟨fuel, _, _, visits⟩ := scan_top h none_ room
  have more : scm.addr + scm.utilized < scm.addr + scm.capacity - 2 - 8 - 8 := by
    simp only [headerLen, Scm.addr] at *
    omega
  have wild : ¬ scm.addr + scm.utilized < virtAddr := by
    simp only [Scm.addr]
    omega
  rw [visits, visited, if_pos more, if_neg wild]
  refine List.mem_append_right _ ?_
  dsimp only
  split_ifs <;> exact List.mem_cons_self

/-- Behind the chain the scan meets zeros only and finds nothing. -/
theorem scan_zero {fuel : Nat} (low : virtAddr ≤ p) (zero : ∀ x, p ≤ x → scm.mem x = 0)
    (misses : 0 < n ∨ virtAddr + scm.capacity ≤ p + headerLen)
    (enough : scm.addr + scm.capacity ≤ p + fuel) :
    scan scm n (fuel + 1) p = .ok (none, scm) := by
  have mapped := scm.mapped
  induction fuel generalizing p with
  | zero => rw [scan, if_neg (by omega)]
  | succ fuel ih =>
    rw [scan]
    split_ifs with more wild
    · omega
    · have size : scm.mem.load 8 (p + 2) = 0 := Mem.load_zeros fun x ge _ => zero x (by omega)
      have short : ¬ n ≤ 0 := by
        simp only [Scm.addr, headerLen] at more misses
        omega
      have next : (p + headerLen + 0) % 2 ^ 64 = p + headerLen := by
        simp only [Scm.addr, headerLen] at more ⊢
        omega
      simp only [size, short, and_false, if_false, next]
      simp only [Scm.addr, headerLen] at *
      exact ih (by omega) (fun x ge => zero x (by omega)) (by omega) (by omega)
    · rfl

end

end OsProjects.Persistent
