import OsProjects.Persistent.Sessions

/-!
# The fallback scan

Where a request does not fit behind the utilized area, `scm_malloc` walks over the headers. The walk
is bounded by the capacity, so without a fitting block it goes on into bytes that are no header. A
`Region` keeps the blocks that were carved since the last truncation beside the bytes, over
allocations, frees, stores and reopenings; in every run whose scans end among them, the headers are
those blocks and a fallback gives the first fitting one.
-/
namespace OsProjects.Persistent
open OsProjects.Library

/-- The first carved block that is free and large enough is given and only it is marked, or nothing
is given where there is none, and no byte behind the utilized area is read as a header. -/
structure Scm.Serves (scm : Scm) (carved : List Block) (n : Nat) : Prop where
  result : (∃ before b after, carved = before ++ b :: after ∧ FirstFit n before b ∧
      scmMalloc scm n =
        .ok (some b.ptr, { scm with mem := scm.mem.store 2 b.hdr true.toNat })) ∨
    (∀ b ∈ carved, b.live = false → b.size < n) ∧ scmMalloc scm n = .ok (none, scm)
  inside : ∀ p ∈ visited scm n (scm.capacity + 1) scm.addr,
    p + headerLen ≤ scm.addr + scm.utilized

/-- A carved block is free and large enough and is not an empty one that ends with the file, or none
is and behind the utilized area there is no room for a header and a byte. -/
def Scm.Bounds (scm : Scm) (carved : List Block) (n : Nat) : Prop :=
  (∃ b ∈ carved, b.live = false ∧ n ≤ b.size ∧ (b.size = 0 → b.stop < virtAddr + scm.capacity)) ∨
    (∀ b ∈ carved, b.live = false → b.size < n) ∧ scm.capacity ≤ 8 + scm.utilized + headerLen

section
variable {scm : Scm} {carved : List Block} {n : Nat}

/-- A request that passes the size check gets a pointer behind the carved blocks. -/
theorem Scm.Serves.full (serves : scm.Serves carved n) (h : scm.Holds carved) : scm.Full n := by
  by_contra granted
  have result := serves.result
  have top : (scm.addr + scm.utilized) % 2 ^ 64 = scm.addr + scm.utilized :=
    Nat.mod_eq_of_lt h.top_lt
  simp only [scmMalloc, if_neg (show ¬ scm.capacity < _ from granted), top] at result
  rcases result with ⟨before, b, after, rfl, _, eq⟩ | ⟨_, eq⟩
  · have stop := (h.bounds (b := b) (by simp)).2.1
    have ptr : scm.addr + scm.utilized + headerLen = b.ptr :=
      Option.some.inj (congrArg Prod.fst (Except.ok.inj eq))
    simp only [Block.stop, Block.ptr, headerLen] at stop ptr
    omega
  · simp at eq

theorem Scm.Serves.bounds (serves : scm.Serves carved n) (h : scm.Holds carved) :
    scm.Bounds carved n := by
  have scans : scmMalloc scm n = scan scm n (scm.capacity + 1) scm.addr := if_pos (serves.full h)
  rcases serves.result with ⟨before, b, after, rfl, fit, eq⟩ | ⟨none_, _⟩
  · refine .inl ⟨b, by simp, fit.1, fit.2.1, fun empty => ?_⟩
    by_contra last
    rw [scans, scan_last h fit empty (Nat.le_of_not_lt last)] at eq
    simp at eq
  · refine .inr ⟨none_, ?_⟩
    by_contra room
    have behind := serves.inside _ (scan_behind h none_ (Nat.lt_of_not_le room))
    simp only [headerLen] at behind
    omega

/-- The first fitting block is looked at if any is. -/
theorem Scm.Bounds.early {before after : List Block} {b : Block}
    (bounds : scm.Bounds (before ++ b :: after) n) (h : scm.Holds (before ++ b :: after))
    (fit : FirstFit n before b) (empty : b.size = 0) : b.stop < virtAddr + scm.capacity := by
  rcases bounds with ⟨c, mem, free, large, early⟩ | ⟨none_, _⟩
  · by_contra last
    have top := (h.bounds mem).2.2
    rcases List.mem_append.mp mem with left | right
    · exact absurd (fit.2.2 c left free) (Nat.not_lt.mpr large)
    · rcases List.mem_cons.mp right with rfl | right
      · exact last (early empty)
      · -- nothing stands behind a block that ends with the file
        have ordered := (List.pairwise_append.mp h.chain.ordered).2.1
        have := List.rel_of_pairwise_cons ordered right
        simp only [Block.stop, headerLen] at *
        omega
  · exact absurd (none_ b (by simp) fit.1) (Nat.not_lt.mpr fit.2.1)

theorem Scm.Bounds.serves (bounds : scm.Bounds carved n) (h : scm.Holds carved) (full : scm.Full n) :
    scm.Serves carved n := by
  have scans : scmMalloc scm n = scan scm n (scm.capacity + 1) scm.addr := if_pos full
  rcases firstFit_or carved n with ⟨before, b, after, rfl, fit⟩ | none_
  · obtain ⟨found, visits⟩ := scan_first h fit (bounds.early h fit)
    refine ⟨.inl ⟨before, b, after, rfl, fit, scans.trans found⟩, fun p mem => ?_⟩
    rw [visits] at mem
    obtain ⟨c, inside, rfl⟩ := List.mem_map.mp mem
    have carved : c ∈ before ++ b :: after := by
      rw [List.append_cons]
      exact List.mem_append_left after inside
    have stop := (h.bounds carved).2.1
    simp only [Block.stop] at stop
    omega
  · have tight : scm.capacity ≤ 8 + scm.utilized + headerLen := by
      rcases bounds with ⟨b, mem, free, large, _⟩ | ⟨_, tight⟩
      · exact absurd (none_ b mem free) (Nat.not_lt.mpr large)
      · exact tight
    obtain ⟨ends, inside⟩ := scan_ends h none_ tight
    exact ⟨.inr ⟨none_, scans.trans ends⟩, inside⟩

/-- The fallback serves a request if and only if the size check rejects it and the scan ends among the
carved blocks. -/
theorem serves_iff (h : scm.Holds carved) :
    scm.Serves carved n ↔ scm.Full n ∧ scm.Bounds carved n :=
  ⟨fun serves => ⟨serves.full h, serves.bounds h⟩, fun ⟨full, bounds⟩ => bounds.serves h full⟩

end

structure Region where
  scm : Scm
  carved : List Block

inductive Event where
  | call (c : Call)
  /-- `scm_close` and `scm_open`. -/
  | reopen (truncate : Bool)

/-- A file with any content, truncated. -/
def Region.start (file : Bytes) (mapped : virtAddr + file.length < 2 ^ 64) : Region :=
  ⟨scmOpen (fun a => file.getD a 0) file.length mapped true, []⟩

/-- A request either carves a block behind the others or marks the one that it gives. -/
def Region.carve (r : Region) (n : Nat) (result : Option Nat) : List Block :=
  if r.scm.Full n then
    match result with
    | none => r.carved
    | some p => flagged true p r.carved
  else r.carved ++ [⟨r.scm.addr + r.scm.utilized, n, true⟩]

def Region.step (r : Region) : Event → Except Fault Region
  | .call (.malloc n) => (scmMalloc r.scm n).map fun (result, scm) => ⟨scm, r.carve n result⟩
  | .call (.free p) => .ok ⟨scmFree r.scm p, flagged false p r.carved⟩
  | .call (.store p i bytes) =>
    .ok { r with scm := { r.scm with mem := r.scm.mem.write (p + i) bytes } }
  | .reopen truncate => .ok ⟨r.scm.reopen truncate, if truncate then [] else r.carved⟩

def Region.run (r : Region) : List Event → Except Fault Region
  | [] => .ok r
  | e :: es =>
    match r.step e with
    | .error f => .error f
    | .ok r => r.run es

/-- The file has no room for the word, the blocks, and one more block of `n` bytes. -/
def Scm.Lacks (scm : Scm) (n : Nat) : Prop := scm.capacity < 8 + scm.utilized + headerLen + n

instance (scm : Scm) (n : Nat) : Decidable (scm.Lacks n) := inferInstanceAs (Decidable (_ < _))

/-- A request that the file has no room for fails the size check, and its scan ends among the carved
blocks. Frees and stores are of carved blocks, and without truncation the first word counts the
utilized bytes. -/
def Region.Meets (r : Region) : Event → Prop
  | .call (.malloc n) => r.scm.Lacks n → r.scm.Full n ∧ r.scm.Bounds r.carved n
  | .call (.free p) => ∃ b ∈ r.carved, b.ptr = p
  | .call (.store p i bytes) => ∃ b ∈ r.carved, b.ptr = p ∧ i + bytes.length ≤ b.size
  | .reopen truncate => truncate = true ∨ r.scm.word = r.scm.utilized

def Region.Orderly (r : Region) : List Event → Prop
  | [] => True
  | e :: es => r.Meets e ∧ ∀ r', r.step e = .ok r' → r'.Orderly es

section
variable {r : Region} {scm : Scm} {carved : List Block}

theorem Scm.Holds.mark {before after : List Block} {b : Block} (h : scm.Holds (before ++ b :: after))
    (flag : Bool) : Scm.Holds { scm with mem := scm.mem.store 2 b.hdr flag.toNat }
      (flagged flag b.ptr (before ++ b :: after)) := by
  refine ⟨?_, h.within⟩
  rw [h.chain.flagged flag]
  exact h.chain.store_flag flag

theorem Region.step_malloc (h : r.scm.Holds r.carved) {n : Nat} (meets : r.Meets (.call (.malloc n))) :
    ∃ r', r.step (.call (.malloc n)) = .ok r' ∧ r'.scm.Holds r'.carved := by
  by_cases lacks : r.scm.Lacks n
  · obtain ⟨full, bounds⟩ := meets lacks
    rcases ((serves_iff h).mpr ⟨full, bounds⟩).result with ⟨before, b, after, carved, _, ok⟩ | ⟨_, ok⟩
    · refine ⟨_, by simp only [Region.step, ok, Except.map]; rfl, ?_⟩
      simp only [Region.carve, if_pos full]
      rw [carved] at h ⊢
      exact h.mark true
    · refine ⟨_, by simp only [Region.step, ok, Except.map]; rfl, ?_⟩
      simpa only [Region.carve, if_pos full] using h
  · have room := Nat.le_of_not_lt lacks
    have granted : ¬ r.scm.Full n := by
      simp only [Scm.Full, Nat.not_lt]
      have := Nat.mod_le (headerLen + n) (2 ^ 64)
      have := Nat.mod_le (r.scm.utilized + (headerLen + n) % 2 ^ 64) (2 ^ 64)
      omega
    obtain ⟨b, scm, hdr, size, live, ok, rep, _⟩ := scmMalloc_extend h.chain room
    refine ⟨_, by simp only [Region.step, ok, Except.map]; rfl, ?_⟩
    have block : b = ⟨r.scm.addr + r.scm.utilized, n, true⟩ := by
      rw [← hdr, ← size, ← live]
    simp only [Region.carve, if_neg granted, ← block]
    exact ⟨rep.chain, rep.within⟩

theorem Scm.Holds.reopen (h : scm.Holds carved) (word : scm.word = scm.utilized) :
    (scm.reopen false).Holds carved := by
  have within := h.within
  have utilized : (scm.reopen false).utilized = scm.utilized := by
    have same : (scm.reopen false).mem.load 8 virtAddr = scm.utilized := by
      rcases within with empty | within
      · rw [empty]
        have zero := Mem.zeros_of_load (word.trans empty)
        refine Mem.load_zeros fun x ge lt => ?_
        rcases Nat.lt_or_ge x (virtAddr + scm.capacity) with inside | outside
        · rw [Scm.reopen_mem ge inside]
          exact zero x ge lt
        · exact Scm.reopen_outside (.inr outside)
      · rw [← word]
        exact Mem.load_congr fun x ge lt => Scm.reopen_mem ge (by omega)
    exact same
  refine ⟨?_, by rw [utilized]; exact within⟩
  rw [utilized]
  refine h.chain.congr fun b mem x ge lt => ?_
  obtain ⟨low, _, high⟩ := h.bounds mem
  simp only [Block.ptr, Block.stop, Scm.addr] at *
  exact (Scm.reopen_mem (by omega) (by omega)).symm

theorem Region.step_holds (h : r.scm.Holds r.carved) {e : Event} (meets : r.Meets e) :
    ∃ r', r.step e = .ok r' ∧ r'.scm.Holds r'.carved := by
  cases e with
  | call c =>
    cases c with
    | malloc n => exact Region.step_malloc h meets
    | free p =>
      obtain ⟨b, mem, rfl⟩ := meets
      obtain ⟨before, after, split⟩ := List.append_of_mem mem
      refine ⟨_, rfl, ?_⟩
      have hdr : b.ptr - headerLen = b.hdr := by simp [Block.ptr]
      simp only [scmFree, hdr]
      rw [split] at h ⊢
      exact h.mark false
    | store p i bytes =>
      obtain ⟨b, mem, rfl, fits⟩ := meets
      refine ⟨_, rfl, h.chain.write mem (Nat.le_add_right _ i) ?_, h.within⟩
      simp only [Block.ptr, Block.stop]
      omega
  | reopen truncate =>
    cases truncate with
    | true => exact ⟨_, rfl, rfl, .inl rfl⟩
    | false => exact ⟨_, rfl, h.reopen (meets.resolve_left (by simp))⟩

theorem Region.run_holds (es : List Event) (h : r.scm.Holds r.carved) (orderly : r.Orderly es) :
    ∃ r', r.run es = .ok r' ∧ r'.scm.Holds r'.carved := by
  induction es generalizing r with
  | nil => exact ⟨r, rfl, h⟩
  | cons e es ih =>
    obtain ⟨meets, rest⟩ := orderly
    obtain ⟨r₁, ok, holds⟩ := Region.step_holds h meets
    obtain ⟨r', run, holds'⟩ := ih holds (rest r₁ ok)
    exact ⟨r', by simp only [Region.run, ok, run], holds'⟩

theorem Region.start_holds (file : Bytes) (mapped : virtAddr + file.length < 2 ^ 64) :
    (Region.start file mapped).scm.Holds (Region.start file mapped).carved := ⟨rfl, .inl rfl⟩

end

/-- A truncated file of 64 bytes whose old content looks like the header of a free block of 1000 bytes:
a request for 60 bytes gets a block that was never carved and ends behind the file. -/
theorem fallback_stale : ∃ (file : Bytes) (mapped : virtAddr + file.length < 2 ^ 64),
    (Region.start file mapped).scm.Lacks 60 ∧
      (scmMalloc (Region.start file mapped).scm 60).map Prod.fst = .ok (some (virtAddr + 18)) ∧
      ¬ (Region.start file mapped).scm.Serves (Region.start file mapped).carved 60 := by
  have mapped : virtAddr +
      (List.replicate 10 0 ++ [232, 3] ++ List.replicate 52 0 : Bytes).length < 2 ^ 64 := by decide
  have given : (scmMalloc (Region.start _ mapped).scm 60).map Prod.fst = .ok (some (virtAddr + 18)) := by
    decide +kernel +revert
  refine ⟨_, mapped, (by decide : 64 < 8 + 0 + 10 + 60), given, fun serves => ?_⟩
  rcases serves.result with ⟨before, b, after, split, _⟩ | ⟨_, none_⟩
  · simp [Region.start] at split
  · rw [none_] at given
    cases given

/-- In every run whose steps meet their conditions, the headers are those of the carved blocks, and a
request that the file has no room for gets the first one that is free and large enough, without a look
behind them, if and only if it fails the size check and its scan ends among them. -/
theorem fallback_serves_iff (file : Bytes) (mapped : virtAddr + file.length < 2 ^ 64)
    (events : List Event) (orderly : (Region.start file mapped).Orderly events) :
    ∃ r, (Region.start file mapped).run events = .ok r ∧
      r.carved.Pairwise (fun b b' => b.stop ≤ b'.hdr) ∧ r.scm.blocks = r.carved ∧
      ∀ n, r.scm.Lacks n →
        (r.scm.Serves r.carved n ↔ r.scm.Full n ∧ r.scm.Bounds r.carved n) := by
  obtain ⟨r, run, holds⟩ := Region.run_holds events (Region.start_holds file mapped) orderly
  exact ⟨r, run, holds.chain.ordered, holds.blocks_eq, fun n _ => serves_iff holds⟩

/-- A freed block of 30 bytes is given for 20, in a file that no second block has room in. -/
theorem fallback_serves_iff_reuse :
    ∃ r, (Region.start (List.replicate 64 7) (by decide)).run
        [.call (.malloc 30), .call (.free (virtAddr + 18))] = .ok r ∧
      r.scm.Serves r.carved 20 := by
  have orderly : (Region.start (List.replicate 64 7) (by decide)).Orderly
      [.call (.malloc 30), .call (.free (virtAddr + 18))] := by
    refine ⟨fun lacks => absurd lacks (by decide), fun r step => ⟨?_, fun _ _ => trivial⟩⟩
    obtain rfl := Except.ok.inj step
    exact ⟨⟨virtAddr + 8, 30, true⟩, List.mem_cons_self, rfl⟩
  obtain ⟨r, run, _, _, serves⟩ := fallback_serves_iff _ _ _ orderly
  refine ⟨r, run, ?_⟩
  obtain rfl := Except.ok.inj run
  refine (serves 20 (by decide)).mpr ⟨by decide, .inl ⟨⟨virtAddr + 8, 30, false⟩, ?_, rfl, ?_, ?_⟩⟩
  · exact List.mem_cons_self
  · decide
  · simp

end OsProjects.Persistent
