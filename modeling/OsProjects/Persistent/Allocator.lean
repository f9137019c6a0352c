import OsProjects.Persistent.Blocks

/-!
# Runs of the allocator

A session is a region with the blocks its user holds: what `scm_malloc` returned, for
the sizes that were asked for, and what has not been freed. In every run in which the
size check of `scm_malloc` decides correctly the held blocks stay inside the file,
apart from each other and from all headers, and the headers can be walked.
-/
namespace OsProjects.Persistent
open OsProjects.Library

/-- The held blocks, each with its pointer and the size asked for. -/
structure Session where
  scm : Scm
  held : List (Nat × Nat)

inductive Call where
  | malloc (n : Nat)
  | free (p : Nat)
  /-- The user stores into a held block. -/
  | store (p i : Nat) (bytes : Bytes)

def Session.step (s : Session) : Call → Except Fault Session
  | .malloc n =>
    match scmMalloc s.scm n with
    | .error e => .error e
    | .ok (none, scm) => .ok ⟨scm, s.held⟩
    | .ok (some p, scm) => .ok ⟨scm, (p, n) :: s.held⟩
  | .free p => .ok ⟨scmFree s.scm p, s.held.filter fun h => h.1 ≠ p⟩
  | .store p i bytes => .ok { s with scm := { s.scm with mem := s.scm.mem.write (p + i) bytes } }

def Session.run (s : Session) : List Call → Except Fault Session
  | [] => .ok s
  | c :: cs =>
    match s.step c with
    | .error e => .error e
    | .ok s => s.run cs

/-- A user frees held blocks only and stores inside them. -/
def Session.Allows (s : Session) : Call → Prop
  | .malloc n => n < 2 ^ 64
  | .free p => ∃ n, (p, n) ∈ s.held
  | .store p i bytes => ∃ n, (p, n) ∈ s.held ∧ i + bytes.length ≤ n

/-- The size check of an allocation decides correctly. -/
def Session.Checks (s : Session) : Call → Prop
  | .malloc n => s.scm.Fits n
  | _ => True

/-- Every step of a run is allowed and meets `Checks`. -/
def Session.Admits (s : Session) : List Call → Prop
  | [] => True
  | c :: cs => s.Allows c ∧ s.Checks c ∧ ∀ s', s.step c = .ok s' → s'.Admits cs

/-- A fresh region on an all-zero file. -/
def Session.start (capacity : Nat) (mapped : virtAddr + capacity < 2 ^ 64) (truncate : Bool) :
    Session :=
  ⟨scmOpen (fun _ => 0) capacity mapped truncate, []⟩

/-- Two address ranges that share no byte. -/
def Apart (a b : Nat × Nat) : Prop := a.1 + a.2 ≤ b.1 ∨ b.1 + b.2 ≤ a.1

/-- The held blocks with their headers are inside the mapped file, the headers form a chain that
ends at the utilized size, and held blocks and headers are pairwise disjoint. -/
structure Session.Sound (s : Session) : Prop where
  inside : ∀ h ∈ s.held, virtAddr + 8 + headerLen ≤ h.1 ∧ h.1 + h.2 ≤ virtAddr + s.scm.capacity
  walk : ∃ blocks, Chain s.scm.mem s.scm.addr blocks (s.scm.addr + s.scm.utilized) ∧
    (∀ h ∈ s.held, ∃ b ∈ blocks, b.live = true ∧ h.1 = b.ptr ∧ h.2 ≤ b.size) ∧
    (s.held ++ blocks.map fun b => (b.hdr, headerLen)).Pairwise Apart

/-- The invariant of a session: each held pointer is that of its own live block. -/
structure Session.Rep (s : Session) (blocks : List Block) : Prop where
  scm : s.scm.Rep blocks
  blank : s.scm.Blank
  held : ∀ h ∈ s.held, ∃ b ∈ blocks, b.live = true ∧ h.1 = b.ptr ∧ h.2 ≤ b.size
  distinct : (s.held.map Prod.fst).Nodup

section
variable {s : Session} {blocks : List Block}

theorem Session.Rep.sound (h : s.Rep blocks) : s.Sound := by
  have apart : ∀ {b b' : Block}, b ∈ blocks → b' ∈ blocks → b ≠ b' → ∀ i j k l,
      b.hdr ≤ i → i + j ≤ b.stop → b'.hdr ≤ k → k + l ≤ b'.stop → Apart (i, j) (k, l) := by
    intro b b' mem mem' ne i j k l lo hi lo' hi'
    simp only [Apart]
    rcases h.scm.chain.apart mem mem' with eq | lt | lt
    · exact absurd eq ne
    · omega
    · omega
  refine ⟨?_, blocks, h.scm.chain, h.held, List.pairwise_append.mpr ⟨?_, ?_, ?_⟩⟩
  · rintro ⟨p, n⟩ mem
    obtain ⟨b, inside, _, ptr, size⟩ := h.held _ mem
    have low := h.scm.hdr_ge inside
    have high := h.scm.stop_le inside
    simp only [Block.ptr, Block.stop] at *
    omega
  · refine (List.pairwise_map.mp h.distinct).imp_of_mem ?_
    rintro ⟨p, n⟩ ⟨p', n'⟩ mem mem' ne
    obtain ⟨b, inside, _, ptr, size⟩ := h.held _ mem
    obtain ⟨b', inside', _, ptr', size'⟩ := h.held _ mem'
    have other : b ≠ b' := by
      rintro rfl
      exact ne (ptr.trans ptr'.symm)
    simp only [Block.ptr] at *
    exact apart inside inside' other _ _ _ _ (by omega) (by simp only [Block.stop]; omega)
      (by omega) (by simp only [Block.stop]; omega)
  · refine List.pairwise_map.mpr (h.scm.chain.ordered.imp ?_)
    intro b b' le
    simp only [Block.stop] at le
    exact Or.inl (by simp only; omega)
  · rintro ⟨p, n⟩ mem hdr mem'
    obtain ⟨b', inside', rfl⟩ := List.mem_map.mp mem'
    obtain ⟨b, inside, _, ptr, size⟩ := h.held _ mem
    simp only [Block.ptr] at ptr size
    by_cases same : b = b'
    · subst same
      exact Or.inr (by simp only; omega)
    · exact apart inside inside' same _ _ _ _ (by omega) (by simp only [Block.stop]; omega)
        (Nat.le_refl _) (by simp only [Block.stop]; omega)

/-- A block that becomes live can be given to the user. -/
theorem Session.Rep.malloc {scm : Scm} {blocks' : List Block} (b : Block) {n : Nat}
    (h : s.Rep blocks) (rep : scm.Rep blocks') (blank : scm.Blank) (mem : b ∈ blocks')
    (live : b.live = true) (size : n ≤ b.size) (fresh : ∀ c ∈ blocks, c.live = true → c ∈ blocks' ∧ c.ptr ≠ b.ptr) :
    Session.Rep ⟨scm, (b.ptr, n) :: s.held⟩ blocks' := by
  refine ⟨rep, blank, List.forall_mem_cons.mpr ⟨⟨b, mem, live, rfl, size⟩, ?_⟩, ?_⟩
  · intro x inside
    obtain ⟨c, in_blocks, c_live, ptr, le⟩ := h.held x inside
    exact ⟨c, (fresh c in_blocks c_live).1, c_live, ptr, le⟩
  · refine List.nodup_cons.mpr ⟨?_, h.distinct⟩
    intro twice
    obtain ⟨x, inside, eq⟩ := List.mem_map.mp twice
    obtain ⟨c, in_blocks, c_live, ptr, _⟩ := h.held x inside
    exact (fresh c in_blocks c_live).2 (ptr.symm.trans eq)

theorem Session.step_rep (h : s.Rep blocks) (c : Call) (allows : s.Allows c)
    (checks : s.Checks c) : ∃ s' blocks', s.step c = .ok s' ∧ s'.Rep blocks' := by
  cases c with
  | malloc n =>
    rcases scmMalloc_spec h.scm h.blank checks with none_ |
      ⟨before, b, after, scm', rfl, fit, ok, rep, blank⟩ | ⟨b, scm', size, live, ok, rep, blank⟩
    · exact ⟨⟨s.scm, s.held⟩, blocks, by simp [Session.step, none_], h⟩
    · refine ⟨⟨scm', (b.ptr, n) :: s.held⟩, before ++ { b with live := true } :: after,
        by simp [Session.step, ok], ?_⟩
      refine Session.Rep.malloc { b with live := true } h rep blank (by simp) rfl fit.2.1 ?_
      intro c mem c_live
      have other : c ≠ b := by
        rintro rfl
        simp [fit.1] at c_live
      refine ⟨?_, fun same => other (h.scm.eq_of_ptr mem (by simp) same)⟩
      simp only [List.mem_append, List.mem_cons] at mem ⊢
      rcases mem with mem | rfl | mem
      · exact Or.inl mem
      · exact absurd rfl other
      · exact Or.inr (Or.inr mem)
    · refine ⟨⟨scm', (b.ptr, n) :: s.held⟩, blocks ++ [b], by simp [Session.step, ok], ?_⟩
      refine Session.Rep.malloc b h rep blank (by simp) live (Nat.le_of_eq size.symm) ?_
      intro c mem _
      refine ⟨by simp [mem], fun same => ?_⟩
      have last := (List.pairwise_append.mp rep.chain.ordered).2.2 c mem b (by simp)
      simp only [Block.ptr, Block.stop, headerLen] at same last
      omega
  | free p =>
    obtain ⟨n, mem⟩ := allows
    obtain ⟨b, inside, live, rfl, _⟩ := h.held _ mem
    obtain ⟨before, after, rfl⟩ := List.append_of_mem inside
    obtain ⟨rep, _⟩ := scmFree_spec h.scm
    have blank : (scmFree s.scm b.ptr).Blank := by
      have hdr : b.ptr - headerLen = b.hdr := by simp [Block.ptr]
      simp only [scmFree, hdr]
      exact h.blank.mark h.scm (by simp) false
    refine ⟨_, _, rfl, rep, blank, ?_, ?_⟩
    · intro x kept
      obtain ⟨kept, other⟩ := List.mem_filter.mp kept
      obtain ⟨c, in_blocks, c_live, ptr, le⟩ := h.held x kept
      have ne : c ≠ b := by
        rintro rfl
        simp [ptr] at other
      refine ⟨c, ?_, c_live, ptr, le⟩
      simp only [List.mem_append, List.mem_cons] at in_blocks ⊢
      rcases in_blocks with m | rfl | m
      · exact Or.inl m
      · exact absurd rfl ne
      · exact Or.inr (Or.inr m)
    · exact h.distinct.sublist (List.Sublist.map _ List.filter_sublist)
  | store p i bytes =>
    obtain ⟨n, mem, within⟩ := allows
    obtain ⟨b, inside, _, ptr, le⟩ := h.held _ mem
    simp only at ptr le
    have high : p + i + bytes.length ≤ b.stop := by
      simp only [Block.stop, Block.ptr] at *
      omega
    exact ⟨_, blocks, rfl, h.scm.write inside (by omega) high, h.blank.write h.scm inside high,
      h.held, h.distinct⟩

theorem Session.run_rep (cs : List Call) (h : s.Rep blocks) (admits : s.Admits cs) :
    ∃ s' blocks', s.run cs = .ok s' ∧ s'.Rep blocks' := by
  induction cs generalizing s blocks with
  | nil => exact ⟨s, blocks, rfl, h⟩
  | cons c cs ih =>
    obtain ⟨allows, checks, rest⟩ := admits
    obtain ⟨s₁, blocks₁, ok, rep⟩ := Session.step_rep h c allows checks
    simp only [Session.run, ok]
    exact ih rep (rest s₁ ok)

end

/-- In every run from an all-zero file in which the size check decides correctly, the allocator
keeps its blocks inside the file, apart, and on a chain of headers. -/
theorem scm_run_sound (capacity : Nat) (mapped : virtAddr + capacity < 2 ^ 64) (truncate : Bool)
    (calls : List Call) (admits : (Session.start capacity mapped truncate).Admits calls) :
    ∃ s, (Session.start capacity mapped truncate).run calls = .ok s ∧ s.Sound := by
  obtain ⟨rep, blank⟩ := scmOpen_rep capacity mapped truncate
  have start : (Session.start capacity mapped truncate).Rep [] :=
    ⟨rep, blank, by simp [Session.start], by simp [Session.start]⟩
  obtain ⟨s, blocks, ok, rep⟩ := Session.run_rep calls start admits
  exact ⟨s, ok, rep.sound⟩

theorem scm_run_sound_two :
    ∃ s, (Session.start 64 (by decide) true).run [.malloc 8, .free (virtAddr + 18)] = .ok s ∧
      s.Sound := by
  have size : (8 : Nat) < 2 ^ 64 := by decide
  have fits : (Session.start 64 (by decide) true).scm.Fits 8 := by decide
  refine scm_run_sound 64 (by decide) true _ ⟨size, fits, fun s₁ step => ?_⟩
  obtain rfl := Except.ok.inj step
  exact ⟨⟨8, List.mem_cons_self⟩, trivial, fun _ _ => trivial⟩

/-- A request that the size check wrongly lets pass: in a file of 20 bytes the block ends 8 bytes
behind the file. -/
theorem scmMalloc_past_end :
    ∃ s, (Session.start 20 (by decide) true).run [.malloc 10] = .ok s ∧ ¬ s.Sound := by
  refine ⟨_, rfl, fun sound => ?_⟩
  have past := (sound.inside (virtAddr + 18, 10) List.mem_cons_self).2
  exact absurd past (by decide)

end OsProjects.Persistent
