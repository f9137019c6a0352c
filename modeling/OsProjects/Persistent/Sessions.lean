import OsProjects.Persistent.Allocator
import OsProjects.Persistent.Places

/-!
# Sessions on one file

Between two sessions a region is the bytes of its file; a user keeps its pointers, since
every mapping is at the same address. The number of utilized bytes stands in the handle
and in the first word of the file. An allocation that extends the region writes both,
and a truncating open clears only the one in the handle.
-/
namespace OsProjects.Persistent
open OsProjects.Library

/-- The file between two sessions, with the blocks that its user holds in it. -/
structure Backing where
  file : Bytes
  held : List (Nat × Nat)
  mapped : virtAddr + file.length < 2 ^ 64

/-- The file of a closed region, opened again. -/
def Scm.reopen (scm : Scm) (truncate : Bool) : Scm :=
  scmOpen (fun a => (scmClose scm).getD a 0) scm.capacity scm.mapped truncate

/-- Truncation gives up all blocks. -/
def Backing.session (b : Backing) (truncate : Bool) : Session :=
  ⟨scmOpen (fun a => b.file.getD a 0) b.file.length b.mapped truncate,
    if truncate then [] else b.held⟩

def Session.close (s : Session) : Backing :=
  ⟨scmClose s.scm, s.held, by simpa only [scmClose, Mem.length_read] using s.scm.mapped⟩

/-- Each session opens the file, makes its calls, and closes it. -/
def Backing.run (b : Backing) : List (Bool × List Call) → Except Fault Backing
  | [] => .ok b
  | (truncate, calls) :: rest =>
    match (b.session truncate).run calls with
    | .error e => .error e
    | .ok s => s.close.run rest

/-- The first word of the file. -/
def Scm.word (scm : Scm) : Nat := scm.mem.load 8 virtAddr

/-- The size check of `scm_malloc` rejects the request. -/
def Scm.Full (scm : Scm) (n : Nat) : Prop :=
  scm.capacity < (scm.utilized + (headerLen + n) % 2 ^ 64) % 2 ^ 64

instance (scm : Scm) (n : Nat) : Decidable (scm.Full n) := inferInstanceAs (Decidable (_ < _))

/-- The headers that the scan for `n` bytes reads belong to blocks that end inside the file. -/
def Scm.Tidy (scm : Scm) (n : Nat) : Nat → Nat → Prop
  | 0, _ => True
  | fuel + 1, p => p < scm.addr + scm.capacity - 2 - 8 - 8 →
    p + headerLen + scm.mem.load 8 (p + 2) ≤ virtAddr + scm.capacity ∧
      (scm.mem.load 2 p = 0 ∧ n ≤ scm.mem.load 8 (p + 2) ∨
        scm.Tidy n fuel (p + headerLen + scm.mem.load 8 (p + 2)))

/-- A scan does not meet bytes that are no header. -/
def Session.Scans (s : Session) : Call → Prop
  | .malloc n => s.scm.Full n → s.scm.Tidy n (s.scm.capacity + 1) s.scm.addr
  | _ => True

def Session.Orderly (s : Session) : List Call → Prop
  | [] => True
  | c :: cs => s.Allows c ∧ s.Checks c ∧ s.Scans c ∧ ∀ s', s.step c = .ok s' → s'.Orderly cs

def Backing.Orderly (b : Backing) : List (Bool × List Call) → Prop
  | [] => True
  | (truncate, calls) :: rest => (b.session truncate).Orderly calls ∧
    ∀ s, (b.session truncate).run calls = .ok s → s.close.Orderly rest

/-- Some call asks for a block that an empty region of this capacity has room for. -/
def Enlarges (capacity : Nat) (calls : List Call) : Prop :=
  ∃ n, Call.malloc n ∈ calls ∧ (headerLen + n) % 2 ^ 64 ≤ capacity

/-- What a user can tell of the first region is so in the second one. -/
structure Session.Restores (s s' : Session) : Prop where
  capacity : scmCapacity s'.scm = scmCapacity s.scm
  utilized : scmUtilized s'.scm = scmUtilized s.scm
  blocks : s'.scm.blocks = s.scm.blocks
  live : ∀ b ∈ s.scm.blocks, b.live = true →
    s'.scm.mem.read b.ptr b.size = s.scm.mem.read b.ptr b.size
  held : s'.held = s.held ∧ ∀ h ∈ s.held, s'.scm.mem.read h.1 h.2 = s.scm.mem.read h.1 h.2

/-- The held blocks are inside the file, and nothing is written outside of it. -/
structure Session.Kept (s : Session) : Prop where
  inside : ∀ h ∈ s.held, s.scm.addr + headerLen ≤ h.1 ∧ h.1 + h.2 ≤ virtAddr + s.scm.capacity
  outside : ∀ a, a < virtAddr ∨ virtAddr + s.scm.capacity ≤ a → s.scm.mem a = 0

def Backing.Kept (b : Backing) : Prop :=
  ∀ h ∈ b.held, virtAddr + 8 + headerLen ≤ h.1 ∧ h.1 + h.2 ≤ virtAddr + b.file.length

/-- What a call does to the number of utilized bytes in the handle and in the file. -/
structure Session.Counts (s : Session) (c : Call) (s' : Session) : Prop where
  capacity : s'.scm.capacity = s.scm.capacity
  grown : ∀ n, c = .malloc n → ¬ s.scm.Full n → s'.scm.word = s'.scm.utilized
  idle : (∀ n, c = .malloc n → s.scm.Full n) →
    s'.scm.word = s.scm.word ∧ s'.scm.utilized = s.scm.utilized

section
variable {s s' : Session} {scm : Scm}

/-- Bytes stored behind the first word and inside the file. -/
theorem Session.Kept.write (kept : s.Kept) (a : Nat) (bs : Bytes) (low : s.scm.addr ≤ a)
    (high : a + bs.length ≤ virtAddr + s.scm.capacity) :
    (∀ x, x < virtAddr ∨ virtAddr + s.scm.capacity ≤ x → s.scm.mem.write a bs x = 0) ∧
      (s.scm.mem.write a bs).load 8 virtAddr = s.scm.word := by
  simp only [Scm.addr] at low
  constructor
  · intro x out
    rw [Mem.write_outside _ (by omega)]
    exact kept.outside x out
  · apply Mem.load_congr
    intro x _ lt
    exact Mem.write_outside _ (by omega)

theorem scan_tidy {n fuel p : Nat} (tidy : scm.Tidy n (fuel + 1) p) (low : scm.addr ≤ p)
    (enough : scm.addr + scm.capacity ≤ p + fuel) :
    scan scm n (fuel + 1) p = .ok (none, scm) ∨
      ∃ hdr, scm.addr ≤ hdr ∧ hdr + headerLen + n ≤ virtAddr + scm.capacity ∧
        scan scm n (fuel + 1) p =
          .ok (some (hdr + headerLen), { scm with mem := scm.mem.store 2 hdr 1 }) := by
  have mapped := scm.mapped
  induction fuel generalizing p with
  | zero =>
    rw [scan, if_neg (by omega)]
    exact Or.inl rfl
  | succ fuel ih =>
    have wild : ¬ p < virtAddr := by
      simp only [Scm.addr] at low
      omega
    rw [scan, if_neg wild]
    by_cases more : p < scm.addr + scm.capacity - 2 - 8 - 8
    · obtain ⟨inside, next⟩ := tidy more
      rw [if_pos more]
      by_cases fit : scm.mem.load 2 p = 0 ∧ n ≤ scm.mem.load 8 (p + 2)
      · exact Or.inr ⟨p, low, by omega, by simp only [if_pos fit]⟩
      · have stop : (p + headerLen + scm.mem.load 8 (p + 2)) % 2 ^ 64 =
            p + headerLen + scm.mem.load 8 (p + 2) := Nat.mod_eq_of_lt (by omega)
        simp only [if_neg fit, stop]
        refine ih (next.resolve_left fit) (by omega) ?_
        simp only [headerLen]
        omega
    · exact Or.inl (if_neg more)

theorem Session.step_malloc (kept : s.Kept) {n : Nat} (fits : s.scm.Fits n)
    (scans : s.Scans (.malloc n)) :
    ∃ s', s.step (.malloc n) = .ok s' ∧ s'.Kept ∧ s.Counts (.malloc n) s' := by
  have mapped := s.scm.mapped
  by_cases full : s.scm.Full n
  · rcases scan_tidy (scans full) (Nat.le_refl _) (Nat.le_refl _) with none_ |
      ⟨hdr, low, high, found⟩
    · refine ⟨s, ?_, kept, rfl, ?_, fun _ => ⟨rfl, rfl⟩⟩
      · simp only [Session.step, scmMalloc, if_pos (show s.scm.capacity < _ from full), none_]
      · rintro _ ⟨⟩ grown
        exact absurd full grown
    · have stored := kept.write hdr (leBytes 2 1) low (by
        simp only [length_leBytes, headerLen] at *
        omega)
      refine ⟨⟨{ s.scm with mem := s.scm.mem.store 2 hdr 1 }, (hdr + headerLen, n) :: s.held⟩,
        ?_, ⟨?_, stored.1⟩, rfl, ?_, fun _ => ⟨stored.2, rfl⟩⟩
      · simp only [Session.step, scmMalloc, if_pos (show s.scm.capacity < _ from full), found]
      · refine List.forall_mem_cons.mpr ⟨⟨?_, high⟩, kept.inside⟩
        exact Nat.add_le_add_right low headerLen
      · rintro _ ⟨⟩ grown
        exact absurd full grown
  · have room := fits.resolve_left full
    have top : (s.scm.addr + s.scm.utilized) % 2 ^ 64 = s.scm.addr + s.scm.utilized := by
      simp only [Scm.addr, virtAddr, headerLen] at *
      omega
    have sum : (s.scm.utilized + (headerLen + n) % 2 ^ 64) % 2 ^ 64 =
        s.scm.utilized + headerLen + n := by
      simp only [headerLen] at *
      omega
    have granted := full
    simp only [Scm.Full, sum] at granted
    simp only [Session.step, scmMalloc, top, sum, if_neg granted]
    refine ⟨_, rfl, ⟨?_, ?_⟩, rfl, ?_, ?_⟩
    · refine List.forall_mem_cons.mpr ⟨?_, kept.inside⟩
      simp only [Scm.addr]
      omega
    · intro x out
      simp only [Scm.addr, headerLen] at out room ⊢
      rw [Mem.store_outside _ (by omega), Mem.store_outside _ (by omega),
        Mem.store_outside _ (by omega)]
      exact kept.outside x out
    · rintro _ ⟨⟩ _
      have word : s.scm.addr - 8 = virtAddr := rfl
      simp only [Scm.word, word]
      rw [Mem.load_store_self]
      exact Nat.mod_eq_of_lt (by omega)
    · intro all
      exact absurd (all n rfl) full

theorem Session.step_kept (kept : s.Kept) {c : Call} (allows : s.Allows c) (checks : s.Checks c)
    (scans : s.Scans c) : ∃ s', s.step c = .ok s' ∧ s'.Kept ∧ s.Counts c s' := by
  cases c with
  | malloc n => exact Session.step_malloc kept checks scans
  | free p =>
    obtain ⟨n, mem⟩ := allows
    obtain ⟨low, high⟩ := kept.inside _ mem
    simp only [headerLen, Scm.addr] at low high
    have stored := kept.write (p - headerLen) (leBytes 2 0)
      (by simp only [Scm.addr, headerLen]; omega)
      (by simp only [length_leBytes, headerLen]; omega)
    refine ⟨_, rfl, ⟨?_, stored.1⟩, rfl, by simp, fun _ => ⟨stored.2, rfl⟩⟩
    intro h still
    exact kept.inside h (List.mem_filter.mp still).1
  | store p i bytes =>
    obtain ⟨n, mem, within⟩ := allows
    obtain ⟨low, high⟩ := kept.inside _ mem
    simp only [headerLen, Scm.addr] at low high
    have stored := kept.write (p + i) bytes (by simp only [Scm.addr]; omega)
      (by omega)
    exact ⟨_, rfl, ⟨kept.inside, stored.1⟩, rfl, by simp, fun _ => ⟨stored.2, rfl⟩⟩

/-- The two numbers stay equal. -/
theorem Session.run_kept (cs : List Call) (kept : s.Kept) (orderly : s.Orderly cs) :
    ∃ s', s.run cs = .ok s' ∧ s'.Kept ∧ s'.scm.capacity = s.scm.capacity ∧
      (s.scm.word = s.scm.utilized → s'.scm.word = s'.scm.utilized) := by
  induction cs generalizing s with
  | nil => exact ⟨s, rfl, kept, rfl, id⟩
  | cons c cs ih =>
    obtain ⟨allows, checks, scans, rest⟩ := orderly
    obtain ⟨s₁, ok, kept₁, counts⟩ := Session.step_kept kept allows checks scans
    obtain ⟨s', run, kept', capacity, agree⟩ := ih kept₁ (rest s₁ ok)
    refine ⟨s', by simp only [Session.run, ok, run], kept', capacity.trans counts.capacity, ?_⟩
    intro same
    apply agree
    by_cases grown : ∃ n, c = .malloc n ∧ ¬ s.scm.Full n
    · obtain ⟨n, malloc, room⟩ := grown
      exact counts.grown n malloc room
    · obtain ⟨word, utilized⟩ := counts.idle (by simpa using grown)
      rw [word, utilized, same]

/-- From an empty handle the numbers become equal with the first block, and no earlier. -/
theorem Session.run_empty (cs : List Call) (kept : s.Kept) (orderly : s.Orderly cs)
    (empty : s.scm.utilized = 0) (run : s.run cs = .ok s') :
    (Enlarges s.scm.capacity cs → s'.scm.word = s'.scm.utilized) ∧
      (¬ Enlarges s.scm.capacity cs → s'.scm.word = s.scm.word ∧ s'.scm.utilized = 0) := by
  induction cs generalizing s with
  | nil =>
    obtain rfl : s = s' := by simpa [Session.run] using run
    exact ⟨by simp [Enlarges], fun _ => ⟨rfl, empty⟩⟩
  | cons c cs ih =>
    obtain ⟨allows, checks, scans, rest⟩ := orderly
    obtain ⟨s₁, ok, kept₁, counts⟩ := Session.step_kept kept allows checks scans
    simp only [Session.run, ok] at run
    by_cases grown : ∃ n, c = .malloc n ∧ ¬ s.scm.Full n
    · obtain ⟨n, rfl, room⟩ := grown
      obtain ⟨s₂, run₂, _, _, agree⟩ := Session.run_kept cs kept₁ (rest s₁ ok)
      obtain rfl : s₂ = s' := by simpa [run₂] using run
      refine ⟨fun _ => agree (counts.grown n rfl room), fun none_ => absurd ?_ none_⟩
      refine ⟨n, List.mem_cons_self, ?_⟩
      simp only [Scm.Full, empty] at room
      omega
    · obtain ⟨word, utilized⟩ := counts.idle (by simpa using grown)
      have later : Enlarges s.scm.capacity (c :: cs) ↔ Enlarges s₁.scm.capacity cs := by
        rw [counts.capacity]
        constructor
        · rintro ⟨n, mem, le⟩
          rcases List.mem_cons.mp mem with rfl | mem
          · refine absurd ⟨n, rfl, ?_⟩ grown
            simp only [Scm.Full, empty]
            omega
          · exact ⟨n, mem, le⟩
        · rintro ⟨n, mem, le⟩
          exact ⟨n, List.mem_cons_of_mem c mem, le⟩
      have := ih kept₁ (rest s₁ ok) (utilized.trans empty) run
      rwa [← later, word] at this

/-- The bytes of the mapping come back. -/
theorem Scm.reopen_mem {truncate : Bool} {a : Nat} (low : virtAddr ≤ a)
    (high : a < virtAddr + scm.capacity) : (scm.reopen truncate).mem a = scm.mem a := by
  simp only [Scm.reopen, scmOpen, scmClose, if_pos low]
  rw [List.getD_eq_getElem?_getD, Mem.getElem?_read _ _ _ _ (by omega), Option.getD_some,
    Nat.add_sub_cancel' low]

theorem Scm.reopen_outside {truncate : Bool} {a : Nat}
    (out : a < virtAddr ∨ virtAddr + scm.capacity ≤ a) : (scm.reopen truncate).mem a = 0 := by
  simp only [Scm.reopen, scmOpen, scmClose]
  split_ifs with low
  · rw [List.getD_eq_getElem?_getD, List.getElem?_eq_none (by simp; omega), Option.getD_none]
  · rfl

/-- The handle takes its number from the first word. -/
theorem Session.reopen (kept : s.Kept) :
    (s.close.session false).scm = { s.scm with utilized := s.scm.word } := by
  have mem : (s.close.session false).scm.mem = s.scm.mem := by
    funext a
    have again : (s.close.session false).scm.mem a = (s.scm.reopen false).mem a := rfl
    by_cases out : a < virtAddr ∨ virtAddr + s.scm.capacity ≤ a
    · rw [again, Scm.reopen_outside out, kept.outside a out]
    · rw [again, Scm.reopen_mem (by omega) (by omega)]
  have capacity : (s.close.session false).scm.capacity = s.scm.capacity :=
    s.scm.mem.length_read virtAddr s.scm.capacity
  have utilized : (s.close.session false).scm.utilized = s.scm.word := by
    rw [Scm.word, ← mem]
    rfl
  exact Scm.ext mem utilized capacity

/-- A reopened region is the one that was closed just when both numbers were equal. -/
theorem Session.restores_iff (kept : s.Kept) :
    s.Restores (s.close.session false) ↔ s.scm.word = s.scm.utilized := by
  constructor
  · intro same
    have utilized := same.utilized
    rw [Session.reopen kept] at utilized
    exact utilized
  · intro same
    have scm : (s.close.session false).scm = s.scm := by
      rw [Session.reopen kept, same]
    have held : (s.close.session false).held = s.held := rfl
    constructor <;> simp [scm, held]

theorem Backing.Kept.session {b : Backing} (kept : b.Kept) (truncate : Bool) :
    (b.session truncate).Kept := by
  constructor
  · cases truncate with
    | false => exact kept
    | true => simp [Backing.session]
  · intro a out
    simp only [Backing.session, scmOpen] at out ⊢
    split_ifs with low
    · rw [List.getD_eq_getElem?_getD, List.getElem?_eq_none (by omega), Option.getD_none]
    · rfl

theorem Session.Kept.close (kept : s.Kept) : s.close.Kept := by
  intro h mem
  simp only [Session.close, scmClose, Mem.length_read]
  exact kept.inside h mem

theorem Session.length_close : s.close.file.length = s.scm.capacity :=
  s.scm.mem.length_read virtAddr s.scm.capacity

theorem Backing.run_append {b : Backing} (before after : List (Bool × List Call))
    (kept : b.Kept) (orderly : b.Orderly (before ++ after)) :
    ∃ b', b.run before = .ok b' ∧ b'.Kept ∧ b'.file.length = b.file.length ∧ b'.Orderly after := by
  induction before generalizing b with
  | nil => exact ⟨b, rfl, kept, rfl, orderly⟩
  | cons first before ih =>
    obtain ⟨here, rest⟩ := orderly
    obtain ⟨s, run, keeps, capacity, _⟩ := Session.run_kept first.2 (kept.session first.1) here
    obtain ⟨b', runs, kept', length, left⟩ := ih keeps.close (rest s run)
    refine ⟨b', by simp only [Backing.run, run, runs], kept', ?_, left⟩
    rw [length, Session.length_close, capacity]
    rfl

/-- Behind the blocks the scan meets zeros only. -/
theorem Scm.Tidy.zeros {n fuel p : Nat} (zero : ∀ x, p ≤ x → scm.mem x = 0) :
    scm.Tidy n fuel p := by
  induction fuel generalizing p with
  | zero => trivial
  | succ fuel ih =>
    intro more
    have size : scm.mem.load 8 (p + 2) = 0 := Mem.load_zeros fun x ge _ => zero x (by omega)
    rw [size]
    refine ⟨?_, Or.inr (ih fun x ge => zero x (by omega))⟩
    simp only [Scm.addr, headerLen] at more ⊢
    omega

theorem Scm.Rep.tidy {blocks : List Block} (h : scm.Rep blocks) (blank : scm.Blank)
    (n fuel : Nat) : scm.Tidy n fuel scm.addr := by
  have within := h.within
  have walk : ∀ (after : List Block) (p fuel : Nat), scm.addr ≤ p →
      Chain scm.mem p after (scm.addr + scm.utilized) → scm.Tidy n fuel p := by
    intro after
    induction after with
    | nil =>
      rintro p fuel _ ⟨⟩
      exact Scm.Tidy.zeros blank
    | cons b after ih =>
      rintro p fuel low ⟨rfl, _, size, rest⟩
      cases fuel with
      | zero => trivial
      | succ fuel =>
        have le := rest.le
        intro more
        rw [size]
        simp only [Block.stop, Scm.addr, headerLen] at le low ih ⊢
        refine ⟨by omega, Or.inr (ih _ fuel (by omega) rest)⟩
  exact walk blocks scm.addr fuel (Nat.le_refl _) h.chain

/-- The sessions whose blocks form a chain need the size check only. -/
theorem Session.Rep.orderly {blocks : List Block} (cs : List Call) (h : s.Rep blocks)
    (admits : s.Admits cs) : s.Orderly cs := by
  induction cs generalizing s blocks with
  | nil => trivial
  | cons c cs ih =>
    obtain ⟨allows, checks, rest⟩ := admits
    obtain ⟨s₁, blocks₁, ok, rep⟩ := Session.step_rep h c allows checks
    refine ⟨allows, checks, ?_, fun s' step => ?_⟩
    · cases c with
      | malloc n => exact fun _ => h.scm.tidy h.blank n _
      | free p => trivial
      | store p i bytes => trivial
    · obtain rfl : s₁ = s' := by simpa [ok] using step
      exact ih rep (rest s₁ ok)

end

/-- After every run on an all-zero file in which the size check decides correctly. -/
theorem scm_reopen_fresh (capacity : Nat) (mapped : virtAddr + capacity < 2 ^ 64)
    (truncate : Bool) (calls : List Call)
    (admits : (Session.start capacity mapped truncate).Admits calls) :
    ∃ s, (Session.start capacity mapped truncate).run calls = .ok s ∧
      s.Restores (s.close.session false) := by
  obtain ⟨rep, blank⟩ := scmOpen_rep capacity mapped truncate
  have start : (Session.start capacity mapped truncate).Rep [] :=
    ⟨rep, blank, by simp [Session.start], by simp [Session.start]⟩
  have kept : (Session.start capacity mapped truncate).Kept := by
    refine ⟨by simp [Session.start], fun a _ => ?_⟩
    simp [Session.start, scmOpen]
  obtain ⟨s, run, keeps, _, agree⟩ :=
    Session.run_kept calls kept (Session.Rep.orderly calls start admits)
  exact ⟨s, run, (Session.restores_iff keeps).mpr (agree rep.word)⟩

/-- Over any sessions on a file, in which the size check decides correctly and no scan meets bytes
that are no header, the region is reopened as the last session has left it just when that session
did not truncate a file with a nonzero first word without enlarging the empty region. -/
theorem scm_reopen_restores (file : Bytes) (mapped : virtAddr + file.length < 2 ^ 64)
    (sessions : List (Bool × List Call)) (truncate : Bool) (calls : List Call)
    (orderly : (Backing.mk file [] mapped).Orderly (sessions ++ [(truncate, calls)])) :
    ∃ b s, (Backing.mk file [] mapped).run sessions = .ok b ∧
      (b.session truncate).run calls = .ok s ∧
      (s.Restores (s.close.session false) ↔
        (truncate = true → (b.session true).scm.word = 0 ∨ Enlarges file.length calls)) := by
  obtain ⟨b, before, kept, length, last, _⟩ :=
    Backing.run_append sessions [(truncate, calls)] (by simp [Backing.Kept]) orderly
  obtain ⟨s, run, keeps, _, agree⟩ := Session.run_kept calls (kept.session truncate) last
  refine ⟨b, s, before, run, (Session.restores_iff keeps).trans ?_⟩
  cases truncate with
  | false => exact ⟨fun _ => by simp, fun _ => agree rfl⟩
  | true =>
    obtain ⟨grown, idle⟩ := Session.run_empty calls (kept.session true) last rfl run
    have capacity : (b.session true).scm.capacity = file.length := length
    rw [capacity] at grown idle
    by_cases grows : Enlarges file.length calls
    · exact ⟨fun _ _ => Or.inr grows, fun _ => grown grows⟩
    · obtain ⟨word, utilized⟩ := idle grows
      rw [word, utilized]
      exact ⟨fun zero _ => Or.inl zero, fun only => (only rfl).resolve_right grows⟩

/-- A truncating session after one with a block in it, and an allocation in the second one. -/
theorem scm_reopen_restores_two :
    ∃ b s, (Backing.mk (List.replicate 64 0) [] (by decide)).run [(true, [.malloc 8])] = .ok b ∧
      (b.session true).run [.malloc 4] = .ok s ∧ s.Restores (s.close.session false) := by
  have orderly : (Backing.mk (List.replicate 64 0) [] (by decide)).Orderly
      ([(true, [.malloc 8])] ++ [(true, [.malloc 4])]) := by
    refine ⟨⟨?_, ?_, ?_, fun _ _ => trivial⟩, fun s run => ⟨⟨?_, ?_, ?_, fun _ _ => trivial⟩,
      fun _ _ => trivial⟩⟩
    · exact (by decide : 8 < 2 ^ 64)
    · exact Or.inr (by decide)
    · exact fun full => absurd full (by decide)
    · exact (by decide : 4 < 2 ^ 64)
    all_goals
      obtain rfl := Except.ok.inj run
    · exact Or.inr (by decide)
    · exact fun full => absurd full (by decide)
  obtain ⟨b, s, before, run, restores⟩ := scm_reopen_restores (List.replicate 64 0) (by decide)
    [(true, [.malloc 8])] true [.malloc 4] orderly
  exact ⟨b, s, before, run, restores.mpr fun _ => Or.inr ⟨4, List.mem_cons_self, by decide⟩⟩

/-- A session that truncates and allocates nothing: its region is empty when it is closed, and has
the 18 bytes of the session before when it is reopened. -/
theorem scm_reopen_stale :
    ∃ b s, (Backing.mk (List.replicate 64 0) [] (by decide)).run [(true, [.malloc 8])] = .ok b ∧
      (b.session true).run [] = .ok s ∧ scmUtilized s.scm = 0 ∧ s.scm.blocks = [] ∧
      scmUtilized (s.close.session false).scm = 18 ∧
      (s.close.session false).scm.blocks = [⟨virtAddr + 8, 8, true⟩] ∧
      ¬ s.Restores (s.close.session false) := by
  refine ⟨_, _, rfl, rfl, rfl, rfl, by decide +kernel, by decide +kernel, fun same => ?_⟩
  exact absurd same.utilized (by decide +kernel)

end OsProjects.Persistent
