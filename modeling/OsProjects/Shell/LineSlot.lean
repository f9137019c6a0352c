import OsProjects.Library.Steps
import OsProjects.Shell.ReadLine

/-!
# The slot of the edited line

Each command of the editor keeps the buffer a string of length `n` in its slot, with the cursor in
it, except that a blank may be put at the end of a full line, and that a recalled slot must hold a
string. Each command is stated for the bytes: which it moves and which it leaves.
-/
namespace OsProjects.Shell
open OsProjects.Library

/-- `0 <= i <= n < N` and `buf` is a string of length `n`. -/
structure Editor.InSlot (e : Editor) : Prop where
  i_le : e.i ≤ e.n
  n_lt : e.n < N
  text : ∀ x, x < e.n → e.mem (e.buf + x) ≠ 0
  nul : e.mem (e.buf + e.n) = 0

/-- The variables stand for slots of the table. -/
structure Editor.Placed (e : Editor) : Prop where
  buf : e.buf = e.last * N
  last : e.last < H
  j : e.j ≤ e.last

/-- A command changes bytes of its slot only. -/
structure Editor.Keeps (e e' : Editor) : Prop where
  buf : e'.buf = e.buf
  last : e'.last = e.last
  j : e'.j ≤ e.last
  frame : ∀ a, a < e.buf ∨ e.buf + N ≤ a → e'.mem a = e.mem a

/-- The slot holds a string shorter than `N`. -/
def Terminated (mem : Mem) (k : Nat) : Prop := ∃ x, x < N ∧ mem (k * N + x) = 0

section
variable {mem mem' : Mem} {e e' : Editor} {p n k dst src len j : Nat} {b : UInt8}

theorem slot_le (h : k < H) : k * N + N ≤ H * N := by
  rw [← Nat.succ_mul]
  exact Nat.mul_le_mul_right N h

theorem slots_apart {l : Nat} (h : k ≠ l) : k * N + N ≤ l * N ∨ l * N + N ≤ k * N := by
  rcases Nat.lt_or_gt_of_ne h with lt | gt
  · left
    rw [← Nat.succ_mul]
    exact Nat.mul_le_mul_right N lt
  · right
    rw [← Nat.succ_mul]
    exact Nat.mul_le_mul_right N gt

theorem slot_ok (h : k < H) : slot k = .ok (k * N) := if_pos h

theorem strlen_eq (text : ∀ x, x < n → mem (p + x) ≠ 0) (nul : mem (p + n) = 0)
    (lt : p + n < H * N) : strlen mem p = .ok n := by
  have loop : ∀ n p fuel, n < fuel → (∀ x, x < n → mem (p + x) ≠ 0) → mem (p + n) = 0 →
      strlenFrom mem fuel p = .ok n := by
    intro n
    induction n with
    | zero =>
      intro p fuel lt _ nul
      obtain ⟨fuel, rfl⟩ := Nat.exists_eq_succ_of_ne_zero (Nat.ne_of_gt lt)
      exact if_pos nul
    | succ n ih =>
      intro p fuel lt text nul
      obtain ⟨fuel, rfl⟩ := Nat.exists_eq_succ_of_ne_zero (Nat.ne_of_gt (Nat.zero_lt_of_lt lt))
      have first : mem p ≠ 0 := text 0 (Nat.succ_pos n)
      have rest : strlenFrom mem fuel (p + 1) = .ok n := by
        refine ih (p + 1) fuel (by omega) (fun x lt => ?_) ?_
        · rw [Nat.add_assoc, Nat.add_comm 1 x]
          exact text (x + 1) (by omega)
        · rwa [Nat.add_assoc, Nat.add_comm 1 n]
      rw [strlenFrom, if_neg first, rest]
      rfl
  exact loop n p _ (by omega) text nul

/-- What a move in one line does. -/
structure Moved (mem mem' : Mem) (buf dst src len : Nat) : Prop where
  inside : ∀ x, dst ≤ x → x < dst + len → mem' (buf + x) = mem (buf + (x - dst + src))
  outside : ∀ x, x < dst ∨ dst + len ≤ x → mem' (buf + x) = mem (buf + x)
  before : ∀ a, a < buf → mem' a = mem a

theorem memmove_ok (mem : Mem) (buf dst src len : Nat) (target : buf + dst + len ≤ H * N)
    (source : buf + src + len ≤ H * N) :
    ∃ mem', memmove mem (buf + dst) (buf + src) len = .ok mem' ∧ Moved mem mem' buf dst src len := by
  refine ⟨_, if_pos ⟨target, source⟩, fun x ge lt => ?_, fun x out => ?_, fun a lt => ?_⟩
  · rw [Mem.write_read_apply, if_pos (by omega)]
    congr 1
    omega
  · rw [Mem.write_read_apply, if_neg (by omega)]
  · rw [Mem.write_read_apply, if_neg (by omega)]

/-- Bytes behind the slot stay when the moved bytes lie in it. -/
theorem Moved.frame {buf a : Nat} (moved : Moved mem mem' buf dst src len) (le : dst + len ≤ N)
    (out : a < buf ∨ buf + N ≤ a) : mem' a = mem a := by
  rcases out with lt | ge
  · exact moved.before a lt
  · obtain ⟨x, rfl⟩ := Nat.exists_eq_add_of_le (Nat.le_of_add_right_le ge)
    exact moved.outside x (by omega)

theorem put_ok (lt : p < H * N) : put mem p b = .ok (Function.update mem p b) := if_pos lt

theorem Editor.Placed.room (placed : e.Placed) : e.buf + N ≤ H * N := by
  rw [placed.buf]
  exact slot_le placed.last

theorem Editor.Keeps.placed (keeps : e.Keeps e') (placed : e.Placed) : e'.Placed :=
  ⟨by rw [keeps.buf, keeps.last, placed.buf], by rw [keeps.last]; exact placed.last,
    by rw [keeps.last]; exact keeps.j⟩

/-- The rest of the line behind a place in it. -/
theorem Editor.InSlot.strlen (h : e.InSlot) (placed : e.Placed) (le : k ≤ e.n) :
    strlen e.mem (e.buf + k) = .ok (e.n - k) := by
  have room := placed.room
  have := h.n_lt
  refine strlen_eq (fun x lt => ?_) ?_ (by omega)
  · rw [Nat.add_assoc]
    exact h.text (k + x) (by omega)
  · rw [Nat.add_assoc, Nat.add_sub_cancel' le]
    exact h.nul

/-- A command that leaves the slot a string. -/
theorem keeps_intro {i n : Nat} (i_le : i ≤ n) (n_lt : n < N)
    (text : ∀ x, x < n → mem (e.buf + x) ≠ 0) (nul : mem (e.buf + n) = 0) (le : j ≤ e.last)
    (frame : ∀ a, a < e.buf ∨ e.buf + N ≤ a → mem a = e.mem a) :
    Editor.InSlot ⟨mem, e.buf, e.last, j, i, n⟩ ∧ e.Keeps ⟨mem, e.buf, e.last, j, i, n⟩ :=
  ⟨⟨i_le, n_lt, text, nul⟩, rfl, rfl, le, frame⟩

theorem kill_keeps (h : e.InSlot) (placed : e.Placed) :
    ∃ e', e.kill = .ok e' ∧ e'.InSlot ∧ e.Keeps e' := by
  have room := placed.room
  obtain ⟨i_le, n_lt, text, nul⟩ := h
  have shorter : ∀ x, x < e.i → Function.update e.mem (e.buf + e.i) 0 (e.buf + x) ≠ 0 := by
    intro x lt
    rw [Function.update_of_ne (by omega)]
    exact text x (by omega)
  have len : strlen (Function.update e.mem (e.buf + e.i) 0) e.buf = .ok e.i :=
    strlen_eq shorter (Function.update_self ..) (by omega)
  refine ⟨⟨Function.update e.mem (e.buf + e.i) 0, e.buf, e.last, e.j, e.i, e.i⟩, ?_,
    keeps_intro le_rfl (by omega) shorter (Function.update_self ..) placed.j fun a out => ?_⟩
  · simp only [Editor.kill, put_ok (show e.buf + e.i < H * N by omega), len, bind, Except.bind, pure,
      Except.pure]
  · exact Function.update_of_ne (by omega) _ _

/-- The rest of the line moves over the byte at `p`. -/
theorem close_gap (h : e.InSlot) (placed : e.Placed) (lt : p < e.n) :
    ∃ mem, memmove e.mem (e.buf + p) (e.buf + (p + 1)) (e.n - (p + 1) + 1) = .ok mem ∧
      (∀ x, x < e.n - 1 → mem (e.buf + x) ≠ 0) ∧ mem (e.buf + (e.n - 1)) = 0 ∧
      ∀ a, a < e.buf ∨ e.buf + N ≤ a → mem a = e.mem a := by
  have room := placed.room
  obtain ⟨_, n_lt, text, nul⟩ := h
  obtain ⟨mem, ok, moved⟩ := memmove_ok e.mem e.buf p (p + 1) (e.n - (p + 1) + 1)
    (by omega) (by omega)
  refine ⟨mem, ok, fun x lt => ?_, ?_, fun a out => moved.frame (by omega) out⟩
  · by_cases left : x < p
    · rw [moved.outside x (Or.inl left)]
      exact text x (by omega)
    · rw [moved.inside x (by omega) (by omega)]
      exact text _ (by omega)
  · rw [moved.inside _ (by omega) (by omega), show e.n - 1 - p + (p + 1) = e.n by omega]
    exact nul

theorem delete_keeps (h : e.InSlot) (placed : e.Placed) :
    ∃ e', e.delete = .ok e' ∧ e'.InSlot ∧ e.Keeps e' := by
  have n_lt := h.n_lt
  by_cases more : e.n > e.i
  · have len : strlen e.mem (e.buf + (e.i + 1)) = .ok (e.n - (e.i + 1)) := h.strlen placed more
    obtain ⟨mem, ok, text, nul, frame⟩ := close_gap h placed more
    refine ⟨⟨mem, e.buf, e.last, e.j, e.i, e.n - 1⟩, ?_,
      keeps_intro (by omega) (by omega) text nul placed.j frame⟩
    rw [← Nat.add_assoc] at len ok
    simp only [Editor.delete, if_pos more, len, ok, bind, Except.bind, pure, Except.pure]
  · exact ⟨e, if_neg more, h, rfl, rfl, placed.j, fun _ _ => rfl⟩

theorem backspace_keeps (h : e.InSlot) (placed : e.Placed) :
    ∃ e', e.backspace = .ok e' ∧ e'.InSlot ∧ e.Keeps e' := by
  have n_lt := h.n_lt
  have i_le := h.i_le
  by_cases some_ : 0 < e.i
  · have len := h.strlen placed i_le
    obtain ⟨mem, ok, text, nul, frame⟩ := close_gap h placed (p := e.i - 1) (by omega)
    refine ⟨⟨mem, e.buf, e.last, e.j, e.i - 1, e.n - 1⟩, ?_,
      keeps_intro (by omega) (by omega) text nul placed.j frame⟩
    rw [Nat.sub_add_cancel some_, ← Nat.add_sub_assoc some_] at ok
    simp only [Editor.backspace, if_pos some_, len, ok, bind, Except.bind, pure, Except.pure]
  · exact ⟨e, if_neg some_, h, rfl, rfl, placed.j, fun _ _ => rfl⟩

theorem blank_keeps (h : e.InSlot) (placed : e.Placed) (fits : e.n + 1 < N) :
    ∃ e', e.blank = .ok e' ∧ e'.InSlot ∧ e.Keeps e' := by
  have room := placed.room
  have len := h.strlen placed h.i_le
  obtain ⟨i_le, n_lt, text, nul⟩ := h
  obtain ⟨mem, ok, moved⟩ := memmove_ok e.mem e.buf (e.i + 1) e.i (e.n - e.i + 1)
    (by omega) (by omega)
  rw [← Nat.add_assoc] at ok
  have stored : put mem (e.buf + e.i) 32 = .ok (Function.update mem (e.buf + e.i) 32) :=
    put_ok (by omega)
  refine ⟨⟨Function.update mem (e.buf + e.i) 32, e.buf, e.last, e.j, e.i + 1, e.n + 1⟩, ?_,
    keeps_intro (by omega) fits (fun x lt => ?_) ?_ placed.j fun a out => ?_⟩
  · simp only [Editor.blank, if_pos (show N > e.n from n_lt), len, ok, stored, bind, Except.bind,
      pure, Except.pure]
  · rcases Nat.lt_trichotomy x e.i with left | rfl | right
    · rw [Function.update_of_ne (by omega), moved.outside x (by omega)]
      exact text x (by omega)
    · rw [Function.update_self]
      decide
    · rw [Function.update_of_ne (by omega), moved.inside x (by omega) (by omega)]
      exact text _ (by omega)
  · rw [Function.update_of_ne (by omega), moved.inside _ (by omega) (by omega),
      show e.n + 1 - (e.i + 1) + e.i = e.n by omega]
    exact nul
  · rw [Function.update_of_ne (by omega)]
    exact moved.frame (by omega) out

theorem print_keeps (h : e.InSlot) (placed : e.Placed) (printable : isprint k = true) :
    ∃ e', e.print k = .ok e' ∧ e'.InSlot ∧ e.Keeps e' := by
  have room := placed.room
  have nonzero : UInt8.ofNat k ≠ 0 := by
    simp only [isprint, Bool.and_eq_true, decide_eq_true_eq] at printable
    intro zero
    have := congrArg UInt8.toNat zero
    rw [UInt8.toNat_ofNat', UInt8.toNat_zero] at this
    omega
  by_cases fits : e.n + 1 < N
  · have len := h.strlen placed h.i_le
    obtain ⟨i_le, n_lt, text, nul⟩ := h
    obtain ⟨mem, ok, moved⟩ := memmove_ok e.mem e.buf (e.i + 1) e.i (e.n - e.i)
      (by omega) (by omega)
    rw [← Nat.add_assoc] at ok
    -- at the end of the line nothing is moved
    have shifted : (if e.i < e.n then do
          let len ← strlen e.mem (e.buf + e.i)
          memmove e.mem (e.buf + e.i + 1) (e.buf + e.i) len
        else pure e.mem) = .ok mem := by
      split_ifs with inner
      · simp only [len, bind, Except.bind, ok]
      · have same : mem = e.mem := by
          rw [show e.n - e.i = 0 by omega, memmove, if_pos (by omega)] at ok
          exact (Except.ok.inj ok).symm
        rw [same]
        rfl
    set char := Function.update mem (e.buf + e.i) (UInt8.ofNat k) with char_eq
    have stored : put mem (e.buf + e.i) (UInt8.ofNat k) = .ok char := put_ok (by omega)
    have closed : put char (e.buf + (e.n + 1)) 0 =
        .ok (Function.update char (e.buf + (e.n + 1)) 0) := put_ok (by omega)
    refine ⟨⟨Function.update char (e.buf + (e.n + 1)) 0, e.buf, e.last, e.j, e.i + 1, e.n + 1⟩, ?_,
      keeps_intro (by omega) fits (fun x lt => ?_) (Function.update_self ..) placed.j
        fun a out => ?_⟩
    · rw [Editor.print, if_pos fits, shifted]
      simp only [bind, Except.bind, stored, closed, pure, Except.pure]
    · rw [Function.update_of_ne (by omega)]
      rcases Nat.lt_trichotomy x e.i with left | rfl | right
      · rw [char_eq, Function.update_of_ne (by omega), moved.outside x (by omega)]
        exact text x (by omega)
      · rw [char_eq, Function.update_self]
        exact nonzero
      · rw [char_eq, Function.update_of_ne (by omega), moved.inside x (by omega) (by omega)]
        exact text _ (by omega)
    · rw [Function.update_of_ne (by omega), char_eq, Function.update_of_ne (by omega)]
      exact moved.frame (by omega) out
  · exact ⟨e, if_neg fits, h, rfl, rfl, placed.j, fun _ _ => rfl⟩

/-- What `strncpy` copies: the bytes before the first zero byte, and at most `len`. -/
theorem takeWhile_read (mem : Mem) (p len : Nat) :
    let text := (mem.read p len).takeWhile (· ≠ 0)
    text.length ≤ len ∧ (∀ x, x < text.length → text[x]? = some (mem (p + x)) ∧ mem (p + x) ≠ 0) ∧
      (text.length < len → mem (p + text.length) = 0) := by
  induction len generalizing p with
  | zero => simp [Mem.read]
  | succ len ih =>
    by_cases first : mem p = 0
    · simp [Mem.read, first]
    · obtain ⟨le, text, nul⟩ := ih (p + 1)
      simp only [Mem.read, List.takeWhile_cons, first, ne_eq, not_false_eq_true, decide_true,
        if_true, List.length_cons]
      refine ⟨Nat.succ_le_succ le, fun x lt => ?_, fun lt => ?_⟩
      · cases x with
        | zero => exact ⟨rfl, first⟩
        | succ x =>
          rw [List.getElem?_cons_succ, ← Nat.add_assoc, Nat.add_right_comm]
          exact text x (Nat.lt_of_succ_lt_succ lt)
      · rw [← Nat.add_assoc, Nat.add_right_comm]
        exact nul (Nat.lt_of_succ_lt_succ lt)

/-- A string of `n` bytes that was copied and padded. -/
structure Copied (mem mem' : Mem) (dst src len n : Nat) : Prop where
  le : n ≤ len
  text : ∀ x, x < n → mem' (dst + x) = mem (src + x) ∧ mem (src + x) ≠ 0
  padding : ∀ x, n ≤ x → x < len → mem' (dst + x) = 0
  ends : n < len → mem (src + n) = 0
  frame : ∀ a, a < dst ∨ dst + len ≤ a → mem' a = mem a

theorem strncpy_ok (mem : Mem) (dst src len : Nat) (target : dst + len ≤ H * N) (source : src + len ≤ H * N) :
    ∃ mem' n, strncpy mem dst src len = .ok mem' ∧ Copied mem mem' dst src len n := by
  obtain ⟨le, text, nul⟩ := takeWhile_read mem src len
  set bytes := (mem.read src len).takeWhile (· ≠ 0) with bytes_eq
  refine ⟨_, bytes.length, if_pos ⟨target, source⟩, le, fun x lt => ⟨?_, (text x lt).2⟩,
    fun x ge lt => ?_, nul, fun a out => ?_⟩
  · refine mem.write_inside ?_
    rw [← bytes_eq, List.getElem?_append_left lt]
    exact (text x lt).1
  · refine mem.write_inside ?_
    rw [← bytes_eq, List.getElem?_append_right ge, List.getElem?_replicate, if_pos (by omega)]
  · refine mem.write_outside ?_
    rw [← bytes_eq, List.length_append, List.length_replicate]
    omega

theorem Editor.InSlot.terminated (h : e.InSlot) (placed : e.Placed) : Terminated e.mem e.last :=
  ⟨e.n, h.n_lt, by rw [← placed.buf]; exact h.nul⟩

/-- The copy of the line in another slot. -/
theorem recall_copies (h : e.InSlot) (placed : e.Placed) (lt : j < e.last) :
    ∃ mem n, Copied (Function.update e.mem e.buf 0) mem e.buf (j * N) N n ∧
      e.recall j = (strlen mem e.buf).map fun n => ⟨mem, e.buf, e.last, j, n, n⟩ := by
  have room := placed.room
  have small : j < H := Nat.lt_trans lt placed.last
  have pos : 0 < N := Nat.zero_lt_of_lt h.n_lt
  have other : e.buf ≠ j * N := by
    rw [placed.buf]
    have := slots_apart (Nat.ne_of_lt lt)
    omega
  obtain ⟨mem, n, ok, copied⟩ := strncpy_ok (Function.update e.mem e.buf 0) e.buf (j * N) N
    room (slot_le small)
  refine ⟨mem, n, copied, ?_⟩
  simp only [Editor.recall, put_ok (show e.buf < H * N by omega), slot_ok small, if_pos other, ok,
    bind, Except.bind, pure, Except.pure]
  cases strlen mem e.buf <;> rfl

/-- A slot that is read while another one was changed. -/
theorem update_slot (placed : e.Placed) (lt : j < e.last) {x : Nat} (inside : x < N) :
    Function.update e.mem e.buf 0 (j * N + x) = e.mem (j * N + x) := by
  have := slots_apart (Nat.ne_of_lt lt)
  rw [placed.buf]
  exact Function.update_of_ne (by omega) _ _

theorem recall_keeps (h : e.InSlot) (placed : e.Placed) (le : j ≤ e.last)
    (string : Terminated e.mem j) : ∃ e', e.recall j = .ok e' ∧ e'.InSlot ∧ e.Keeps e' := by
  have room := placed.room
  have pos : 0 < N := Nat.zero_lt_of_lt h.n_lt
  rcases Nat.lt_or_eq_of_le le with lt | rfl
  · obtain ⟨mem, n, copied, recalled⟩ := recall_copies h placed lt
    have n_lt : n < N := by
      by_contra full
      obtain ⟨x, inside, zero⟩ := string
      refine (copied.text x (by omega)).2 ?_
      rw [update_slot placed lt inside, zero]
    have text : ∀ x, x < n → mem (e.buf + x) ≠ 0 := fun x lt => by
      rw [(copied.text x lt).1]
      exact (copied.text x lt).2
    have nul : mem (e.buf + n) = 0 := copied.padding n le_rfl n_lt
    rw [strlen_eq text nul (by omega)] at recalled
    refine ⟨_, recalled, keeps_intro le_rfl n_lt text nul le fun a out => ?_⟩
    rw [copied.frame a out]
    exact Function.update_of_ne (by omega) _ _
  · -- the slot of the line itself is only emptied
    have emptied : Function.update e.mem e.buf 0 (e.buf + 0) = 0 := Function.update_self ..
    have len : strlen (Function.update e.mem e.buf 0) e.buf = .ok 0 :=
      strlen_eq (by simp) emptied (by omega)
    refine ⟨⟨Function.update e.mem e.buf 0, e.buf, e.last, e.last, 0, 0⟩, ?_,
      keeps_intro le_rfl pos (by simp) emptied le_rfl fun a out => ?_⟩
    · simp only [Editor.recall, put_ok (show e.buf < H * N by omega), slot_ok placed.last,
        ← placed.buf, ne_eq, not_true, if_false, len, bind, Except.bind, pure, Except.pure]
    · exact Function.update_of_ne (by omega) _ _

theorem recall_breaks (h : e.InSlot) (placed : e.Placed) (le : j ≤ e.last)
    (open_ : ¬ Terminated e.mem j) (ok : e.recall j = .ok e') : ¬ e'.InSlot := by
  intro inSlot
  have lt : j < e.last := by
    refine Nat.lt_of_le_of_ne le ?_
    rintro rfl
    exact open_ (h.terminated placed)
  obtain ⟨mem, n, copied, recalled⟩ := recall_copies h placed lt
  have full : n = N := by
    by_contra short
    have n_lt : n < N := Nat.lt_of_le_of_ne copied.le short
    refine open_ ⟨n, n_lt, ?_⟩
    rw [← update_slot placed lt n_lt]
    exact copied.ends n_lt
  rw [recalled] at ok
  cases len : strlen mem e.buf with
  | error f => simp [len, Except.map] at ok
  | ok l =>
    simp only [len, Except.map, Except.ok.injEq] at ok
    subst ok
    have n_lt : l < n := by rw [full]; exact inSlot.n_lt
    have text := copied.text l n_lt
    exact text.2 (text.1.symm.trans inSlot.nul)

theorem bind_eq_ok {α β : Type} {x : Except Fault α} {f : α → Except Fault β} {r : β} :
    x >>= f = .ok r ↔ ∃ a, x = .ok a ∧ f a = .ok r := by
  cases x <;> simp [bind, Except.bind]

/-- A blank on a full line counts the byte behind the slot. -/
theorem blank_breaks (h : e.InSlot) (full : ¬ e.n + 1 < N) (ok : e.blank = .ok e') :
    ¬ e'.InSlot := by
  intro inSlot
  have n_lt : N > e.n := h.n_lt
  simp only [Editor.blank, if_pos n_lt, bind_eq_ok, pure, Except.pure, Except.ok.injEq] at ok
  obtain ⟨_, _, _, _, _, _, rfl⟩ := ok
  exact full inSlot.n_lt

/-- When a key keeps the line in its slot: no blank is typed on a full line, and a slot that is
recalled holds a string. -/
def Editor.Accepts (e : Editor) : Key → Prop
  | .escape c => (c = 65 → 0 < e.j → Terminated e.mem (e.j - 1)) ∧
      (c = 66 → e.last > e.j → Terminated e.mem (e.j + 1))
  | .code k => k = 32 ∨ k = 9 → e.n + 1 < N

theorem press_keeps (h : e.InSlot) (placed : e.Placed) {key : Key} (accepts : e.Accepts key) :
    ∃ e', e.press key = .ok e' ∧ e'.InSlot ∧ e.Keeps e' := by
  have same : ∃ e', (pure e : Except Fault Editor) = .ok e' ∧ e'.InSlot ∧ e.Keeps e' :=
    ⟨e, rfl, h, rfl, rfl, placed.j, fun _ _ => rfl⟩
  have cursor : ∀ i, i ≤ e.n → ∃ e', (pure { e with i := i } : Except Fault Editor) = .ok e' ∧
      e'.InSlot ∧ e.Keeps e' := fun i le =>
    ⟨_, rfl, ⟨le, h.n_lt, h.text, h.nul⟩, rfl, rfl, placed.j, fun _ _ => rfl⟩
  have i_le := h.i_le
  cases key with
  | escape c =>
    simp only [Editor.press]
    split_ifs with up more down more right inner left inner
    · exact recall_keeps h placed (Nat.le_trans (Nat.sub_le _ 1) placed.j) (accepts.1 up more)
    · exact same
    · exact recall_keeps h placed more (accepts.2 down more)
    · exact same
    · exact cursor _ inner
    · exact cursor _ le_rfl
    · exact cursor _ (by omega)
    · exact cursor _ (Nat.zero_le _)
    · exact same
  | code k =>
    simp only [Editor.press]
    split_ifs with kill clear delete back blank newline printable
    · exact kill_keeps h placed
    · exact same
    · exact delete_keeps h placed
    · exact backspace_keeps h placed
    · exact blank_keeps h placed (accepts blank)
    · exact same
    · exact print_keeps h placed printable
    · exact same

theorem press_breaks (h : e.InSlot) (placed : e.Placed) {key : Key} (not : ¬ e.Accepts key)
    (ok : e.press key = .ok e') : ¬ e'.InSlot := by
  cases key with
  | escape c =>
    by_cases up : c = 65
    · subst up
      obtain ⟨more, open_⟩ : 0 < e.j ∧ ¬ Terminated e.mem (e.j - 1) := by
        simpa [Editor.Accepts] using not
      simp only [Editor.press, if_true, if_pos more] at ok
      exact recall_breaks h placed (Nat.le_trans (Nat.sub_le _ 1) placed.j) open_ ok
    · obtain ⟨down, more, open_⟩ : c = 66 ∧ e.last > e.j ∧ ¬ Terminated e.mem (e.j + 1) := by
        simpa [Editor.Accepts, up] using not
      simp only [Editor.press, if_neg up, if_pos down, if_pos more] at ok
      exact recall_breaks h placed more open_ ok
  | code k =>
    obtain ⟨blank, full⟩ : (k = 32 ∨ k = 9) ∧ ¬ e.n + 1 < N := by
      simpa [Editor.Accepts] using not
    have press : e.press (.code k) = e.blank := by
      rcases blank with rfl | rfl <;> rfl
    rw [press] at ok
    exact blank_breaks h full ok

theorem edit_concat {keys : List Key} {key : Key} :
    e.edit (keys ++ [key]) = .ok e' ↔ ∃ e₁, e.edit keys = .ok e₁ ∧ e₁.press key = .ok e' := by
  induction keys generalizing e with
  | nil => simp [Editor.edit, bind_eq_ok, pure, Except.pure]
  | cons first keys ih =>
    simp only [List.cons_append, Editor.edit, bind_eq_ok, ih]
    constructor
    · rintro ⟨a, press, e₁, edit, last⟩
      exact ⟨e₁, ⟨a, press, edit⟩, last⟩
    · rintro ⟨e₁, ⟨a, press, edit⟩, last⟩
      exact ⟨a, press, e₁, edit, last⟩

/-- The line stays in its slot through each of the keys. -/
def Editor.Stays (e : Editor) (keys : List Key) : Prop :=
  ∀ before after, keys = before ++ after → ∃ e', e.edit before = .ok e' ∧ e'.InSlot

/-- Each key is accepted where it is typed. -/
def Editor.AcceptsAll (e : Editor) (keys : List Key) : Prop :=
  Steps (fun before key => ∀ e', e.edit before = .ok e' → e'.Accepts key) keys

theorem edit_keeps (h : e.InSlot) (placed : e.Placed) {keys : List Key}
    (accepts : e.AcceptsAll keys) : ∃ e', e.edit keys = .ok e' ∧ e'.InSlot ∧ e.Keeps e' := by
  induction keys using List.reverseRecOn with
  | nil => exact ⟨e, rfl, h, rfl, rfl, placed.j, fun _ _ => rfl⟩
  | append_singleton keys key ih =>
    obtain ⟨accepts, last⟩ := steps_append.mp accepts
    obtain ⟨e₁, edit, inSlot, keeps⟩ := ih accepts
    obtain ⟨e', press, inSlot', keeps'⟩ :=
      press_keeps inSlot (keeps.placed placed) (last e₁ edit)
    refine ⟨e', edit_concat.mpr ⟨e₁, edit, press⟩, inSlot', keeps'.buf.trans keeps.buf,
      keeps'.last.trans keeps.last, keeps'.j.trans_eq keeps.last, fun a out => ?_⟩
    rw [keeps'.frame a (by rw [keeps.buf]; exact out), keeps.frame a out]

theorem edit_stays_iff (h : e.InSlot) (placed : e.Placed) (keys : List Key) :
    e.Stays keys ↔ e.AcceptsAll keys := by
  constructor
  · intro stays
    induction keys using List.reverseRecOn with
    | nil => exact Steps.nil
    | append_singleton keys key ih =>
      have accepts : e.AcceptsAll keys := ih fun before after split =>
        stays before (after ++ [key]) (by rw [split, List.append_assoc])
      refine steps_append.mpr ⟨accepts, fun e₁ edit => ?_⟩
      obtain ⟨e₂, edit₂, inSlot, keeps⟩ := edit_keeps h placed accepts
      obtain rfl := Except.ok.inj (edit₂.symm.trans edit)
      obtain ⟨e', whole, inSlot'⟩ := stays (keys ++ [key]) [] (by simp)
      obtain ⟨e₃, edit₃, press⟩ := edit_concat.mp whole
      obtain rfl := Except.ok.inj (edit₃.symm.trans edit)
      by_contra not
      exact press_breaks inSlot (keeps.placed placed) not press inSlot'
  · intro accepts before after split
    have accepts : e.AcceptsAll before := fun before' key after' split' =>
      accepts before' key (after' ++ after) (by rw [split, split', List.append_assoc, List.cons_append])
    obtain ⟨e', edit, inSlot, _⟩ := edit_keeps h placed accepts
    exact ⟨e', edit, inSlot⟩

end

/-- The condition of `read_line` on its slot. -/
theorem editor_inSlot {s : State} (inside : s.n < H) (string : Terminated s.history s.n) :
    ∃ e, s.editor = .ok e ∧ e.InSlot ∧ e.Placed ∧ e.mem = s.history ∧ e.last = s.n := by
  have room := slot_le inside
  obtain ⟨lt, nul⟩ := Nat.find_spec string
  set n := Nat.find string with n_eq
  have text : ∀ x, x < n → s.history (s.n * N + x) ≠ 0 := fun x less zero =>
    Nat.find_min string less ⟨Nat.lt_trans less lt, zero⟩
  refine ⟨⟨s.history, s.n * N, s.n, s.n, n, n⟩, ?_, ⟨le_rfl, lt, text, nul⟩, ⟨rfl, inside, le_rfl⟩,
    rfl, rfl⟩
  simp only [State.editor, slot_ok inside, strlen_eq text nul (by omega), bind, Except.bind, pure,
    Except.pure]

theorem edit_of_editor {s : State} {e : Editor} (start : s.editor = .ok e) (keys : List Key) :
    s.edit keys = e.edit keys := by
  simp only [State.edit, start, bind, Except.bind]

def fullLine : List Key := List.replicate 159 (.code 97)

/-- A blank behind 159 letters. -/
theorem full_line_blank : (¬ ∀ (s : State) (keys : List Key), s.n < H → Terminated s.history s.n →
      ∃ e, s.edit keys = .ok e ∧ e.InSlot) ∧
    ∃ e, State.edit ⟨0, 0, fun _ => 0⟩ (fullLine ++ [.code 32]) = .ok e ∧ e.n = N := by
  have run : (State.edit ⟨0, 0, fun _ => 0⟩ (fullLine ++ [.code 32])).toOption.map Editor.n =
      some N := by decide +kernel
  obtain ⟨e, ok, full⟩ : ∃ e, State.edit ⟨0, 0, fun _ => 0⟩ (fullLine ++ [.code 32]) = .ok e ∧
      e.n = N := by
    cases ok : State.edit ⟨0, 0, fun _ => 0⟩ (fullLine ++ [.code 32]) with
    | error f => simp [ok, Except.toOption] at run
    | ok e => exact ⟨e, rfl, by simpa [ok, Except.toOption] using run⟩
  refine ⟨fun all => ?_, e, ok, full⟩
  obtain ⟨e', ok', inSlot⟩ := all ⟨0, 0, fun _ => 0⟩ (fullLine ++ [.code 32]) (by decide)
    ⟨0, by decide, rfl⟩
  obtain rfl := Except.ok.inj (ok.symm.trans ok')
  exact absurd inSlot.n_lt (by rw [full]; exact Nat.lt_irrefl N)

/-- The line stays in its slot through all keys if and only if no blank is typed on a full line and
each slot that is recalled holds a string. -/
theorem read_line_in_slot_iff (s : State) (keys : List Key) (inside : s.n < H)
    (string : Terminated s.history s.n) :
    (∀ before after, keys = before ++ after → ∃ e, s.edit before = .ok e ∧ e.InSlot) ↔
      Steps (fun before key => ∀ e, s.edit before = .ok e → e.Accepts key) keys := by
  obtain ⟨e, start, inSlot, placed, _⟩ := editor_inSlot inside string
  simp only [edit_of_editor start]
  exact edit_stays_iff inSlot placed keys

theorem read_line_in_slot_iff_empty : ∃ e, State.edit ⟨0, 0, fun _ => 0⟩ [.code 97, .code 32] =
    .ok e ∧ e.InSlot := by
  have accepts : Steps (fun before key => ∀ e, State.edit ⟨0, 0, fun _ => 0⟩ before = .ok e →
      e.Accepts key) [.code 97, .code 32] := by
    have first : (State.edit ⟨0, 0, fun _ => 0⟩ [.code 97]).toOption.map Editor.n = some 1 := by
      decide +kernel
    have keys : [Key.code 97, .code 32] = ([] ++ [.code 97]) ++ [.code 32] := rfl
    rw [keys, steps_append, steps_append]
    refine ⟨⟨Steps.nil, ?_⟩, ?_⟩
    · exact fun e _ blank => absurd blank (by decide)
    · intro e ok _
      rw [List.nil_append] at ok
      rw [ok] at first
      have one : e.n = 1 := Option.some.inj first
      rw [one]
      decide
  exact (read_line_in_slot_iff ⟨0, 0, fun _ => 0⟩ [.code 97, .code 32] (by decide)
    ⟨0, by decide, rfl⟩).mpr accepts _ [] rfl

end OsProjects.Shell
