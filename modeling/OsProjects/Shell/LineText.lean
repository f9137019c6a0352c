import OsProjects.Library.Strings
import OsProjects.Library.Zipper
import OsProjects.Shell.LineSlot

/-!
# The text of the edited line

What the user of the editor sees: a line with a cursor, and the earlier lines that may be recalled.
Each key is a command of the zipper, and the moves of bytes in the slot do what it says.
-/
namespace OsProjects.Shell
open OsProjects.Library

/-- The line, and the place in the history that was recalled last. -/
structure View where
  j : Nat
  line : Zipper UInt8
  deriving DecidableEq, Repr

/-- An empty line behind the earlier ones. -/
def View.start (older : List Bytes) : View := ⟨older.length, .ofList []⟩

/-- The place behind the earlier lines has no text. -/
def View.recall (older : List Bytes) (j : Nat) : View := ⟨j, .ofList (older.getD j [])⟩

def View.press (older : List Bytes) (v : View) : Key → View
  | .escape c =>
    if c = 65 then if 0 < v.j then View.recall older (v.j - 1) else v
    else if c = 66 then if v.j < older.length then View.recall older (v.j + 1) else v
    else if c = 67 then ⟨v.j, v.line.right⟩
    else if c = 68 then ⟨v.j, v.line.left⟩
    else v
  | .code k =>
    if k = 11 then ⟨v.j, v.line.cut⟩
    else if k = 4 then ⟨v.j, v.line.delete⟩
    else if k = 8 ∨ k = 127 then ⟨v.j, v.line.erase⟩
    else if k = 32 ∨ k = 9 then ⟨v.j, v.line.insert 32⟩
    else if isprint k ∧ v.line.text.length + 1 < N then ⟨v.j, v.line.insert (UInt8.ofNat k)⟩
    else v

def View.edit (older : List Bytes) (v : View) (keys : List Key) : View := keys.foldl (press older) v

/-- No blank is typed on a full line. -/
def View.Fits (older : List Bytes) : View → List Key → Prop
  | _, [] => True
  | v, key :: keys =>
    (key = .code 32 ∨ key = .code 9 → v.line.text.length + 1 < N) ∧
      View.Fits older (v.press older key) keys

def decideFits (older : List Bytes) : ∀ keys v, Decidable (View.Fits older v keys)
  | [], _ => isTrue trivial
  | key :: keys, v =>
    have := decideFits older keys (v.press older key)
    inferInstanceAs (Decidable (_ ∧ View.Fits older (v.press older key) keys))

instance {older : List Bytes} {v : View} {keys : List Key} : Decidable (View.Fits older v keys) :=
  decideFits older keys v

/-- The editor holds the line of the view. -/
structure Editor.Shows (e : Editor) (v : View) : Prop where
  j : e.j = v.j
  i : e.i = v.line.before.length
  n : e.n = v.line.before.length + v.line.after.length
  short : v.line.before.length + v.line.after.length < N
  line : e.mem.Spells e.buf (v.line.before ++ v.line.after)

/-- The earlier lines stand in their slots. -/
def Older (mem : Mem) (older : List Bytes) : Prop :=
  ∀ (k : Nat) (t : Bytes), older[k]? = some t → mem.Spells (k * N) t ∧ t.length < N

section
variable {mem : Mem} {e e' : Editor} {v : View} {older : List Bytes} {p dst src len k : Nat} {t : Bytes}

theorem strlen_spells (h : mem.Spells p t) (inside : p + t.length < H * N) :
    strlen mem p = .ok t.length :=
  strlen_eq (fun _ lt => h.nonzero lt) h.nul inside

/-- A string that is moved with its zero byte. -/
theorem memmove_spells (h : mem.Spells src t) (target : dst + (t.length + 1) ≤ H * N)
    (source : src + (t.length + 1) ≤ H * N) :
    memmove mem dst src (t.length + 1) = .ok (mem.write dst (t ++ [0])) := by
  have text : mem.read src (t.length + 1) = t ++ [0] := by
    have holds := h.holds
    rwa [Mem.Holds, List.length_append, List.length_singleton] at holds
  rw [memmove, if_pos ⟨target, source⟩, text]

theorem takeWhile_spells (h : mem.Spells src t) (short : t.length < len) :
    (mem.read src len).takeWhile (· ≠ 0) = t := by
  obtain ⟨rest, rfl⟩ := Nat.exists_eq_add_of_lt short
  rw [Nat.add_assoc, mem.read_add, h.read, Nat.add_comm rest, mem.read_add, Mem.read, h.nul,
    List.takeWhile_append_of_pos]
  · simp [Mem.read]
  · intro x inside
    simp only [ne_eq, decide_eq_true_eq]
    rintro rfl
    exact h.ends inside

theorem strncpy_spells (h : mem.Spells src t) (short : t.length < len)
    (target : dst + len ≤ H * N) (source : src + len ≤ H * N) :
    strncpy mem dst src len = .ok (mem.write dst (t ++ List.replicate (len - t.length) 0)) := by
  simp only [strncpy, if_pos (And.intro target source), takeWhile_spells h short]

theorem Editor.Shows.inSlot (h : e.Shows v) : e.InSlot where
  i_le := by rw [h.i, h.n]; omega
  n_lt := h.n ▸ h.short
  text x lt := h.line.nonzero (by rw [List.length_append, ← h.n]; exact lt)
  nul := by
    have nul := h.line.nul
    rwa [List.length_append, ← h.n] at nul

/-- The rest of the line behind the cursor. -/
theorem Editor.Shows.behind (h : e.Shows v) : e.mem.Spells (e.buf + e.i) v.line.after := by
  rw [h.i]
  exact h.line.behind

theorem Editor.Shows.kill (h : e.Shows v) (placed : e.Placed) :
    ∃ e', e.kill = .ok e' ∧ e'.Shows ⟨v.j, v.line.cut⟩ := by
  have room := placed.room
  have short := h.short
  have place : e.buf + e.i < H * N := by rw [h.i]; omega
  have line : Mem.Spells (Function.update e.mem (e.buf + e.i) 0) e.buf v.line.before := by
    have cut := h.line.splice (c := []) List.not_mem_nil
    rwa [List.append_nil, ← h.i] at cut
  have length : strlen (Function.update e.mem (e.buf + e.i) 0) e.buf = .ok e.i := by
    rw [h.i]
    rw [h.i] at line place
    exact strlen_spells line place
  refine ⟨{ e with mem := Function.update e.mem (e.buf + e.i) 0, i := e.i, n := e.i }, ?_,
    ⟨h.j, h.i, h.i, ?_, ?_⟩⟩
  · simp only [Editor.kill, put_ok place, length, bind, Except.bind, pure, Except.pure]
  · exact Nat.lt_of_le_of_lt (Nat.le_add_right _ _) short
  · rw [Zipper.cut, List.append_nil]
    exact line

theorem Editor.Shows.delete (h : e.Shows v) (placed : e.Placed) :
    ∃ e', e.delete = .ok e' ∧ e'.Shows ⟨v.j, v.line.delete⟩ := by
  have room := placed.room
  obtain ⟨v_j, before, after⟩ := v
  obtain ⟨j, i, n, short, line⟩ := h
  simp only at i n short line
  cases after with
  | nil =>
    refine ⟨e, if_neg ?_, ⟨j, i, n, short, line⟩⟩
    simp [i, n]
  | cons x rest =>
    rw [List.length_cons] at n short
    have tail : e.mem.Spells (e.buf + e.i + 1) rest := by
      rw [i, Nat.add_assoc]
      have pieces : before ++ x :: rest = (before ++ [x]) ++ rest := by simp
      rw [pieces] at line
      simpa using line.behind
    have length := strlen_spells tail (by omega)
    have moved := memmove_spells tail (show e.buf + e.i + (rest.length + 1) ≤ H * N by omega) (by omega)
    have spliced := line.splice (c := rest) fun mem => line.ends (by simp [mem])
    rw [← i] at spliced
    refine ⟨{ e with mem := e.mem.write (e.buf + e.i) (rest ++ [0]), n := e.n - 1 }, ?_,
      ⟨j, i, ?_, ?_, spliced⟩⟩
    · simp only [Editor.delete, if_pos (show e.n > e.i by omega), length, moved, bind, Except.bind,
        pure, Except.pure]
    · simp only [Zipper.delete, List.tail_cons]
      omega
    · simp only [Zipper.delete, List.tail_cons]
      omega

theorem Editor.Shows.backspace (h : e.Shows v) (placed : e.Placed) :
    ∃ e', e.backspace = .ok e' ∧ e'.Shows ⟨v.j, v.line.erase⟩ := by
  have room := placed.room
  have behind := h.behind
  obtain ⟨v_j, before, after⟩ := v
  obtain ⟨j, i, n, short, line⟩ := h
  simp only at i n short line behind
  rcases List.eq_nil_or_concat before with rfl | ⟨first, x, rfl⟩
  · refine ⟨e, if_neg ?_, ⟨j, i, n, short, line⟩⟩
    simp [i]
  · rw [List.concat_eq_append] at i n short line
    rw [List.length_append, List.length_singleton] at i n short
    have length := strlen_spells behind (by omega)
    have moved := memmove_spells behind
      (show e.buf + e.i - 1 + (after.length + 1) ≤ H * N by omega) (by omega)
    have place : e.buf + e.i - 1 = e.buf + first.length := by omega
    rw [List.append_assoc] at line
    have spliced := line.splice (c := after) fun mem => line.ends (by simp [mem])
    rw [← place] at spliced
    refine ⟨⟨e.mem.write (e.buf + e.i - 1) (after ++ [0]), e.buf, e.last, e.j, e.i - 1, e.n - 1⟩,
      ?_, ⟨j, ?_, ?_, ?_, ?_⟩⟩
    · simp only [Editor.backspace, if_pos (show 0 < e.i by omega), length, moved, bind, Except.bind,
        pure, Except.pure]
    · simp only [Zipper.erase, List.concat_eq_append, List.dropLast_concat]
      omega
    · simp only [Zipper.erase, List.concat_eq_append, List.dropLast_concat]
      omega
    · simp only [Zipper.erase, List.concat_eq_append, List.dropLast_concat]
      omega
    · simp only [Zipper.erase, List.concat_eq_append, List.dropLast_concat]
      exact spliced

/-- The line with a byte put at the cursor. -/
theorem Editor.Shows.inserted {x : UInt8} {i n : Nat} (h : e.Shows v) (nonzero : x ≠ 0)
    (fits : v.line.text.length + 1 < N) (i_eq : i = e.i + 1) (n_eq : n = e.n + 1) :
    Editor.Shows { e with mem := e.mem.write (e.buf + e.i) (x :: v.line.after ++ [0]), i := i, n := n }
      ⟨v.j, v.line.insert x⟩ := by
  rw [Zipper.text, List.length_append] at fits
  have ends : (0 : UInt8) ∉ x :: v.line.after := by
    simp only [List.mem_cons, not_or]
    exact ⟨fun zero => nonzero zero.symm, fun mem => h.line.ends (by simp [mem])⟩
  have spliced := h.line.splice ends
  rw [← h.i] at spliced
  have i_before := h.i
  have n_before := h.n
  refine ⟨h.j, ?_, ?_, ?_, ?_⟩
  · simp only [Zipper.insert, List.length_append, List.length_singleton]
    omega
  · simp only [Zipper.insert, List.length_append, List.length_singleton]
    omega
  · simp only [Zipper.insert, List.length_append, List.length_singleton]
    omega
  · simpa only [Zipper.insert, List.append_assoc, List.singleton_append] using spliced

theorem Editor.Shows.blank (h : e.Shows v) (placed : e.Placed) (fits : v.line.text.length + 1 < N) :
    ∃ e', e.blank = .ok e' ∧ e'.Shows ⟨v.j, v.line.insert 32⟩ := by
  have room := placed.room
  have behind := h.behind
  have i := h.i
  have n := h.n
  have short := h.short
  have inserted := h.inserted (x := 32) (by decide) fits rfl rfl
  rw [Zipper.text, List.length_append] at fits
  have length := strlen_spells behind (by omega)
  have moved := memmove_spells behind
    (show e.buf + e.i + 1 + (v.line.after.length + 1) ≤ H * N by omega) (by omega)
  refine ⟨_, ?_, inserted⟩
  have stored : ∀ mem, put mem (e.buf + e.i) 32 = .ok (Function.update mem (e.buf + e.i) 32) :=
    fun _ => put_ok (by omega)
  simp only [Editor.blank, if_pos (show N > e.n by omega), length, moved, stored, bind, Except.bind,
    pure, Except.pure]
  rfl

theorem ofNat_ne_zero (printable : isprint k = true) : UInt8.ofNat k ≠ 0 := by
  simp only [isprint, Bool.and_eq_true, decide_eq_true_eq] at printable
  intro zero
  have := congrArg UInt8.toNat zero
  rw [UInt8.toNat_ofNat', UInt8.toNat_zero] at this
  omega

/-- The rest of the line is moved without its zero byte, which is written behind it. -/
theorem Editor.Shows.print (h : e.Shows v) (placed : e.Placed) (printable : isprint k = true)
    (fits : v.line.text.length + 1 < N) :
    ∃ e', e.print k = .ok e' ∧ e'.Shows ⟨v.j, v.line.insert (UInt8.ofNat k)⟩ := by
  have room := placed.room
  have behind := h.behind
  have i := h.i
  have n := h.n
  have inserted := h.inserted (ofNat_ne_zero printable) fits rfl rfl
  rw [Zipper.text, List.length_append] at fits
  have length := strlen_spells behind (by omega)
  have moved : (if e.i < e.n then do
        let len ← strlen e.mem (e.buf + e.i)
        memmove e.mem (e.buf + e.i + 1) (e.buf + e.i) len
      else pure e.mem) = .ok (e.mem.write (e.buf + e.i + 1) v.line.after) := by
    split_ifs with inner
    · simp only [length, bind, Except.bind, memmove,
        if_pos (show e.buf + e.i + 1 + v.line.after.length ≤ H * N ∧
          e.buf + e.i + v.line.after.length ≤ H * N by omega), behind.read]
    · have none_ : v.line.after = [] := List.eq_nil_of_length_eq_zero (by omega)
      rw [none_]
      rfl
  have stored : ∀ mem, put mem (e.buf + e.i) (UInt8.ofNat k) =
      .ok (Function.update mem (e.buf + e.i) (UInt8.ofNat k)) := fun _ => put_ok (by omega)
  have closed : ∀ mem, put mem (e.buf + (e.n + 1)) 0 =
      .ok (Function.update mem (e.buf + (e.n + 1)) 0) := fun _ => put_ok (by omega)
  have place : e.buf + (e.n + 1) = e.buf + e.i + (UInt8.ofNat k :: v.line.after).length := by
    rw [List.length_cons]
    omega
  refine ⟨_, ?_, inserted⟩
  rw [Editor.print, if_pos (show e.n + 1 < N by omega), moved]
  simp only [bind, Except.bind, stored, closed, pure, Except.pure]
  rw [Mem.write_concat, ← place]
  rfl

theorem Editor.Shows.print_full (h : e.Shows v) (full : ¬ v.line.text.length + 1 < N) :
    e.print k = .ok e := by
  rw [Zipper.text, List.length_append] at full
  refine if_neg ?_
  rw [h.n]
  exact full

/-- A slot below that of the line. -/
theorem Older.recalled (h : Older e.mem older) (placed : e.Placed) (last : e.last = older.length)
    (short : 0 < N) {j : Nat} (le : j ≤ e.last) :
    ∃ e', e.recall j = .ok e' ∧ e'.Shows (View.recall older j) := by
  have room := placed.room
  rcases Nat.lt_or_eq_of_le le with lt | rfl
  · obtain ⟨line, len⟩ := h j older[j] (List.getElem?_eq_getElem (by omega))
    have small : j < H := Nat.lt_trans lt placed.last
    have below := slot_le small
    have apart : j * N + N ≤ e.buf := by
      rw [placed.buf, ← Nat.succ_mul]
      exact Nat.mul_le_mul_right N lt
    set emptied : Mem := Function.update e.mem e.buf 0
    have line' : emptied.Spells (j * N) older[j] :=
      line.congr fun x ge le => Function.update_of_ne (by omega) _ _
    have copied := strncpy_spells line' len room below
    set mem := emptied.write e.buf (older[j] ++ List.replicate (N - older[j].length) 0)
    have shown : mem.Spells e.buf older[j] := by
      refine ⟨?_, line.ends⟩
      obtain ⟨rest, more⟩ := Nat.exists_eq_add_of_lt len
      have padding : older[j] ++ List.replicate (N - older[j].length) 0 =
          older[j] ++ [0] ++ List.replicate rest 0 := by
        rw [show N - older[j].length = rest + 1 by omega, List.replicate_succ,
          List.append_assoc, List.singleton_append]
      have whole : mem.Holds e.buf (older[j] ++ [0] ++ List.replicate rest 0) := by
        rw [← padding]
        exact Mem.holds_write
      exact (Mem.holds_append.mp whole).1
    have length := strlen_spells shown (by omega)
    have other : e.buf ≠ j * N := by omega
    have cleared : put e.mem e.buf 0 = .ok emptied := put_ok (by omega)
    have text : older.getD j [] = older[j] := by
      rw [List.getD_eq_getElem?_getD, List.getElem?_eq_getElem (by omega), Option.getD_some]
    refine ⟨{ e with mem := mem, j := j, i := older[j].length, n := older[j].length }, ?_, ?_⟩
    · simp only [Editor.recall, cleared, slot_ok small, if_pos other, copied, length, bind,
        Except.bind, pure, Except.pure]
    · rw [View.recall, text]
      exact ⟨rfl, rfl, rfl, len, by rwa [Zipper.ofList, List.append_nil]⟩
  · -- the slot of the line itself is only emptied
    have emptied : Mem.Spells (Function.update e.mem e.buf 0) e.buf [] :=
      Mem.spells_of Mem.holds_nil (Function.update_self ..) List.not_mem_nil
    have length := strlen_spells emptied (by simp only [List.length_nil]; omega)
    have none_ : older.getD e.last [] = [] := by
      rw [List.getD_eq_getElem?_getD, List.getElem?_eq_none (by omega), Option.getD_none]
    refine ⟨{ e with mem := Function.update e.mem e.buf 0, j := e.last, i := 0, n := 0 }, ?_, ?_⟩
    · simp only [Editor.recall, put_ok (show e.buf < H * N by omega), slot_ok placed.last,
        ← placed.buf, ne_eq, not_true, if_false, length, bind, Except.bind, pure, Except.pure,
        List.length_nil]
    · rw [View.recall, none_]
      exact ⟨rfl, rfl, rfl, short, emptied⟩

/-- What a key of the editor asks of the slots it recalls. -/
theorem Editor.Shows.accepts (h : e.Shows v) (placed : e.Placed) (lines : Older e.mem older)
    (last : e.last = older.length) {key : Key}
    (fits : key = .code 32 ∨ key = .code 9 → v.line.text.length + 1 < N) : e.Accepts key := by
  have terminated : ∀ j, j ≤ e.last → Terminated e.mem j := by
    intro j le
    rcases Nat.lt_or_eq_of_le le with lt | rfl
    · obtain ⟨line, short⟩ := lines j older[j] (List.getElem?_eq_getElem (by omega))
      exact ⟨_, short, line.nul⟩
    · exact h.inSlot.terminated placed
  have j := placed.j
  cases key with
  | escape c => exact ⟨fun _ _ => terminated _ (by omega), fun _ more => terminated _ more⟩
  | code k =>
    intro blank
    have fits := fits (by simpa using blank)
    rwa [Zipper.text, List.length_append, ← h.n] at fits

/-- The cursor moves and the line stays. -/
theorem Editor.Shows.move {line : Zipper UInt8} {i : Nat} (h : e.Shows v)
    (same : line.text = v.line.text) (cursor : i = line.before.length) :
    ∃ e', (pure { e with i := i } : Except Fault Editor) = .ok e' ∧ e'.Shows ⟨v.j, line⟩ := by
  have length := congrArg List.length same
  simp only [Zipper.text, List.length_append] at length
  refine ⟨_, rfl, h.j, cursor, h.n.trans length.symm, length ▸ h.short, ?_⟩
  have text := h.line
  rwa [← Zipper.text, ← same] at text

/-- Each key does to the slot what it does to the line. -/
theorem Editor.Shows.press (h : e.Shows v) (placed : e.Placed) (lines : Older e.mem older)
    (last : e.last = older.length) {key : Key}
    (fits : key = .code 32 ∨ key = .code 9 → v.line.text.length + 1 < N) :
    ∃ e', e.press key = .ok e' ∧ e'.Shows (v.press older key) := by
  obtain ⟨v_j, line⟩ := v
  obtain rfl : e.j = v_j := h.j
  have i : e.i = line.before.length := h.i
  have n : e.n = line.before.length + line.after.length := h.n
  have room := placed.j
  have short : 0 < N := Nat.zero_lt_of_lt h.short
  have same : ∃ e', (pure e : Except Fault Editor) = .ok e' ∧ e'.Shows ⟨e.j, line⟩ := ⟨e, rfl, h⟩
  cases key with
  | escape c =>
    simp only [Editor.press, View.press, ← last]
    split_ifs with up more down more right inner left inner
    · exact lines.recalled placed last short (by omega)
    · exact same
    · exact lines.recalled placed last short more
    · exact same
    · refine h.move line.text_right ?_
      simp only [Zipper.right, List.length_append, List.length_take]
      omega
    · refine h.move line.text_right ?_
      simp only [Zipper.right, List.length_append, List.length_take]
      omega
    · refine h.move line.text_left ?_
      simp only [Zipper.left, List.length_dropLast]
      omega
    · refine h.move line.text_left ?_
      simp only [Zipper.left, List.length_dropLast]
      omega
    · exact same
  | code k =>
    simp only [Editor.press, View.press]
    by_cases kill : k = 11
    · simp only [if_pos kill]
      exact h.kill placed
    by_cases clear : k = 12
    · subst clear
      exact same
    by_cases delete : k = 4
    · simp only [if_neg kill, if_neg clear, if_pos delete]
      exact h.delete placed
    by_cases back : k = 8 ∨ k = 127
    · simp only [if_neg kill, if_neg clear, if_neg delete, if_pos back]
      exact h.backspace placed
    by_cases blank : k = 32 ∨ k = 9
    · simp only [if_neg kill, if_neg clear, if_neg delete, if_neg back, if_pos blank]
      exact h.blank placed (fits (by simpa using blank))
    simp only [if_neg kill, if_neg clear, if_neg delete, if_neg back, if_neg blank]
    by_cases newline : k = 10
    · subst newline
      exact same
    simp only [if_neg newline]
    by_cases printable : isprint k
    · rw [if_pos printable]
      by_cases room : line.text.length + 1 < N
      · rw [if_pos ⟨printable, room⟩]
        exact h.print placed printable room
      · rw [if_neg (fun both => room both.2), h.print_full room]
        exact same
    · rw [if_neg printable, if_neg (fun both => printable both.1)]
      exact same

/-- What the editor leaves alone keeps the earlier lines. -/
theorem Older.kept (lines : Older e.mem older) (placed : e.Placed) (last : e.last = older.length)
    (frame : ∀ a, a < e.buf → mem a = e.mem a) : Older mem older := by
  intro k t inside
  obtain ⟨line, short⟩ := lines k t inside
  have lt : k < e.last := last ▸ (List.getElem?_eq_some_iff.mp inside).1
  have apart := slots_apart (Nat.ne_of_lt lt)
  have buf := placed.buf
  have below : k * N < e.last * N := Nat.mul_lt_mul_of_pos_right lt (by decide)
  exact ⟨line.congr fun x _ le => frame x (by omega), short⟩

/-- The line that stands in the slot after some keys is the one that the keys make of the view. -/
theorem Editor.Shows.edit (h : e.Shows v) (placed : e.Placed) (lines : Older e.mem older)
    (last : e.last = older.length) {keys : List Key} (fits : v.Fits older keys) :
    ∃ e', e.edit keys = .ok e' ∧ e'.Shows (v.edit older keys) ∧ e.Keeps e' := by
  induction keys generalizing e v with
  | nil => exact ⟨e, rfl, h, rfl, rfl, placed.j, fun _ _ => rfl⟩
  | cons key keys ih =>
    obtain ⟨here, later⟩ := fits
    obtain ⟨e₁, press, shows⟩ := h.press placed lines last here
    obtain ⟨e₂, press', _, keeps⟩ :=
      press_keeps h.inSlot placed (h.accepts placed lines last here)
    obtain rfl := Except.ok.inj (press.symm.trans press')
    obtain ⟨e', edit, shown, keeps'⟩ := ih shows (keeps.placed placed)
      (lines.kept placed last fun a lt => keeps.frame a (Or.inl lt)) (keeps.last.trans last) later
    refine ⟨e', by simp only [Editor.edit, press, bind, Except.bind, edit], shown,
      keeps'.buf.trans keeps.buf, keeps'.last.trans keeps.last, keeps'.j.trans_eq keeps.last,
      fun a out => ?_⟩
    rw [keeps'.frame a (by rw [keeps.buf]; exact out), keeps.frame a out]

end

end OsProjects.Shell
