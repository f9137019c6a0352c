import OsProjects.Shell.LineText
import OsProjects.Shell.History

/-!
# Sessions of the shell

The lines that are entered one after the other, and what the caller of `shell` does with them. The
caller may change the line in its slot, and what it leaves there is what a later recall shows. A
session is compared with one over a list of earlier lines, where a line is a text and no bytes are
moved.
-/
namespace OsProjects.Shell
open OsProjects.Library

/-- The loop of `shell` with the state behind `arg`; `fnc` gives the state, the table and whether it
has returned a value other than zero. -/
def State.loop {σ ε : Type} (fault : Fault → ε) (fnc : σ → Mem → Nat → Except ε (σ × Mem × Bool))
    (a : σ) (s : State) : List (List Key) → Except ε (σ × State)
  | [] => .ok (a, s)
  | keys :: lines => do
    let (s, line) ← (s.readLine keys).mapError fault
    match line with
    | none => State.loop fault fnc a s lines
    | some buf =>
      let (a, history, ends) ← fnc a s.history buf
      if ends then return (a, { s with history := history })
      else State.loop fault fnc a { s with history := history } lines

/-- The line that the keys give behind the earlier lines. -/
def typed (older : List Bytes) (keys : List Key) : Bytes :=
  trim isspace ((View.start older).edit older keys).line.text

/-- What a caller makes of a line: its state, the text it leaves in the slot, and whether it ends the
session. -/
structure Answer (α : Type) where
  next : α
  kept : Bytes
  ends : Bool

section
variable {α σ ε : Type}

/-- A session of a caller that works on texts, with the earlier lines. -/
def session (g : α → Bytes → Answer α) (x : α) (older : List Bytes) :
    List (List Key) → α × List Bytes
  | [] => (x, older)
  | keys :: lines =>
    let t := typed older keys
    if t = [] then session g x older lines
    else
      let y := g x t
      if y.ends then (y.next, older ++ [y.kept]) else session g y.next (older ++ [y.kept]) lines

/-- What is asked of the keys: no blank on a full line, fewer than `H` lines, and what the caller
needs. -/
def Ready (needs : α → Bytes → Prop) (g : α → Bytes → Answer α) (x : α) (older : List Bytes) :
    List (List Key) → Prop
  | [] => True
  | keys :: lines =>
    (View.start older).Fits older keys ∧
      (typed older keys = [] → Ready needs g x older lines) ∧
      (typed older keys ≠ [] → older.length + 1 < H ∧ needs x (typed older keys) ∧
        ((g x (typed older keys)).ends = false → Ready needs g (g x (typed older keys)).next
          (older ++ [(g x (typed older keys)).kept]) lines))

def decideReady (needs : α → Bytes → Prop) [∀ x t, Decidable (needs x t)]
    (g : α → Bytes → Answer α) : ∀ lines x older, Decidable (Ready needs g x older lines)
  | [], _, _ => isTrue trivial
  | keys :: lines, x, older =>
    have := decideReady needs g lines x older
    have := decideReady needs g lines (g x (typed older keys)).next
      (older ++ [(g x (typed older keys)).kept])
    inferInstanceAs (Decidable (_ ∧ (_ → Ready needs g x older lines) ∧
      (_ → _ ∧ _ ∧ (_ → Ready needs g (g x (typed older keys)).next
        (older ++ [(g x (typed older keys)).kept]) lines))))

instance {needs : α → Bytes → Prop} [∀ x t, Decidable (needs x t)] {g : α → Bytes → Answer α} {x : α}
    {older : List Bytes} {lines : List (List Key)} : Decidable (Ready needs g x older lines) :=
  decideReady needs g lines x older

/-- The caller does on the bytes of a slot what `g` does on a text. -/
def Serves (R : σ → α → Prop) (needs : α → Bytes → Prop)
    (fnc : σ → Mem → Nat → Except ε (σ × Mem × Bool)) (g : α → Bytes → Answer α) : Prop :=
  ∀ (a : σ) (x : α) (mem : Mem) (buf : Nat) (t : Bytes), R a x → needs x t → t ≠ [] →
    t.length < N → buf + N ≤ H * N → mem.Spells buf t →
      ∃ a' mem', fnc a mem buf = .ok (a', mem', (g x t).ends) ∧ R a' (g x t).next ∧
        mem'.Spells buf (g x t).kept ∧ (g x t).kept.length < N ∧
        ∀ p, p < buf ∨ buf + N ≤ p → mem' p = mem p

/-- The earlier lines stand in the table, and the slot behind them is empty. -/
structure State.Table (s : State) (older : List Bytes) : Prop where
  n : s.n = older.length
  inside : s.n < H
  lines : Older s.history older
  own : s.history.Spells (s.n * N) []

variable {mem : Mem} {p : Nat} {t : Bytes} {s : State} {older : List Bytes} {keys : List Key}

theorem shellStrtrim_spells (h : mem.Spells p t) (inside : p + t.length < H * N) :
    ∃ mem', shellStrtrim mem p = .ok mem' ∧ mem'.Spells p (trim isspace t) ∧
      ∀ a, a < p ∨ p + t.length < a → mem' a = mem a := by
  obtain ⟨within, piece, length⟩ := @take_drop_trim _ isspace t
  set b := (t.takeWhile isspace).length
  set e := t.length - (t.reverse.takeWhile isspace).length
  set n := if b < e then e - b else 0 with n_eq
  have text : mem.read (p + b) n = trim isspace t := by
    rw [← Mem.take_drop_read mem within, h.read, piece]
  have ends : (0 : UInt8) ∉ trim isspace t := fun zero => h.ends ((trim_sublist t).subset zero)
  have moved : memmove mem p (p + b) n = .ok (mem.write p (trim isspace t)) := by
    rw [memmove, if_pos (by omega), text]
  have closed : put (mem.write p (trim isspace t)) (p + n) 0 =
      .ok (mem.write p (trim isspace t ++ [0])) := by
    rw [put_ok (by omega), Mem.write_concat, length]
  refine ⟨_, ?_, ⟨Mem.holds_write, ends⟩, fun a out => mem.write_outside ?_⟩
  · simp only [shellStrtrim, strlen_spells h inside, h.read, bind, Except.bind]
    rw [← n_eq, moved]
    exact closed
  · rw [List.length_append, List.length_singleton, length]
    omega

theorem State.Table.start (h : s.Table older) :
    ∃ e, s.editor = .ok e ∧ e.Shows (View.start older) ∧ e.Placed ∧ e.mem = s.history ∧
      e.last = s.n := by
  have room := slot_le h.inside
  have pos : 0 < N := by decide
  have length := strlen_spells h.own (by simp only [List.length_nil]; omega)
  refine ⟨⟨s.history, s.n * N, s.n, s.n, 0, 0⟩, ?_, ⟨h.n, rfl, rfl, pos, h.own⟩,
    ⟨rfl, h.inside, le_rfl⟩, rfl, rfl⟩
  simp only [State.editor, slot_ok h.inside, length, List.length_nil, bind, Except.bind, pure,
    Except.pure]

/-- A line is edited and trimmed in its slot. -/
theorem State.Table.line (h : s.Table older) (fits : (View.start older).Fits older keys) :
    ∃ mem, s.line keys = .ok (⟨s.n, s.n, mem⟩, s.n * N, (typed older keys).length) ∧
      mem.Spells (s.n * N) (typed older keys) ∧ (typed older keys).length < N ∧
      Older mem older := by
  obtain ⟨e, start, shows, placed, mem_eq, last⟩ := h.start
  have lines : Older e.mem older := mem_eq ▸ h.lines
  have count : e.last = older.length := last.trans h.n
  obtain ⟨e', edit, shown, keeps⟩ := shows.edit placed lines count fits
  have buf : e'.buf = s.n * N := by rw [keeps.buf, placed.buf, last]
  have room := slot_le h.inside
  have text := shown.line
  have short := shown.short
  rw [← List.length_append] at short
  obtain ⟨mem, trimmed, spells, frame⟩ := shellStrtrim_spells text (by rw [buf]; omega)
  have less : (typed older keys).length < N :=
    Nat.lt_of_le_of_lt (trim_sublist _).length_le short
  rw [buf] at trimmed spells frame
  have length := strlen_spells spells (show _ + (typed older keys).length < _ by omega)
  refine ⟨mem, ?_, spells, less, (lines.kept placed count fun a lt => ?_)⟩
  · simp only [State.line, edit_of_editor start, edit, buf, trimmed, length, bind, Except.bind, pure,
      Except.pure]
    rfl
  · rw [placed.buf, last] at lt
    rw [frame a (Or.inl lt), keeps.frame a (Or.inl (by rw [placed.buf, last]; exact lt))]

/-- A blank line is no line. -/
theorem State.Table.readLine_blank (h : s.Table older) (fits : (View.start older).Fits older keys)
    (blank : typed older keys = []) :
    ∃ s', s.readLine keys = .ok (s', none) ∧ s'.Table older := by
  obtain ⟨mem, line, spells, _, lines⟩ := h.line fits
  rw [blank] at line spells
  refine ⟨⟨s.n, s.n, mem⟩, ?_, h.n, h.inside, lines, spells⟩
  simp only [State.readLine, line, bind, Except.bind, List.length_nil, ne_eq, not_true, if_false,
    pure, Except.pure]

/-- Any other line stands in its slot, and the slot behind it is emptied. -/
theorem State.Table.readLine_line (h : s.Table older) (fits : (View.start older).Fits older keys)
    (line : typed older keys ≠ []) (room : older.length + 1 < H) :
    ∃ mem, s.readLine keys = .ok (⟨s.n, s.n + 1, mem⟩, some (s.n * N)) ∧
      mem.Spells (s.n * N) (typed older keys) ∧ (typed older keys).length < N ∧
      Older mem older ∧ mem.Spells ((s.n + 1) * N) [] := by
  obtain ⟨mem, ok, spells, short, lines⟩ := h.line fits
  obtain ⟨mem', advance, rfl⟩ :=
    advance_inside (s := ⟨s.n, s.n, mem⟩) rfl (show s.n + 1 < H by rw [h.n]; exact room)
  have next : s.n * N + N = (s.n + 1) * N := (Nat.succ_mul _ _).symm
  have nonzero : (typed older keys).length ≠ 0 := fun zero =>
    line (List.eq_nil_of_length_eq_zero zero)
  refine ⟨Function.update mem ((s.n + 1) * N) 0, ?_,
    spells.congr fun x _ le => Function.update_of_ne (by omega) _ _, short, fun k t inside => ?_,
    Mem.spells_of Mem.holds_nil (Function.update_self ..) List.not_mem_nil⟩
  · simp only [State.readLine, ok, bind, Except.bind, if_pos nonzero, advance, pure, Except.pure]
  · obtain ⟨old, less⟩ := lines k t inside
    have below : k < s.n := h.n ▸ (List.getElem?_eq_some_iff.mp inside).1
    have apart := Nat.mul_le_mul_right N (Nat.succ_le_of_lt below)
    have first : k * N + N = k.succ * N := (Nat.succ_mul _ _).symm
    exact ⟨old.congr fun x _ le => Function.update_of_ne (by omega) _ _, less⟩

/-- The table after the caller has worked on a line. -/
theorem State.Table.entered (h : s.Table older) (lines : Older mem older)
    (room : older.length + 1 < H) (kept : mem.Spells (s.n * N) t) (short : t.length < N)
    (next : mem.Spells ((s.n + 1) * N) []) {i : Nat} :
    State.Table ⟨i, s.n + 1, mem⟩ (older ++ [t]) := by
  refine ⟨?_, ?_, fun k u inside => ?_, next⟩
  · rw [List.length_append, List.length_singleton, ← h.n]
  · rw [h.n]
    exact room
  · rcases Nat.lt_trichotomy k older.length with lt | rfl | gt
    · rw [List.getElem?_append_left lt] at inside
      exact lines k u inside
    · rw [List.getElem?_append_right le_rfl, Nat.sub_self] at inside
      obtain rfl : t = u := by simpa using inside
      exact ⟨h.n ▸ kept, short⟩
    · rw [List.getElem?_eq_none (by simp; omega)] at inside
      exact absurd inside (by simp)

variable {R : σ → α → Prop} {needs : α → Bytes → Prop} {g : α → Bytes → Answer α}
  {fnc : σ → Mem → Nat → Except ε (σ × Mem × Bool)} {a : σ} {x : α}

theorem loop_session (serves : Serves R needs fnc g) (fault : Fault → ε) (lines : List (List Key))
    (rel : R a x) (table : s.Table older) (ready : Ready needs g x older lines) :
    ∃ a' s', State.loop fault fnc a s lines = .ok (a', s') ∧
      R a' (session g x older lines).1 ∧ s'.n = (session g x older lines).2.length ∧
      Older s'.history (session g x older lines).2 := by
  induction lines generalizing a x s older with
  | nil => exact ⟨a, s, rfl, rel, table.n, table.lines⟩
  | cons keys lines ih =>
    obtain ⟨fits, blank, entered⟩ := ready
    by_cases empty : typed older keys = []
    · obtain ⟨s₁, ok, table₁⟩ := table.readLine_blank fits empty
      obtain ⟨a', s', rest, shows⟩ := ih rel table₁ (blank empty)
      refine ⟨a', s', ?_, ?_⟩
      · simp only [State.loop, ok, Except.mapError, bind, Except.bind, rest]
      · simpa only [session, if_pos empty] using shows
    · obtain ⟨room, need, later⟩ := entered empty
      obtain ⟨mem, ok, spells, short, old, next⟩ := table.readLine_line fits empty room
      have inside := slot_le table.inside
      obtain ⟨a₁, mem₁, call, rel₁, kept, less, frame⟩ :=
        serves a x mem (s.n * N) _ rel need empty short inside spells
      have old₁ : Older mem₁ older := fun k t at_ => by
        obtain ⟨line, len⟩ := old k t at_
        have below : k < s.n := table.n ▸ (List.getElem?_eq_some_iff.mp at_).1
        have apart := Nat.mul_le_mul_right N (Nat.succ_le_of_lt below)
        rw [Nat.succ_mul] at apart
        exact ⟨line.congr fun p _ le => frame p (by omega), len⟩
      have next₁ : mem₁.Spells ((s.n + 1) * N) [] :=
        next.congr fun p ge _ => frame p (Or.inr (by rw [Nat.succ_mul] at ge; exact ge))
      have table₁ : State.Table ⟨s.n, s.n + 1, mem₁⟩ (older ++ [(g x (typed older keys)).kept]) :=
        table.entered old₁ room kept less next₁
      by_cases stop : (g x (typed older keys)).ends
      · refine ⟨a₁, ⟨s.n, s.n + 1, mem₁⟩, ?_, ?_⟩
        · simp only [State.loop, ok, Except.mapError, bind, Except.bind, call, if_pos stop, pure,
            Except.pure]
        · simp only [session, if_neg empty, if_pos stop]
          exact ⟨rel₁, table₁.n, table₁.lines⟩
      · have goes := Bool.eq_false_iff.mpr stop
        obtain ⟨a', s', rest, shows⟩ := ih rel₁ table₁ (later goes)
        refine ⟨a', s', ?_, ?_⟩
        · simp only [State.loop, ok, Except.mapError, bind, Except.bind, call, if_neg stop, rest]
        · simpa only [session, if_neg empty, if_neg stop] using shows

/-- The start of a line is the place behind the earlier ones. -/
theorem start_eq_recall (older : List Bytes) : View.start older = View.recall older older.length := by
  rw [View.start, View.recall, List.getD_eq_getElem?_getD, List.getElem?_eq_none le_rfl,
    Option.getD_none]

/-- Each press of the key goes one line back. -/
theorem edit_ups (older : List Bytes) (j k : Nat) (le : k ≤ j) :
    (View.recall older j).edit older (List.replicate k (.escape 65)) = View.recall older (j - k) := by
  induction k generalizing j with
  | zero => rfl
  | succ k ih =>
    have back : (View.recall older j).press older (.escape 65) = View.recall older (j - 1) := by
      have pos : 0 < (View.recall older j).j := Nat.lt_of_lt_of_le (Nat.succ_pos k) le
      simp only [View.press, if_true, if_pos pos]
      rfl
    rw [List.replicate_succ, View.edit, List.foldl_cons, back]
    rw [← View.edit, ih (j - 1) (by omega), Nat.sub_sub, Nat.add_comm 1]

theorem fits_ups (older : List Bytes) (v : View) (k : Nat) :
    v.Fits older (List.replicate k (.escape 65)) := by
  induction k generalizing v with
  | zero => trivial
  | succ k ih => exact ⟨fun blank => by simp at blank, ih _⟩

theorem typed_ups {older : List Bytes} {k : Nat} (le : k ≤ older.length) :
    typed older (List.replicate k (.escape 65)) =
      trim isspace (older.getD (older.length - k) []) := by
  rw [typed, start_eq_recall, edit_ups older _ k le, View.recall, Zipper.text_ofList]

/-- No line of the session ends it. -/
def GoesOn (g : α → Bytes → Answer α) (x : α) (older : List Bytes) : List (List Key) → Prop
  | [] => True
  | keys :: lines =>
    (typed older keys = [] → GoesOn g x older lines) ∧
      (typed older keys ≠ [] → (g x (typed older keys)).ends = false ∧
        GoesOn g (g x (typed older keys)).next (older ++ [(g x (typed older keys)).kept]) lines)

instance decideGoesOn (g : α → Bytes → Answer α) :
    ∀ (x : α) (older : List Bytes) (lines : List (List Key)), Decidable (GoesOn g x older lines)
  | _, _, [] => isTrue trivial
  | x, older, keys :: lines =>
    have := decideGoesOn g x older lines
    have := decideGoesOn g (g x (typed older keys)).next
      (older ++ [(g x (typed older keys)).kept]) lines
    inferInstanceAs (Decidable ((_ → GoesOn g x older lines) ∧
      (_ → _ ∧ GoesOn g (g x (typed older keys)).next
        (older ++ [(g x (typed older keys)).kept]) lines)))

/-- The lines that the caller gets. -/
def texts (g : α → Bytes → Answer α) (x : α) (older : List Bytes) : List (List Key) → List Bytes
  | [] => []
  | keys :: lines =>
    let t := typed older keys
    if t = [] then texts g x older lines
    else if (g x t).ends then [t] else t :: texts g (g x t).next (older ++ [(g x t).kept]) lines

theorem session_append {lines more : List (List Key)} (goes : GoesOn g x older lines) :
    session g x older (lines ++ more) =
      session g (session g x older lines).1 (session g x older lines).2 more := by
  induction lines generalizing x older with
  | nil => rfl
  | cons keys lines ih =>
    obtain ⟨blank, entered⟩ := goes
    by_cases empty : typed older keys = []
    · simp only [List.cons_append, session, if_pos empty]
      exact ih (blank empty)
    · obtain ⟨stays, later⟩ := entered empty
      simp only [List.cons_append, session, if_neg empty, stays, Bool.false_eq_true, if_false]
      exact ih later

theorem ready_append {lines more : List (List Key)} (goes : GoesOn g x older lines)
    (ready : Ready needs g x older lines)
    (rest : Ready needs g (session g x older lines).1 (session g x older lines).2 more) :
    Ready needs g x older (lines ++ more) := by
  induction lines generalizing x older with
  | nil => exact rest
  | cons keys lines ih =>
    obtain ⟨blank, entered⟩ := goes
    obtain ⟨fits, ready_blank, ready_line⟩ := ready
    refine ⟨fits, fun empty => ?_, fun line => ?_⟩
    · simp only [session, if_pos empty] at rest
      exact ih (blank empty) (ready_blank empty) rest
    · obtain ⟨stays, later⟩ := entered line
      obtain ⟨room, need, go⟩ := ready_line line
      simp only [session, if_neg line, stays, Bool.false_eq_true, if_false] at rest
      exact ⟨room, need, fun _ => ih later (go stays) rest⟩

/-- The table holds what is left of the lines, in their order. -/
theorem session_older {κ : Bytes → Bytes} (kept : ∀ x t, (g x t).kept = κ t) (lines : List (List Key)) :
    (session g x older lines).2 = older ++ (texts g x older lines).map κ := by
  induction lines generalizing x older with
  | nil => simp [session, texts]
  | cons keys lines ih =>
    by_cases empty : typed older keys = []
    · simp only [session, texts, if_pos empty]
      exact ih
    · by_cases stop : (g x (typed older keys)).ends
      · simp only [session, texts, if_neg empty, if_pos stop, kept, List.map_cons, List.map_nil]
      · simp only [session, texts, if_neg empty, if_neg stop]
        rw [ih, kept, List.append_assoc, List.map_cons, List.singleton_append]

theorem texts_trimmed (lines : List (List Key)) :
    ∀ t ∈ texts g x older lines, trim isspace t = t ∧ t ≠ [] := by
  induction lines generalizing x older with
  | nil => simp [texts]
  | cons keys lines ih =>
    have own : trim isspace (typed older keys) = typed older keys := trim_trim _
    intro t mem
    by_cases empty : typed older keys = []
    · simp only [texts, if_pos empty] at mem
      exact ih t mem
    · by_cases stop : (g x (typed older keys)).ends
      · simp only [texts, if_neg empty, if_pos stop, List.mem_singleton] at mem
        exact mem ▸ ⟨own, empty⟩
      · simp only [texts, if_neg empty, if_neg stop, List.mem_cons] at mem
        rcases mem with rfl | mem
        · exact ⟨own, empty⟩
        · exact ih t mem

/-- The table of the program before its first line. -/
theorem table_start : State.Table ⟨0, 0, fun _ => 0⟩ [] := by
  have inside : 0 < H := by decide
  have empty : Mem.Spells (fun _ => 0) (0 * N) [] :=
    Mem.spells_of Mem.holds_nil rfl List.not_mem_nil
  exact ⟨rfl, inside, fun k t at_ => by simp at at_, empty⟩

/-- From the start of the program on, a caller that works on the bytes of its lines is in the state
that a session over texts gives, and the table holds what it has left of the lines. -/
theorem shell_refines_session (serves : Serves R needs fnc g) (fault : Fault → ε)
    (lines : List (List Key)) (rel : R a x) (ready : Ready needs g x [] lines) :
    ∃ a' s', State.loop fault fnc a ⟨0, 0, fun _ => 0⟩ lines = .ok (a', s') ∧
      R a' (session g x [] lines).1 ∧ s'.n = (session g x [] lines).2.length ∧
      Older s'.history (session g x [] lines).2 :=
  loop_session serves fault lines rel table_start ready

end

/-- A caller that notes its lines. -/
def noting (a : List Bytes) (mem : Mem) (buf : Nat) : Except Fault (List Bytes × Mem × Bool) :=
  .ok (a ++ [(mem.read buf N).takeWhile (· ≠ 0)], mem, false)

/-- What it does on texts. -/
def noted (x : List Bytes) (t : Bytes) : Answer (List Bytes) := ⟨x ++ [t], t, false⟩

theorem noting_serves : Serves Eq (fun _ _ => True) noting noted := by
  intro a x mem buf t same _ _ short _ line
  subst same
  refine ⟨a ++ [t], mem, ?_, rfl, line, short, fun _ _ => rfl⟩
  rw [noting, takeWhile_spells line short]
  rfl

/-- `acb` typed with the cursor moved back, a blank line, and the recalled line without its end. -/
def threeLines : List (List Key) :=
  [[.code 97, .code 98, .escape 68, .code 99], [.code 32, .code 9], [.escape 65, .code 127, .code 32]]

theorem shell_refines_session_three : ∃ s', State.loop id noting [] ⟨0, 0, fun _ => 0⟩ threeLines =
      .ok ([[97, 99, 98], [97, 99]], s') ∧ Older s'.history [[97, 99, 98], [97, 99]] := by
  have result : session noted [] [] threeLines = ([[97, 99, 98], [97, 99]], [[97, 99, 98], [97, 99]]) := by
    decide +kernel
  have ready : Ready (fun _ _ => True) noted [] [] threeLines := by decide +kernel
  obtain ⟨a', s', ok, same, _, lines⟩ :=
    shell_refines_session noting_serves id threeLines rfl ready
  rw [result] at same lines
  subst same
  exact ⟨s', ok, lines⟩

end OsProjects.Shell
