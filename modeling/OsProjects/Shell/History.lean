import OsProjects.Shell.LineSlot

/-!
# The history table

The recall cursor stays at or below `state.n`, so an index leaves the table only through `state.n`,
which counts the lines of the session and is clamped one too late. In a session that fits in the
table, every slot always holds a string, so that what a recall needs is given.
-/
namespace OsProjects.Shell
open OsProjects.Library

/-- The lines of a session that are not blank. -/
def State.lines (fnc : Mem → Nat → Mem) (s : State) : List (List Key) → Nat
  | [] => 0
  | keys :: rest =>
    match s.line keys with
    | .error _ => 0
    | .ok (s, buf, len) =>
      if len = 0 then s.lines fnc rest
      else
        match s.advance with
        | .error _ => 1
        | .ok s => 1 + State.lines fnc { s with history := fnc s.history buf } rest

/-- The computation uses no index outside of the table, and its result has a property. -/
def Within {α : Type} (P : α → Prop) : Except Fault α → Prop
  | .ok a => P a
  | .error f => f = .bytes

section
variable {α β : Type} {P : α → Prop} {Q : β → Prop} {x : Except Fault α} {e : Editor} {s : State}
  {mem : Mem} {keys : List Key} {p j : Nat}

theorem Within.bind {f : α → Except Fault β} (h : Within P x) (next : ∀ a, P a → Within Q (f a)) :
    Within Q (x >>= f) := by
  cases x with
  | error f => exact h
  | ok a => exact next a h

theorem within_pure {a : α} (h : P a) : Within P (pure a) := h

theorem within_strlen : Within (fun _ => True) (strlen mem p) := by
  have loop : ∀ fuel p, Within (fun _ => True) (strlenFrom mem fuel p) := by
    intro fuel
    induction fuel with
    | zero => exact fun _ => rfl
    | succ fuel ih =>
      intro p
      have rest := ih (p + 1)
      simp only [strlenFrom]
      split_ifs
      · trivial
      · cases eq : strlenFrom mem fuel (p + 1) with
        | error f =>
          rw [eq] at rest
          exact rest
        | ok n => trivial
  exact loop _ p

theorem within_memmove {dst src len : Nat} : Within (fun _ => True) (memmove mem dst src len) := by
  unfold memmove
  split_ifs
  · trivial
  · rfl

theorem within_put {b : UInt8} : Within (fun _ => True) (put mem p b) := by
  unfold put
  split_ifs
  · trivial
  · rfl

theorem within_strncpy {dst src len : Nat} : Within (fun _ => True) (strncpy mem dst src len) := by
  unfold strncpy
  split_ifs
  · trivial
  · rfl

/-- The indices of an editor stay in the table. -/
def Editor.Follows (e e' : Editor) : Prop := e'.last = e.last ∧ e'.j ≤ e.last

theorem within_recall (le : j ≤ e.last) (inside : e.last < H) :
    Within e.Follows (e.recall j) := by
  refine within_put.bind fun mem _ => ?_
  rw [slot_ok (Nat.lt_of_le_of_lt le inside)]
  refine Within.bind (P := fun _ => True) trivial fun src _ => Within.bind (P := fun _ => True) ?_
    fun mem _ => within_strlen.bind fun n _ => within_pure ⟨rfl, le⟩
  split_ifs
  · exact within_strncpy
  · trivial

theorem within_print (le : e.j ≤ e.last) (k : Nat) : Within e.Follows (e.print k) := by
  by_cases fits : e.n + 1 < N
  · rw [Editor.print, if_pos fits]
    refine Within.bind (P := fun _ => True) ?_ fun _ _ => within_put.bind fun _ _ =>
      within_put.bind fun _ _ => within_pure ⟨rfl, le⟩
    split_ifs
    · exact within_strlen.bind fun _ _ => within_memmove
    · trivial
  · rw [Editor.print, if_neg fits]
    exact within_pure ⟨rfl, le⟩

theorem within_press (le : e.j ≤ e.last) (inside : e.last < H) (key : Key) :
    Within e.Follows (e.press key) := by
  have same : ∀ e' : Editor, e'.last = e.last → e'.j = e.j →
      Within e.Follows (pure e' : Except Fault Editor) := fun e' last j => ⟨last, by rw [j]; exact le⟩
  cases key with
  | escape c =>
    simp only [Editor.press]
    split_ifs with up more down more
    · exact within_recall (Nat.le_trans (Nat.sub_le _ 1) le) inside
    · exact same e rfl rfl
    · exact within_recall more inside
    all_goals exact same _ rfl rfl
  | code k =>
    simp only [Editor.press]
    split_ifs
    · exact within_put.bind fun _ _ => within_strlen.bind fun _ _ => same _ rfl rfl
    · exact same e rfl rfl
    · unfold Editor.delete
      split_ifs
      · exact within_strlen.bind fun _ _ => within_memmove.bind fun _ _ => same _ rfl rfl
      · exact same e rfl rfl
    · unfold Editor.backspace
      split_ifs
      · exact within_strlen.bind fun _ _ => within_memmove.bind fun _ _ => same _ rfl rfl
      · exact same e rfl rfl
    · unfold Editor.blank
      split_ifs
      · exact within_strlen.bind fun _ _ => within_memmove.bind fun _ _ =>
          within_put.bind fun _ _ => same _ rfl rfl
      · exact same e rfl rfl
    · exact same e rfl rfl
    · exact within_print le k
    · exact same e rfl rfl

theorem within_edit (le : e.j ≤ e.last) (inside : e.last < H) (keys : List Key) :
    Within (fun e' => e'.last = e.last) (e.edit keys) := by
  induction keys generalizing e with
  | nil => exact rfl
  | cons key keys ih =>
    refine (within_press le inside key).bind fun e₁ follows => ?_
    have rest := ih (e := e₁) (by rw [follows.1]; exact follows.2) (by rw [follows.1]; exact inside)
    rwa [follows.1] at rest

theorem within_shellStrtrim : Within (fun _ => True) (shellStrtrim mem p) :=
  within_strlen.bind fun _ _ => within_memmove.bind fun _ _ => within_put

/-- A line uses the slot `state.n` and those below it. -/
theorem within_line (inside : s.n < H) (keys : List Key) :
    Within (fun r => r.1.i = s.n ∧ r.1.n = s.n) (s.line keys) := by
  refine Within.bind (P := fun _ => True) ?_ fun e _ => within_shellStrtrim.bind fun mem _ =>
    within_strlen.bind fun len _ => ⟨rfl, rfl⟩
  refine Within.bind (P := fun e : Editor => e.j = s.n ∧ e.last = s.n) ?_ fun e own => ?_
  · simp only [State.editor, slot_ok inside]
    exact within_strlen.bind fun n _ => ⟨rfl, rfl⟩
  · have edited := within_edit (by rw [own.1, own.2]) (by rw [own.2]; exact inside) keys
    cases edit : e.edit keys with
    | error f =>
      rw [edit] at edited
      exact edited
    | ok e' => trivial

theorem advance_inside (same : s.i = s.n) (lt : s.n + 1 < H) :
    ∃ mem, s.advance = .ok ⟨s.i, s.n + 1, mem⟩ ∧
      mem = Function.update s.history ((s.n + 1) * N) 0 := by
  have pos : (s.n + 1) * N < H * N := Nat.mul_lt_mul_of_pos_right lt (by decide)
  refine ⟨Function.update s.history ((s.n + 1) * N) 0, ?_, rfl⟩
  simp only [State.advance, if_pos same, if_pos (show H > s.n + 1 from lt), slot_ok lt, put_ok pos,
    bind, Except.bind, pure, Except.pure]

/-- The clamped `state.n` is the number of slots. -/
theorem advance_outside (same : s.i = s.n) (full : ¬ s.n + 1 < H) :
    s.advance = .error .index := by
  have outside : slot H = .error .index := if_neg (Nat.lt_irrefl H)
  simp only [State.advance, if_pos same, if_neg full, outside, bind, Except.bind]

theorem shell_index_iff (fnc : Mem → Nat → Mem) (inside : s.n < H) (lines : List (List Key)) :
    s.shell fnc lines ≠ .error .index ↔ s.n + s.lines fnc lines < H := by
  induction lines generalizing s with
  | nil => simpa [State.shell, State.lines, pure, Except.pure] using inside
  | cons keys lines ih =>
    have within := within_line inside keys
    cases line : s.line keys with
    | error f =>
      rw [line] at within
      obtain rfl : f = .bytes := within
      simpa [State.shell, State.readLine, State.lines, line, bind, Except.bind] using inside
    | ok r =>
      obtain ⟨s', buf, len⟩ := r
      rw [line] at within
      obtain ⟨i_eq, n_eq⟩ : s'.i = s.n ∧ s'.n = s.n := within
      by_cases blank : len = 0
      · have rest := ih (s := s') (by rw [n_eq]; exact inside)
        rw [n_eq] at rest
        simpa [State.shell, State.readLine, State.lines, line, blank, bind, Except.bind, pure,
          Except.pure] using rest
      · have own : s'.i = s'.n := i_eq.trans n_eq.symm
        by_cases room : s'.n + 1 < H
        · obtain ⟨mem, advance, _⟩ := advance_inside own room
          have rest := ih (s := ⟨s'.i, s'.n + 1, fnc mem buf⟩) room
          simp only [State.shell, State.readLine, State.lines, line, ne_eq, blank, not_false_eq_true,
            if_true, if_false, advance, bind, Except.bind, pure, Except.pure]
          rw [← Nat.add_assoc, ← n_eq]
          exact rest
        · have advance := advance_outside own room
          simp only [State.shell, State.readLine, State.lines, line, ne_eq, blank, not_false_eq_true,
            if_true, if_false, advance, bind, Except.bind]
          rw [n_eq] at room
          exact iff_of_false (by simp) room

end

/-- Every slot of the table holds a string. -/
def Slots (mem : Mem) : Prop := ∀ k, k < H → Terminated mem k

/-- No blank is typed on a full line. -/
def State.Fits (s : State) (keys : List Key) : Prop :=
  Steps (fun before key => ∀ e, s.edit before = .ok e →
    key = .code 32 ∨ key = .code 9 → e.n + 1 < N) keys

/-- The states between the lines of a session whose lines all fit. -/
inductive Entered (fnc : Mem → Nat → Mem) : State → Prop where
  | start : Entered fnc ⟨0, 0, fun _ => 0⟩
  | blank (s s' : State) (keys : List Key) : Entered fnc s → s.Fits keys →
      s.readLine keys = .ok (s', none) → Entered fnc s'
  | line (s s' : State) (keys : List Key) (buf : Nat) : Entered fnc s → s.Fits keys →
      s.readLine keys = .ok (s', some buf) → Entered fnc { s' with history := fnc s'.history buf }

section
variable {e e' : Editor} {s s' : State} {mem mem' : Mem} {keys : List Key} {key : Key} {k : Nat}

theorem Slots.change (slots : Slots mem) (own : Terminated mem' k)
    (frame : ∀ a, a < k * N ∨ k * N + N ≤ a → mem' a = mem a) : Slots mem' := by
  intro l inside
  by_cases same : l = k
  · rw [same]
    exact own
  · obtain ⟨x, lt, zero⟩ := slots l inside
    have apart := slots_apart same
    exact ⟨x, lt, by rw [frame _ (by omega), zero]⟩

theorem Editor.Keeps.slots (keeps : e.Keeps e') (placed : e.Placed) (inSlot : e'.InSlot)
    (slots : Slots e.mem) : Slots e'.mem := by
  have own := inSlot.terminated (keeps.placed placed)
  rw [keeps.last] at own
  exact slots.change own (by rw [← placed.buf]; exact keeps.frame)

/-- With strings in all slots only the length of the line matters. -/
theorem accepts_iff (placed : e.Placed) (slots : Slots e.mem) :
    e.Accepts key ↔ (key = .code 32 ∨ key = .code 9 → e.n + 1 < N) := by
  have j := placed.j
  have last := placed.last
  cases key with
  | escape c =>
    refine iff_of_true ⟨fun _ _ => slots _ (by omega), fun _ more => slots _ (by omega)⟩ ?_
    simp
  | code k => simp [Editor.Accepts]

theorem edit_slots (placed : e.Placed) (inSlot : e.InSlot) (slots : Slots e.mem)
    (accepts : e.AcceptsAll keys) (edit : e.edit keys = .ok e') :
    e'.InSlot ∧ e'.Placed ∧ Slots e'.mem := by
  obtain ⟨e₁, edit₁, inSlot₁, keeps⟩ := edit_keeps inSlot placed accepts
  obtain rfl := Except.ok.inj (edit₁.symm.trans edit)
  exact ⟨inSlot₁, keeps.placed placed, keeps.slots placed inSlot₁ slots⟩

theorem acceptsAll_iff_fits {e : Editor} (start : s.editor = .ok e) (placed : e.Placed)
    (inSlot : e.InSlot) (slots : Slots e.mem) : e.AcceptsAll keys ↔ s.Fits keys := by
  induction keys using List.reverseRecOn with
  | nil => exact iff_of_true Steps.nil Steps.nil
  | append_singleton keys key ih =>
    rw [Editor.AcceptsAll, State.Fits, steps_append, steps_append]
    refine and_congr_right_iff.mpr ?_ |>.trans (and_congr_left_iff.mpr fun _ => ih)
    intro accepts
    simp only [edit_of_editor start]
    refine forall_congr' fun e' => imp_congr_right fun edit => ?_
    obtain ⟨_, placed', slots'⟩ := edit_slots placed inSlot slots accepts edit
    exact accepts_iff placed' slots'

/-- A piece of the line is moved to its start and closed. -/
theorem trim_slots (placed : e.Placed) (inSlot : e.InSlot) (slots : Slots e.mem) {b n : Nat}
    (bound : b + n ≤ e.n) (moved : memmove e.mem e.buf (e.buf + b) n = .ok mem)
    (stored : put mem (e.buf + n) 0 = .ok mem') : Slots mem' := by
  have room := placed.room
  have n_lt := inSlot.n_lt
  obtain ⟨mem₁, moved₁, line⟩ := memmove_ok e.mem e.buf 0 b n (by omega) (by omega)
  obtain rfl := Except.ok.inj (moved₁.symm.trans moved)
  rw [put_ok (by omega)] at stored
  rw [← Except.ok.inj stored]
  have buf := placed.buf
  refine slots.change (k := e.last) ⟨n, by omega, ?_⟩ fun a out => ?_
  · rw [← buf, Function.update_self]
  · rw [← buf] at out
    rw [Function.update_of_ne (by omega)]
    exact line.frame (by omega) out

theorem shellStrtrim_slots (placed : e.Placed) (inSlot : e.InSlot) (slots : Slots e.mem)
    (ok : shellStrtrim e.mem e.buf = .ok mem) : Slots mem := by
  have len : strlen e.mem (e.buf + 0) = .ok (e.n - 0) := inSlot.strlen placed (Nat.zero_le _)
  simp only [Nat.add_zero, Nat.sub_zero] at len
  simp only [shellStrtrim, len, bind_eq_ok, Except.ok.injEq, exists_eq_left'] at ok
  obtain ⟨mem₁, moved, stored⟩ := ok
  refine trim_slots placed inSlot slots ?_ moved stored
  have front : ((e.mem.read e.buf e.n).takeWhile isspace).length ≤ e.n :=
    (List.takeWhile_prefix _).length_le.trans_eq (e.mem.length_read e.buf e.n)
  split_ifs <;> omega

theorem line_slots (inside : s.n < H) (slots : Slots s.history) (fits : s.Fits keys)
    {buf len : Nat} (ok : s.line keys = .ok (s', buf, len)) :
    s'.i = s.n ∧ s'.n = s.n ∧ Slots s'.history := by
  obtain ⟨e, start, inSlot, placed, own, _⟩ := editor_inSlot inside (slots s.n inside)
  rw [← own] at slots
  have accepts := (acceptsAll_iff_fits start placed inSlot slots).mpr fits
  simp only [State.line, edit_of_editor start, bind_eq_ok, pure, Except.pure, Except.ok.injEq,
    Prod.mk.injEq] at ok
  obtain ⟨e', edit, mem, trimmed, _, _, rfl, _⟩ := ok
  obtain ⟨inSlot', placed', slots'⟩ := edit_slots placed inSlot slots accepts edit
  exact ⟨rfl, rfl, shellStrtrim_slots placed' inSlot' slots' trimmed⟩

theorem readLine_none (ok : s.readLine keys = .ok (s', none)) :
    ∃ buf len, s.line keys = .ok (s', buf, len) := by
  obtain ⟨⟨s₁, buf, len⟩, line, rest⟩ := bind_eq_ok.mp ok
  simp only at rest
  split_ifs at rest with blank
  · obtain ⟨_, _, last⟩ := bind_eq_ok.mp rest
    simp [pure, Except.pure] at last
  · obtain ⟨rfl, _⟩ := Prod.mk.inj (Except.ok.inj rest)
    exact ⟨buf, len, line⟩

theorem readLine_some {buf : Nat} (ok : s.readLine keys = .ok (s', some buf)) :
    ∃ s₁ len, s.line keys = .ok (s₁, buf, len) ∧ s₁.advance = .ok s' := by
  obtain ⟨⟨s₁, buf, len⟩, line, rest⟩ := bind_eq_ok.mp ok
  simp only at rest
  split_ifs at rest with blank
  · obtain ⟨s₂, advance, last⟩ := bind_eq_ok.mp rest
    obtain ⟨rfl, same⟩ := Prod.mk.inj (Except.ok.inj last)
    obtain rfl := Option.some.inj same
    exact ⟨s₁, len, line, advance⟩
  · simp [pure, Except.pure] at rest

/-- In a session all slots hold strings, as long as each line fits. -/
theorem Entered.slots {fnc : Mem → Nat → Mem} (kept : ∀ mem buf, Slots mem → Slots (fnc mem buf))
    (entered : Entered fnc s) : s.n < H ∧ Slots s.history := by
  induction entered with
  | start => exact ⟨by decide, fun k _ => ⟨0, by decide, rfl⟩⟩
  | blank s s' keys _ fits ok ih =>
    obtain ⟨buf, len, line⟩ := readLine_none ok
    obtain ⟨_, n_eq, slots⟩ := line_slots ih.1 ih.2 fits line
    exact ⟨by rw [n_eq]; exact ih.1, slots⟩
  | line s s' keys buf _ fits ok ih =>
    obtain ⟨s₁, len, line, advance⟩ := readLine_some ok
    obtain ⟨i_eq, n_eq, slots⟩ := line_slots ih.1 ih.2 fits line
    have own : s₁.i = s₁.n := i_eq.trans n_eq.symm
    by_cases room : s₁.n + 1 < H
    · obtain ⟨mem, advance', emptied⟩ := advance_inside own room
      obtain rfl := Except.ok.inj (advance'.symm.trans advance)
      have pos : 0 < N := by decide
      have slots' : Slots mem := by
        subst emptied
        refine slots.change (k := s₁.n + 1) ⟨0, pos, Function.update_self ..⟩ fun a out => ?_
        exact Function.update_of_ne (by omega) _ _
      exact ⟨room, kept mem buf slots'⟩
    · simp [advance_outside own room] at advance

/-- In a session the slot condition is about blanks only. -/
theorem entered_line_in_slot {fnc : Mem → Nat → Mem}
    (kept : ∀ mem buf, Slots mem → Slots (fnc mem buf)) (entered : Entered fnc s) :
    (∀ before after, keys = before ++ after → ∃ e, s.edit before = .ok e ∧ e.InSlot) ↔
      s.Fits keys := by
  obtain ⟨inside, slots⟩ := entered.slots kept
  obtain ⟨e, start, inSlot, placed, own, _⟩ := editor_inSlot inside (slots s.n inside)
  rw [← own] at slots
  rw [← acceptsAll_iff_fits start placed inSlot slots, ← edit_stays_iff inSlot placed]
  simp only [edit_of_editor start, Editor.Stays]

end

/-- The lines `a` without an end. -/
def manyLines (k : Nat) : List (List Key) := List.replicate k [.code 97]

/-- After 96 lines `state.n` is 96. -/
theorem history_full :
    (¬ ∀ lines, State.shell (fun mem _ => mem) ⟨0, 0, fun _ => 0⟩ lines ≠ .error .index) ∧
      State.shell (fun mem _ => mem) ⟨0, 0, fun _ => 0⟩ (manyLines 96) = .error .index := by
  have count : State.lines (fun mem _ => mem) ⟨0, 0, fun _ => 0⟩ (manyLines 96) = 96 := by
    decide +kernel
  have outside : State.shell (fun mem _ => mem) ⟨0, 0, fun _ => 0⟩ (manyLines 96) =
      .error .index := by
    by_contra inside
    have fewer := (shell_index_iff (s := ⟨0, 0, fun _ => 0⟩) _ (by decide) _).mp inside
    rw [count] at fewer
    exact absurd fewer (by decide)
  exact ⟨fun all => all _ outside, outside⟩

/-- No index leaves the table if and only if fewer than `H` lines of the session are not blank. -/
theorem history_index_iff (fnc : Mem → Nat → Mem) (history : Mem) (lines : List (List Key)) :
    State.shell fnc ⟨0, 0, history⟩ lines ≠ .error .index ↔
      State.lines fnc ⟨0, 0, history⟩ lines < H := by
  have index := shell_index_iff (s := ⟨0, 0, history⟩) fnc (show 0 < H by decide) lines
  rwa [Nat.zero_add] at index

end OsProjects.Shell
