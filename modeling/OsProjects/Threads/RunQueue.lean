import OsProjects.Threads.Scheduler
import Mathlib.Tactic.Common

/-!
# The run queue

Each thread points to the one created before it, so the list goes down from the thread
created last. The search for a candidate walks down from the current thread, starts again
at the head when it reaches the end, and comes to the current thread last.
-/
namespace OsProjects.Threads

/-- The pointer in front of place `p`. -/
def below (p : Nat) : Option Nat := if p = 0 then none else some (p - 1)

/-- The place `d` steps down from `c` in a circle of `n` places. -/
def back (n c d : Nat) : Nat := if d ≤ c then c - d else n + c - d

def State.status (s : State) (p : Nat) : Option Status := (s.threads[p]?).map Thread.status

/-- A thread that may be given a turn. -/
def State.Waits (s : State) (p : Nat) : Prop :=
  s.status p = some .fresh ∨ s.status p = some .sleeping

structure State.Linked (s : State) : Prop where
  next : ∀ p t, s.threads[p]? = some t → t.next = below p
  head : s.head = below s.threads.length

section
variable {s : State} {n c d p q : Nat} {status : Status}

@[simp] theorem below_succ : below (p + 1) = some p := rfl

theorem below_inj : below p = below q ↔ p = q := by
  simp only [below]
  split_ifs <;> simp <;> omega

theorem back_zero : back n c 0 = c := if_pos (Nat.zero_le c)

theorem back_lt (hc : c < n) (hd : d ≤ n) : back n c d < n := by
  unfold back; split_ifs <;> omega

theorem back_full (hc : c < n) : back n c n = c := by
  unfold back; split_ifs <;> omega

/-- One step of the walk. -/
theorem below_back (hc : c < n) (hd : d < n) :
    (below (back n c d)).or (below n) = some (back n c (d + 1)) := by
  unfold below back
  split_ifs <;> simp <;> omega

theorem status_lt (h : s.status p = some status) : p < s.threads.length := by
  simp only [State.status, Option.map_eq_some_iff] at h
  obtain ⟨t, mem, _⟩ := h
  exact (List.getElem?_eq_some_iff.mp mem).1

theorem exists_status (h : p < s.threads.length) : ∃ status, s.status p = some status :=
  ⟨_, by rw [State.status, List.getElem?_eq_getElem h]; rfl⟩

@[simp] theorem length_setStatus : (s.setStatus p status).threads.length = s.threads.length := by
  simp [State.setStatus]

theorem status_setStatus (h : p < s.threads.length) :
    (s.setStatus p status).status q = if q = p then some status else s.status q := by
  simp only [State.status, State.setStatus, List.getElem?_modify]
  split_ifs with same other other
  · subst same
    simp [List.getElem?_eq_getElem h]
  · exact absurd same.symm other
  · exact absurd other.symm same
  · simp

theorem State.Linked.setStatus (h : s.Linked) : (s.setStatus p status).Linked := by
  refine ⟨fun q t mem => ?_, ?_⟩
  · simp only [State.setStatus, List.getElem?_modify, Option.map_eq_map,
      Option.map_eq_some_iff] at mem
    obtain ⟨u, mem, rfl⟩ := mem
    have := h.next q u mem
    split_ifs <;> exact this
  · rw [length_setStatus]
    exact h.head

@[simp] theorem length_schedulerCreate :
    (schedulerCreate s).threads.length = s.threads.length + 1 := by
  simp [schedulerCreate]

theorem status_schedulerCreate : (schedulerCreate s).status q =
    if q = s.threads.length then some .fresh else s.status q := by
  simp only [State.status, schedulerCreate, List.getElem?_append]
  split_ifs with lt same same
  · omega
  · rfl
  · simp [same]
  · have : s.threads.length ≤ q := by omega
    have none_ : s.threads[q]? = none := List.getElem?_eq_none this
    obtain ⟨k, eq⟩ := Nat.exists_eq_succ_of_ne_zero (by omega : q - s.threads.length ≠ 0)
    simp [none_, eq]

theorem State.Linked.schedulerCreate (h : s.Linked) : (schedulerCreate s).Linked := by
  refine ⟨fun q t mem => ?_, ?_⟩
  · simp only [Threads.schedulerCreate, List.getElem?_append] at mem
    split_ifs at mem with lt
    · exact h.next q t mem
    · obtain ⟨eq, same⟩ := List.getElem?_eq_some_iff.mp mem
      simp only [List.length_singleton] at eq
      obtain rfl : q = s.threads.length := by omega
      simp only [Nat.sub_self, List.getElem_cons_zero] at same
      rw [← same]
      exact h.head
  · rw [length_schedulerCreate]
    rfl

/-- The walk stops at the first thread that waits, and fails after a full circle. -/
theorem candidateLoop_spec (h : s.Linked) (fuel : Nat) (hc : c < s.threads.length)
    (hd : d < s.threads.length) (enough : s.threads.length - d ≤ fuel) :
    (∃ e, d < e ∧ e ≤ s.threads.length ∧ s.Waits (back s.threads.length c e) ∧
        (∀ e', d < e' → e' < e → ¬ s.Waits (back s.threads.length c e')) ∧
        candidateLoop s (below c) fuel (below (back s.threads.length c d)) =
          .ok (some (back s.threads.length c e))) ∨
      (∀ e, d < e → e ≤ s.threads.length → ¬ s.Waits (back s.threads.length c e)) ∧
        candidateLoop s (below c) fuel (below (back s.threads.length c d)) = .ok none := by
  induction fuel generalizing d with
  | zero => omega
  | succ fuel ih =>
    set n := s.threads.length with n_def
    set p := back n c (d + 1) with p_def
    have lt : p < s.threads.length := back_lt hc hd
    have next : s.threads[p]? = some s.threads[p] := List.getElem?_eq_getElem lt
    have waits : s.Waits p ↔ s.threads[p].status = .fresh ∨ s.threads[p].status = .sleeping := by
      simp [State.Waits, State.status, next]
    have below_eq : s.threads[p].next = below p := h.next p _ next
    simp only [candidateLoop, h.head, ← n_def, below_back hc hd, ← p_def, next, below_eq, below_inj]
    by_cases here : s.Waits p
    · rw [if_pos (waits.mp here)]
      exact Or.inl ⟨d + 1, Nat.lt_succ_self d, hd, here, fun e' _ _ => by omega, rfl⟩
    · rw [if_neg (waits.not.mp here)]
      by_cases last : d + 1 = n
      · have full : p = c := by rw [p_def, last, back_full hc]
        rw [if_pos full]
        refine Or.inr ⟨fun e gt le => ?_, rfl⟩
        obtain rfl : e = d + 1 := by omega
        exact here
      · have more : p ≠ c := by
          rw [p_def]
          unfold back
          split_ifs <;> omega
        rw [if_neg more]
        rcases ih (by omega : d + 1 < n) (by omega) with ⟨e, gt, le, waits, first, ok⟩ | ⟨none_, ok⟩
        · refine Or.inl ⟨e, by omega, le, waits, fun e' gt' lt' => ?_, ok⟩
          by_cases e' = d + 1
          · subst e'
            exact here
          · exact first e' (by omega) lt'
        · refine Or.inr ⟨fun e gt le => ?_, ok⟩
          by_cases same : e = d + 1
          · subst same
            exact here
          · exact none_ e (by omega) le

/-- A thread that the walk from `c` reaches before it reaches `p`. -/
def Between (c q p : Nat) : Prop := p < c ∧ p < q ∧ q < c ∨ c ≤ p ∧ (q < c ∨ p < q)

/-- The candidate is the first thread that waits, in the order of the walk. -/
structure Candidate (s : State) (p : Nat) : Prop where
  waits : s.Waits p
  first : ∀ c q, s.curr = some c → s.Waits q → ¬ Between c q p

theorem threadCandidate_spec (h : s.Linked) (curr : s.curr = some c)
    (hc : c < s.threads.length) :
    (∃ p, threadCandidate s = .ok (some p) ∧ Candidate s p) ∨
      (∀ q, ¬ s.Waits q) ∧ threadCandidate s = .ok none := by
  have next : s.threads[c]? = some s.threads[c] := List.getElem?_eq_getElem hc
  have start : threadCandidate s = candidateLoop s (below c) (s.threads.length + 1)
      (below (back s.threads.length c 0)) := by
    simp only [threadCandidate, curr, next, h.next c _ next, back_zero]
  -- the place of a thread in the order of the walk
  have place : ∀ q, s.Waits q → ∃ e, 0 < e ∧ e ≤ s.threads.length ∧
      back s.threads.length c e = q := by
    intro q waits
    have lt : q < s.threads.length := waits.elim status_lt status_lt
    refine ⟨if q < c then c - q else s.threads.length + c - q, ?_⟩
    unfold back
    split_ifs <;> omega
  rw [start]
  rcases candidateLoop_spec h (s.threads.length + 1) hc (Nat.lt_of_le_of_lt (Nat.zero_le c) hc)
    (Nat.le_add_right_of_le (Nat.sub_le _ _)) with ⟨e, pos, le, waits, first, ok⟩ | ⟨none_, ok⟩
  · refine Or.inl ⟨_, ok, waits, fun c' q curr' waits' between => ?_⟩
    obtain rfl := Option.some.inj (curr.symm.trans curr')
    obtain ⟨e', pos', le', rfl⟩ := place q waits'
    refine first e' pos' ?_ waits'
    unfold Between back at between
    split_ifs at between <;> omega
  · refine Or.inr ⟨fun q waits => ?_, ok⟩
    obtain ⟨e, pos, le, rfl⟩ := place q waits
    exact none_ e pos le waits

end

end OsProjects.Threads
