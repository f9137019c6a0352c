import OsProjects.Threads.Fairness
import Mathlib.Data.List.Rotate

/-!
# The candidate in list order

The walk of `thread_candidate` is compared with the list itself: the threads in the order of their
`next` pointers, turned so that the current thread comes last. The walk finds the first of them that
waits in every state of a run, except that with an empty list it follows `NULL`.
-/
namespace OsProjects.Threads

/-- The threads from a pointer to the end of the list. -/
def State.links (s : State) : Nat → Option Nat → List Nat
  | 0, _ => []
  | _ + 1, none => []
  | fuel + 1, some p =>
    match s.threads[p]? with
    | none => []
    | some t => p :: s.links fuel t.next

def State.list (s : State) : List Nat := s.links s.threads.length s.head

/-- The list as a circle that starts behind the current thread. -/
def State.circle (s : State) : List Nat :=
  match s.curr with
  | none => s.list
  | some c => s.list.rotate (s.list.idxOf c + 1)

instance decidableWaits (s : State) (p : Nat) : Decidable (s.Waits p) :=
  inferInstanceAs (Decidable (_ ∨ _))

/-- What `thread_candidate` is for. -/
def FindsFirst (s : State) : Prop :=
  threadCandidate s = .ok (s.circle.find? fun p => decide (s.Waits p))

def destroy (s : State) : State := { s with threads := [], head := none, curr := none }

/-- The states of `k` calls of `scheduler_create` and a run of `scheduler_execute` behind them. -/
inductive Reachable : State → Prop where
  | run (b : Behaviour) (k n : Nat) (m : Machine) : execute b k n = .ok m → Reachable m.state
  | destroyed (b : Behaviour) (k n : Nat) (m : Machine) : execute b k n = .ok m →
      m.control = .destroy → Reachable (destroy m.state)

section
variable {s : State} {n c p fuel : Nat}

theorem links_below (h : s.Linked) (le : n ≤ s.threads.length) (enough : n ≤ fuel) :
    s.links fuel (below n) = (List.range n).reverse := by
  induction n generalizing fuel with
  | zero => cases fuel <;> rfl
  | succ n ih =>
    obtain ⟨fuel, rfl⟩ : ∃ f, fuel = f + 1 := ⟨fuel - 1, by omega⟩
    have mem : s.threads[n]? = some s.threads[n] := List.getElem?_eq_getElem (by omega)
    have next : s.threads[n].next = below n := h.next n _ mem
    rw [below_succ, State.links, mem]
    simp only [next]
    rw [ih (by omega) (by omega), List.range_succ, List.reverse_append, List.reverse_singleton,
      List.singleton_append]

theorem list_eq (h : s.Linked) : s.list = (List.range s.threads.length).reverse := by
  rw [State.list, h.head, links_below h le_rfl le_rfl]

theorem idxOf_reverse_range (hc : c < n) : (List.range n).reverse.idxOf c = n - 1 - c := by
  have lt : n - 1 - c < (List.range n).reverse.length := by
    rw [List.length_reverse, List.length_range]
    omega
  have at_ : (List.range n).reverse[n - 1 - c] = c := by
    rw [List.getElem_reverse, List.getElem_range, List.length_range]
    omega
  have nodup : (List.range n).reverse.Nodup := List.nodup_reverse.mpr List.nodup_range
  calc (List.range n).reverse.idxOf c
      = (List.range n).reverse.idxOf (List.range n).reverse[n - 1 - c] := by rw [at_]
    _ = n - 1 - c := nodup.idxOf_getElem _ lt

/-- The circle goes down from the current thread. -/
theorem circle_eq (h : s.Linked) (curr : s.curr = some c) (hc : c < s.threads.length) :
    s.circle = (List.range s.threads.length).map fun e => back s.threads.length c (e + 1) := by
  set n := s.threads.length with n_def
  have circle : s.circle = (List.range n).reverse.rotate (n - 1 - c + 1) := by
    rw [State.circle, curr]
    simp only [list_eq h, ← n_def, idxOf_reverse_range hc]
  rw [circle]
  apply List.ext_getElem
  · simp
  · intro e lt _
    have lt : e < n := by simpa using lt
    rw [List.getElem_rotate, List.getElem_reverse, List.getElem_range, List.getElem_map,
      List.getElem_range, List.length_reverse, List.length_range]
    unfold back
    split_ifs with le
    · rw [Nat.mod_eq_of_lt (by omega)]
      omega
    · rw [Nat.mod_eq_sub_mod (by omega), Nat.mod_eq_of_lt (by omega)]
      omega

theorem findsFirst_walk (h : s.Linked) (curr : s.curr = some c) (hc : c < s.threads.length) :
    FindsFirst s := by
  have next : s.threads[c]? = some s.threads[c] := List.getElem?_eq_getElem hc
  have start : threadCandidate s = candidateLoop s (below c) (s.threads.length + 1)
      (below (back s.threads.length c 0)) := by
    simp only [threadCandidate, curr, next, h.next c _ next, back_zero]
  rw [FindsFirst, start, circle_eq h curr hc, List.find?_map]
  rcases candidateLoop_spec h (s.threads.length + 1) hc (Nat.lt_of_le_of_lt (Nat.zero_le c) hc)
    (Nat.le_add_right_of_le (Nat.sub_le _ _)) with ⟨e, pos, le, waits, first, ok⟩ | ⟨none_, ok⟩
  · obtain ⟨d, rfl⟩ : ∃ d, e = d + 1 := ⟨e - 1, by omega⟩
    have found : (List.range s.threads.length).find?
        ((fun p => decide (s.Waits p)) ∘ fun e => back s.threads.length c (e + 1)) = some d := by
      rw [List.find?_range_eq_some]
      refine ⟨by simpa using waits, List.mem_range.mpr (by omega), fun d' lt => ?_⟩
      simpa using first (d' + 1) (by omega) (by omega)
    rw [ok, found]
    rfl
  · have missing : (List.range s.threads.length).find?
        ((fun p => decide (s.Waits p)) ∘ fun e => back s.threads.length c (e + 1)) = none := by
      rw [List.find?_eq_none]
      intro d mem
      simpa using none_ (d + 1) (Nat.succ_pos d) (List.mem_range.mp mem)
    rw [ok, missing]
    rfl

/-- Before the first turn the head is taken. -/
theorem findsFirst_head (h : s.Linked) (curr : s.curr = none) (pos : 0 < s.threads.length)
    (fresh : ∀ p status, s.status p = some status → status = .fresh) : FindsFirst s := by
  obtain ⟨n, length⟩ : ∃ n, s.threads.length = n + 1 :=
    Nat.exists_eq_succ_of_ne_zero (Nat.pos_iff_ne_zero.mp pos)
  obtain ⟨status, has⟩ := exists_status (s := s) (p := n) (by omega)
  obtain rfl := fresh n status has
  obtain ⟨t, mem, status_eq⟩ := Option.map_eq_some_iff.mp has
  have waits : s.Waits n := Or.inl has
  have circle : s.circle = n :: (List.range n).reverse := by
    rw [State.circle, curr]
    simp only [list_eq h, length, List.range_succ, List.reverse_append, List.reverse_singleton,
      List.singleton_append]
  rw [FindsFirst, circle, List.find?_cons_of_pos (by simpa using waits)]
  simp only [threadCandidate, curr, candidateLoop, h.head, length, below_succ, Option.or_some,
    Option.getD_some, mem, status_eq, true_or, if_true]

theorem Inv.findsFirst {m : Machine} (inv : Inv m) : FindsFirst m.state := by
  cases curr : m.state.curr with
  | some c => exact findsFirst_walk inv.linked curr (inv.curr c curr)
  | none => exact findsFirst_head inv.linked curr inv.nonempty (inv.idle curr).2.1

/-- With an empty list the walk follows `NULL`. -/
theorem not_findsFirst_empty (head : s.head = none) (curr : s.curr = none) : ¬ FindsFirst s := by
  simp [FindsFirst, threadCandidate, curr, head, candidateLoop]

theorem execute_empty {b : Behaviour} {m : Machine} (ok : execute b 0 n = .ok m) : m = start 0 := by
  induction n generalizing m with
  | zero => exact (Except.ok.inj ok).symm
  | succ n ih =>
    cases before : execute b 0 n with
    | error f => simp [execute, before] at ok
    | ok m' =>
      obtain rfl := ih before
      simp [execute, before, step, start, schedule, threadCandidate, candidateLoop] at ok

end

/-- `scheduler_execute` without any thread. -/
theorem threadCandidate_empty : (¬ ∀ s, Reachable s → FindsFirst s) ∧
    Reachable (start 0).state ∧ threadCandidate (start 0).state = .error .segv := by
  have reachable : Reachable (start 0).state := .run (fun _ => .exit) 0 0 (start 0) rfl
  exact ⟨fun all => not_findsFirst_empty rfl rfl (all _ reachable), reachable, rfl⟩

/-- In every state of a run `thread_candidate` gives the first thread of the circle that waits, or
`NULL` where none does, if and only if the list is not empty. -/
theorem threadCandidate_first_iff {s : State} (reachable : Reachable s) :
    FindsFirst s ↔ s.head ≠ none := by
  cases reachable with
  | run b k n m ok =>
    cases k with
    | zero =>
      obtain rfl := execute_empty ok
      exact iff_of_false (not_findsFirst_empty rfl rfl) (fun ne => ne rfl)
    | succ k =>
      obtain ⟨m', ok', inv, _⟩ := execute_round b (k + 1) (Nat.succ_pos k) n
      obtain rfl := Except.ok.inj (ok.symm.trans ok')
      refine iff_of_true inv.findsFirst ?_
      obtain ⟨n, length⟩ := Nat.exists_eq_succ_of_ne_zero (Nat.pos_iff_ne_zero.mp inv.nonempty)
      rw [inv.linked.head, length, below_succ]
      exact Option.some_ne_none n
  | destroyed b k n m ok control =>
    exact iff_of_false (not_findsFirst_empty rfl rfl) (fun ne => ne rfl)

/-- Three threads had a turn; only the head has not ended, and the walk comes round to it. -/
theorem threadCandidate_first_turned :
    ∃ m, execute yieldOnce 3 6 = .ok m ∧ m.state.head = some 2 ∧ m.state.curr = some 0 ∧
      FindsFirst m.state ∧ threadCandidate m.state = .ok (some 2) := by
  refine ⟨_, rfl, rfl, rfl, (threadCandidate_first_iff (.run yieldOnce 3 6 _ rfl)).mpr ?_, rfl⟩
  exact Option.some_ne_none 2

end OsProjects.Threads
