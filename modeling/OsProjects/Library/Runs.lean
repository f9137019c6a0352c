import Mathlib.Data.List.Basic

/-!
# Runs of a machine that may fail

A machine takes a request in a state and gives the next state, or fails; a run is its
`foldlM` over the requests. A condition that each step of a run meets is stated on the
state before the step. An invariant of the steps that meet it holds of the state a run
reaches, and a run over requests that fails exactly where the condition does returns
exactly when every step meets it.
-/
namespace OsProjects.Library

variable {σ ι ε : Type*}

/-- Every step of the run meets a condition, as long as the run goes on. -/
def Meets (step : σ → ι → Except ε σ) (P : σ → ι → Prop) (s : σ) : List ι → Prop
  | [] => True
  | i :: is => P s i ∧
    match step s i with
    | .error _ => True
    | .ok s' => Meets step P s' is

variable {step : σ → ι → Except ε σ} {P : σ → ι → Prop} {Inv : σ → Prop}

theorem Meets.tail {s s' : σ} {i : ι} {is : List ι} (h : Meets step P s (i :: is))
    (next : step s i = .ok s') : Meets step P s' is := by
  have rest := h.2
  rwa [next] at rest

theorem Meets.of_forall (all : ∀ s i, P s i) (s : σ) (is : List ι) : Meets step P s is := by
  induction is generalizing s with
  | nil => exact trivial
  | cons i is ih =>
    refine ⟨all s i, ?_⟩
    cases step s i with
    | error e => trivial
    | ok s' => exact ih s'

def Meets.decidable [∀ s i, Decidable (P s i)] :
    (is : List ι) → (s : σ) → Decidable (Meets step P s is)
  | [], _ => .isTrue trivial
  | i :: is, s =>
    match next : step s i with
    | .error _ => decidable_of_iff (P s i) (by simp [Meets, next])
    | .ok s' =>
      have := decidable is s'
      decidable_of_iff (P s i ∧ Meets step P s' is) (by simp [Meets, next])

instance [∀ s i, Decidable (P s i)] (s : σ) (is : List ι) : Decidable (Meets step P s is) :=
  Meets.decidable is s

/-- A computation that does not fail and gives what meets a property. -/
def Returns (x : Except ε σ) (Q : σ → Prop) : Prop := ∃ s, x = .ok s ∧ Q s

def Returns.decidable {Q : σ → Prop} [∀ s, Decidable (Q s)] :
    (x : Except ε σ) → Decidable (Returns x Q)
  | .error _ => .isFalse nofun
  | .ok s => decidable_of_iff (Q s) ⟨fun h => ⟨s, rfl, h⟩, fun ⟨_, same, h⟩ => by cases same; exact h⟩

instance {Q : σ → Prop} [∀ s, Decidable (Q s)] (x : Except ε σ) : Decidable (Returns x Q) :=
  Returns.decidable x

theorem foldlM_cons_ok {s s' : σ} {i : ι} {is : List ι}
    (run : (i :: is).foldlM step s = .ok s') :
    ∃ s₁, step s i = .ok s₁ ∧ is.foldlM step s₁ = .ok s' := by
  rw [List.foldlM_cons] at run
  cases next : step s i with
  | error e => simp [next, bind, Except.bind] at run
  | ok s₁ => exact ⟨s₁, rfl, by simpa [next, bind, Except.bind] using run⟩

/-- What the steps that meet the condition keep holds of the state the run reaches. -/
theorem foldlM_keeps (keeps : ∀ s i s', Inv s → P s i → step s i = .ok s' → Inv s')
    (is : List ι) {s s' : σ} (inv : Inv s) (meets : Meets step P s is)
    (run : is.foldlM step s = .ok s') : Inv s' := by
  induction is generalizing s with
  | nil =>
    obtain rfl : s = s' := Except.ok.inj run
    exact inv
  | cons i is ih =>
    obtain ⟨s₁, next, rest⟩ := foldlM_cons_ok run
    exact ih (keeps s i s₁ inv meets.1 next) (meets.tail next) rest

/-- A machine that fails exactly where the condition does returns from a run exactly when every
step meets it. -/
theorem foldlM_returns_iff (keeps : ∀ s i s', Inv s → step s i = .ok s' → Inv s')
    (returns : ∀ s i, Inv s → ((∃ s', step s i = .ok s') ↔ P s i)) (is : List ι) {s : σ}
    (inv : Inv s) : (∃ s', is.foldlM step s = .ok s') ↔ Meets step P s is := by
  induction is generalizing s with
  | nil => exact ⟨fun _ => trivial, fun _ => ⟨s, rfl⟩⟩
  | cons i is ih =>
    constructor
    · rintro ⟨s', run⟩
      obtain ⟨s₁, next, rest⟩ := foldlM_cons_ok run
      refine ⟨(returns s i inv).mp ⟨s₁, next⟩, ?_⟩
      rw [next]
      exact (ih (keeps s i s₁ inv next)).mp ⟨s', rest⟩
    · intro meets
      obtain ⟨s₁, next⟩ := (returns s i inv).mpr meets.1
      obtain ⟨s', rest⟩ := (ih (keeps s i s₁ inv next)).mpr (meets.tail next)
      refine ⟨s', ?_⟩
      rw [List.foldlM_cons, next]
      exact rest

end OsProjects.Library
