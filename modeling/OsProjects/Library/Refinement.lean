import Mathlib.Tactic.TypeStar

/-!
# Machines that answer requests

A machine takes a request in a state and gives a reply and the next state, or fails. A
machine refines a specification when related states give the same reply and related next
states; then it gives the same replies over every list of requests, as long as the
specification meets the assumptions on the way.
-/
namespace OsProjects.Library

variable {σ τ ι ο ε : Type*}

/-- The replies of a machine to a list of requests, with its last state. -/
def replies (step : σ → ι → Except ε (ο × σ)) (s : σ) : List ι → Except ε (List ο × σ)
  | [] => .ok ([], s)
  | i :: is =>
    match step s i with
    | .error e => .error e
    | .ok (o, s) =>
      match replies step s is with
      | .error e => .error e
      | .ok (os, s) => .ok (o :: os, s)

/-- The replies of a specification, which does not fail. -/
def specified (spec : τ → ι → ο × τ) (t : τ) : List ι → List ο × τ
  | [] => ([], t)
  | i :: is =>
    ((spec t i).1 :: (specified spec (spec t i).2 is).1, (specified spec (spec t i).2 is).2)

/-- An assumption on the state of the specification at each request. -/
def Along (spec : τ → ι → ο × τ) (P : τ → ι → Prop) (t : τ) : List ι → Prop
  | [] => True
  | i :: is => P t i ∧ Along spec P (spec t i).2 is

variable {step : σ → ι → Except ε (ο × σ)} {spec : τ → ι → ο × τ} {P : τ → ι → Prop}
  {R : σ → τ → Prop}

instance [∀ t i, Decidable (P t i)] (t : τ) (is : List ι) : Decidable (Along spec P t is) :=
  match is with
  | [] => isTrue trivial
  | i :: is => @instDecidableAnd _ _ _ (instDecidableAlong (spec t i).2 is)

/-- One step of a refinement gives all runs. -/
theorem replies_refine
    (refines : ∀ s t i, R s t → P t i → ∃ s', step s i = .ok ((spec t i).1, s') ∧ R s' (spec t i).2)
    (is : List ι) (s : σ) (t : τ) (related : R s t) (along : Along spec P t is) :
    ∃ s', replies step s is = .ok ((specified spec t is).1, s') ∧ R s' (specified spec t is).2 := by
  induction is generalizing s t with
  | nil => exact ⟨s, rfl, related⟩
  | cons i is ih =>
    obtain ⟨here, later⟩ := along
    obtain ⟨s₁, reply, next⟩ := refines s t i related here
    obtain ⟨s', rest, last⟩ := ih s₁ (spec t i).2 next later
    refine ⟨s', ?_, last⟩
    simp only [replies, reply, rest, specified]

/-- A machine that may also fail: what it replies until then is what the specification says. -/
theorem replies_agree
    (agrees : ∀ s t i o s', R s t → step s i = .ok (o, s') → o = (spec t i).1 ∧ R s' (spec t i).2)
    (is : List ι) (s : σ) (t : τ) (related : R s t) (os : List ο) (s' : σ)
    (run : replies step s is = .ok (os, s')) :
    os = (specified spec t is).1 ∧ R s' (specified spec t is).2 := by
  induction is generalizing s t os s' with
  | nil =>
    obtain ⟨rfl, rfl⟩ := Prod.mk.inj (Except.ok.inj run)
    exact ⟨rfl, related⟩
  | cons i is ih =>
    simp only [replies] at run
    split at run
    · exact absurd run (by simp)
    · rename_i o s₁ reply
      obtain ⟨same, next⟩ := agrees s t i o s₁ related reply
      split at run
      · exact absurd run (by simp)
      · rename_i rest last later
        obtain ⟨rfl, rfl⟩ := Prod.mk.inj (Except.ok.inj run)
        obtain ⟨tail, kept⟩ := ih s₁ (spec t i).2 next rest last later
        exact ⟨by rw [same, tail]; rfl, kept⟩

/-- A run fails only as one of its steps does. -/
theorem replies_error {E : ι → ε → Prop}
    (agrees : ∀ s t i o s', R s t → step s i = .ok (o, s') → o = (spec t i).1 ∧ R s' (spec t i).2)
    (fails : ∀ s t i e, R s t → step s i = .error e → E i e)
    (is : List ι) (s : σ) (t : τ) (related : R s t) (e : ε)
    (run : replies step s is = .error e) : ∃ i ∈ is, E i e := by
  induction is generalizing s t with
  | nil => exact absurd run (by simp [replies])
  | cons i is ih =>
    simp only [replies] at run
    split at run
    · rename_i stop
      cases run
      exact ⟨i, by simp, fails s t i _ related stop⟩
    · rename_i o s₁ reply
      split at run
      · rename_i stop
        cases run
        obtain ⟨j, member, why⟩ := ih s₁ (spec t i).2 (agrees s t i o s₁ related reply).2 stop
        exact ⟨j, by simp [member], why⟩
      · exact absurd run (by simp)

end OsProjects.Library
