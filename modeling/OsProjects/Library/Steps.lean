import Mathlib.Data.List.Basic

/-!
# Conditions along a list

`Steps P xs` says that `P` holds for each element of `xs` together with the elements
before it: what a run over `xs` meets at each of its steps.
-/
namespace OsProjects.Library

def Steps {α : Type} (P : List α → α → Prop) (xs : List α) : Prop :=
  ∀ before x after, xs = before ++ x :: after → P before x

variable {α : Type} {P Q : List α → α → Prop} {xs : List α}

theorem Steps.nil : Steps P [] := by
  intro before x after split
  simp at split

/-- An element of a list with a last element is the last one or stands before it. -/
theorem concat_eq_append_cons {x y : α} {before after : List α} :
    xs ++ [x] = before ++ y :: after ↔
      after = [] ∧ xs = before ∧ x = y ∨ ∃ more, after = more ++ [x] ∧ xs = before ++ y :: more := by
  constructor
  · intro split
    rcases List.eq_nil_or_concat after with rfl | ⟨more, z, rfl⟩
    · obtain ⟨rfl, same⟩ := List.append_inj' split rfl
      exact Or.inl ⟨rfl, rfl, List.singleton_inj.mp same⟩
    · rw [List.concat_eq_append, ← List.cons_append, ← List.append_assoc] at split
      obtain ⟨rfl, same⟩ := List.append_inj' split rfl
      obtain rfl := List.singleton_inj.mp same
      exact Or.inr ⟨more, List.concat_eq_append, rfl⟩
  · rintro (⟨rfl, rfl, rfl⟩ | ⟨more, rfl, rfl⟩)
    · rfl
    · simp

theorem steps_append {x : α} : Steps P (xs ++ [x]) ↔ Steps P xs ∧ P xs x := by
  constructor
  · intro h
    refine ⟨fun before y after split => ?_, h xs x [] rfl⟩
    apply h before y (after ++ [x])
    rw [split, List.append_assoc, List.cons_append]
  · rintro ⟨h, last⟩ before y after split
    rcases concat_eq_append_cons.mp split with ⟨rfl, rfl, rfl⟩ | ⟨more, rfl, rfl⟩
    · exact last
    · exact h before y more rfl

theorem Steps.before {x : α} {before after : List α} (h : Steps P xs)
    (split : xs = before ++ x :: after) : Steps P before := by
  intro before' y after' split'
  apply h before' y (after' ++ x :: after)
  rw [split, split', List.append_assoc, List.cons_append]

theorem Steps.imp (h : Steps P xs) (step : ∀ before x, P before x → Q before x) : Steps Q xs :=
  fun before x after split => step before x (h before x after split)

end OsProjects.Library
