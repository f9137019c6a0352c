import Mathlib.Data.List.DropRight

/-!
# A list with a cursor

What stands before the cursor and what stands behind it, in the order of the list, with the
commands of an editor. A command that finds nothing to work on leaves the zipper as it is.
-/
namespace OsProjects.Library

@[ext] structure Zipper (α : Type) where
  before : List α
  after : List α
  deriving DecidableEq, Repr

namespace Zipper
variable {α : Type}

/-- The whole list. -/
def text (z : Zipper α) : List α := z.before ++ z.after

/-- A list with the cursor behind it. -/
def ofList (xs : List α) : Zipper α := ⟨xs, []⟩

def insert (x : α) (z : Zipper α) : Zipper α := ⟨z.before ++ [x], z.after⟩

/-- Removes the element behind the cursor. -/
def delete (z : Zipper α) : Zipper α := ⟨z.before, z.after.tail⟩

/-- Removes the element before the cursor. -/
def erase (z : Zipper α) : Zipper α := ⟨z.before.dropLast, z.after⟩

/-- Removes all that stands behind the cursor. -/
def cut (z : Zipper α) : Zipper α := ⟨z.before, []⟩

def right (z : Zipper α) : Zipper α := ⟨z.before ++ z.after.take 1, z.after.tail⟩

def left (z : Zipper α) : Zipper α :=
  ⟨z.before.dropLast, z.before.drop (z.before.length - 1) ++ z.after⟩

@[simp] theorem text_ofList (xs : List α) : (ofList xs).text = xs := List.append_nil xs

theorem text_right (z : Zipper α) : z.right.text = z.text := by
  cases after : z.after <;> simp [right, text, after]

theorem text_left (z : Zipper α) : z.left.text = z.text := by
  rcases List.eq_nil_or_concat z.before with before | ⟨xs, x, before⟩ <;>
    simp [left, text, before]

end Zipper

end OsProjects.Library
