set_option autoImplicit false

/-! # Stable sorting

Rows are sorted by a key that several of them may share; such rows keep the order they had. Sorting
is by insertion, one row at a time from the back. -/

namespace PlanGraph

variable {α : Type}

/-- Puts `a` in front of the first element that it does not exceed. -/
def insertSorted (le : α → α → Bool) (a : α) : List α → List α
  | [] => [a]
  | b :: rest => if le a b then a :: b :: rest else b :: insertSorted le a rest

/-- The elements in ascending order; those that neither exceeds keep their order. -/
def stableSort (le : α → α → Bool) : List α → List α
  | [] => []
  | a :: rest => insertSorted le a (stableSort le rest)

theorem insertSorted_perm (le : α → α → Bool) (a : α) (xs : List α) :
    List.Perm (insertSorted le a xs) (a :: xs) := by
  induction xs with
  | nil => exact List.Perm.refl _
  | cons b rest ih =>
    rw [insertSorted]
    split
    · exact List.Perm.refl _
    · exact (ih.cons b).trans (List.Perm.swap a b rest)

/-- Sorting only moves elements. -/
theorem stableSort_perm (le : α → α → Bool) (xs : List α) : List.Perm (stableSort le xs) xs := by
  induction xs with
  | nil => exact List.Perm.refl _
  | cons a rest ih => exact (insertSorted_perm le a _).trans (ih.cons a)

end PlanGraph
