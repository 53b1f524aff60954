/-
# Stable sorting

`stableSort le` sorts a list so that elements level with each other keep their
order: each element goes, from the last to the first, in front of the first one
that it stands before or level with.
-/

namespace PageContent

variable {α : Type}

/-- `a` put in front of the first element it is not behind. -/
def insertSorted (le : α → α → Bool) (a : α) : List α → List α
  | [] => [a]
  | b :: l => if le a b then a :: b :: l else b :: insertSorted le a l

/-- The list sorted, level elements in the order they had. -/
def stableSort (le : α → α → Bool) (l : List α) : List α := l.foldr (insertSorted le) []

theorem insertSorted_perm (le : α → α → Bool) (a : α) (l : List α) :
    (insertSorted le a l).Perm (a :: l) := by
  induction l with
  | nil => exact .refl _
  | cons b l ih =>
    unfold insertSorted
    split
    · exact .refl _
    · exact (ih.cons b).trans (.swap a b l)

/-- Sorting keeps every element. -/
theorem stableSort_perm (le : α → α → Bool) (l : List α) : (stableSort le l).Perm l := by
  induction l with
  | nil => exact .refl _
  | cons a l ih => exact (insertSorted_perm le a _).trans (ih.cons a)

end PageContent
