/-! Sorting a list by insertion.

`sortBy le` is stable: of two elements that `le` puts both ways, the one that
came first stays first. `distinctRuns same` keeps the first element of every run
of elements that `same` takes for one, so on a sorted list each element is left
once. -/
namespace Lookahead

/-- `x` in front of the first element that may follow it. -/
def insertBy (le : α → α → Bool) (x : α) : List α → List α
  | [] => [x]
  | y :: ys => if le x y then x :: y :: ys else y :: insertBy le x ys

def sortBy (le : α → α → Bool) : List α → List α
  | [] => []
  | x :: xs => insertBy le x (sortBy le xs)

/-- What `distinctRuns` keeps of a list that follows `x`. -/
def runsAfter (same : α → α → Bool) (x : α) : List α → List α
  | [] => []
  | y :: ys => if same x y then runsAfter same x ys else y :: runsAfter same y ys

def distinctRuns (same : α → α → Bool) : List α → List α
  | [] => []
  | x :: xs => x :: runsAfter same x xs

theorem perm_insertBy (le : α → α → Bool) (x : α) (l : List α) :
    (insertBy le x l).Perm (x :: l) := by
  induction l with
  | nil => exact List.Perm.refl _
  | cons y ys ih =>
    simp only [insertBy]
    split
    · exact List.Perm.refl _
    · exact (ih.cons y).trans (List.Perm.swap x y ys)

theorem perm_sortBy (le : α → α → Bool) (l : List α) : (sortBy le l).Perm l := by
  induction l with
  | nil => exact List.Perm.refl _
  | cons x xs ih => exact (perm_insertBy le x _).trans (ih.cons x)

@[simp] theorem mem_sortBy {le : α → α → Bool} {x : α} {l : List α} : x ∈ sortBy le l ↔ x ∈ l :=
  (perm_sortBy le l).mem_iff

@[simp] theorem length_sortBy (le : α → α → Bool) (l : List α) :
    (sortBy le l).length = l.length :=
  (perm_sortBy le l).length_eq

end Lookahead
