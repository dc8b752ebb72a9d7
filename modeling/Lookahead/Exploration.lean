import Lookahead.Iteration

/-! Exploring what can be reached, depth first.

Of the places that are still to be visited, the one found last is visited next.
Visiting a place for the first time finds the places after it, or fails, and then
the exploration fails. -/
namespace Lookahead

/-- How far an exploration has come. -/
structure Frontier (α : Type) where
  /-- What is still to be visited, the next place first. -/
  pending : List α
  /-- What has been visited, the last place first. -/
  visited : List α

namespace Frontier
variable {α ε : Type} [DecidableEq α]

/-- Goes on to the next place. -/
def advance (next : α → Except ε (List α)) (f : Frontier α) :
    Step (Frontier α) (Except ε (List α)) :=
  match f.pending with
  | [] => .done (.ok f.visited.reverse)
  | x :: rest =>
    if x ∈ f.visited then .more ⟨rest, f.visited⟩
    else
      match next x with
      | .error e => .done (.error e)
      | .ok found => .more ⟨found.reverse ++ rest, x :: f.visited⟩

end Frontier

/-- What can be reached from `starts`, in the order of the visits, where fewer than
`2 ^ bound` places are taken up. -/
def explore [DecidableEq α] (next : α → Except ε (List α)) (bound : Nat) (starts : List α) :
    Except ε (List α) :=
  match bursts (Frontier.advance next) bound 0 ⟨starts.reverse, []⟩ with
  | .done result => result
  | .more f => .ok f.visited.reverse

end Lookahead
