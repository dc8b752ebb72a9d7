import Lookahead.EditDistance
import Lookahead.Text.Lowercase

/-! Suggesting a name that was meant by another one.

Names are compared without regard to case. The part of the longer name that has to
be edited tells how far apart two names are; a name can be meant if that is at most
two fifths. -/
namespace Lookahead.Suggestion

/-- How far apart two names are: so many edits in so many characters. -/
structure Gap where
  edits : Nat
  length : Nat
  deriving DecidableEq, Repr

namespace Gap

/-- The gap between two texts, of which one is not empty. -/
def between (a b : List Char) : Gap :=
  ⟨EditDistance.distance a b, max 1 (max a.length b.length)⟩

/-- At most two fifths of the characters are edited. -/
def isSmall (g : Gap) : Bool := 5 * g.edits ≤ 2 * g.length

/-- `g` is at most as wide as `h`. -/
def le (g h : Gap) : Bool := g.edits * h.length ≤ h.edits * g.length

end Gap

/-- The candidate that `best` or `next` offers: the nearer one, or else the later. -/
def nearer (best : Option (String × Gap)) (next : String × Gap) : Option (String × Gap) :=
  match best with
  | none => some next
  | some b => if next.2.le b.2 then some next else some b

/-- The nearest candidate that can be meant by `name` and is not `name` itself; of
several, the last one. -/
def closest? (name : String) (candidates : List String) : Option String :=
  let lower := Text.lowercase name.toList
  let gaps := (candidates.filter (· ≠ name)).map fun c =>
    (c, Gap.between lower (Text.lowercase c.toList))
  ((gaps.filter (·.2.isSmall)).foldl nearer none).map (·.1)

end Lookahead.Suggestion
