import Lookahead.Automaton.Basic
import Lookahead.Guard.Junction

/-! Deciding between alternatives that are viable together.

An alternative is viable if one of the ways to it is, so its guard is the
disjunction of theirs. Without any guard the first alternative is taken; otherwise
the guards decide when the automaton runs. -/
namespace Lookahead

/-- The candidates that some guarded ways to alternatives make. -/
def Candidate.ofWays (d : Decision) (ways : List (Ordinal × Guard)) : List Candidate :=
  let alts := distinctRuns (· == ·) (sortBy (· ≤ ·) (ways.map (·.1)))
  let guarded := alts.map fun alt =>
    (alt, ((ways.filter (·.1 == alt)).map (·.2)).foldl Guard.or .never)
  (guarded.filter (!·.2.isNever)).map fun (alt, g) =>
    ⟨alt, if g.isAlways then none else some g, d.exit? == some alt⟩

/-- How to decide between the alternatives to which some guarded ways lead; none, if
no alternative is viable. -/
def Resolution.ofWays (d : Decision) (ways : List (Ordinal × Guard)) : Option Resolution :=
  match Candidate.ofWays d ways with
  | [] => none
  | [⟨alt, none, _⟩] => some (.unique alt)
  | first :: rest =>
    if (first :: rest).all (·.guard.isNone) then
      some (.ambiguous first.alt ((first :: rest).map (·.alt)))
    else some (.predicated (first :: rest))

end Lookahead
