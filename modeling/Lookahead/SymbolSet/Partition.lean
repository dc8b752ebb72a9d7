import Lookahead.SymbolSet.Basic

/-! Splitting symbol sets into ranges that none of them cuts.

`partition sets` covers exactly the symbols of the sets, and each of its ranges
is inside or outside each set as a whole. The ranges start and end where some set
starts or ends. Such a place is a number up to 2^32, one more than the highest
symbol, so places are kept as natural numbers. -/
namespace Lookahead.SymbolSet

/-- Where membership in one of the sets may change: at the first symbol of a range
and at the first one after it. -/
def places (sets : List SymbolSet) : List Nat :=
  (sets.flatMap SymbolSet.ranges).flatMap fun r => [r.lo.toNat, r.hi.toNat + 1]

/-- The ranges between neighbouring places. -/
def gaps : List Nat → List SymbolRange
  | a :: b :: rest => ⟨UInt32.ofNat a, UInt32.ofNat (b - 1)⟩ :: gaps (b :: rest)
  | _ => []

/-- The coarsest ranges, ascending, that lie inside or outside each of the sets and
inside at least one. -/
def partition (sets : List SymbolSet) : List SymbolRange :=
  (gaps (distinctRuns (· == ·) (sortBy (· ≤ ·) (places sets)))).filter fun r =>
    sets.any (·.covers r.lo r.hi)

end Lookahead.SymbolSet
