import Lookahead.Bisection
import Lookahead.Sorting
import Lookahead.Symbol

/-! Sets of symbols as lists of inclusive ranges.

Every set that is built here is in normal form: the ranges ascend, no range is
empty, and between two of them at least one symbol is missing. So the queries
may look at one range at a time, and equal sets are equal lists. -/
namespace Lookahead

/-- An inclusive range of symbols. -/
structure SymbolRange where
  lo : Symbol
  hi : Symbol
  deriving DecidableEq, Repr

namespace SymbolRange

/-- The range between two bounds given in either order. -/
def between (a b : Symbol) : SymbolRange := if a ≤ b then ⟨a, b⟩ else ⟨b, a⟩

/-- On which side of a symbol the range lies; it is level with those that it has. -/
def side (r : SymbolRange) (s : Symbol) : Ordering :=
  if s < r.lo then .gt else if r.hi < s then .lt else .eq

/-- The range `lo..hi` lies inside `r`. -/
def covers (r : SymbolRange) (lo hi : Symbol) : Bool := r.lo ≤ lo && hi ≤ r.hi

/-- Ranges are ordered by their lower bounds, then by their upper bounds. -/
def compare (r t : SymbolRange) : Ordering :=
  (Ord.compare r.lo t.lo).then (Ord.compare r.hi t.hi)

/-- The number of symbols of a range; a full one has 2^32. -/
def size (r : SymbolRange) : UInt64 := (r.hi - r.lo).toUInt64 + 1

/-- The symbol after the range, which is its last one where none follows. -/
def next (r : SymbolRange) : Symbol := if r.hi = 0xFFFFFFFF then r.hi else r.hi + 1

def text (r : SymbolRange) : String :=
  if r.lo = r.hi then r.lo.text else r.lo.text ++ ".." ++ r.hi.text

end SymbolRange

/-- A set of symbols. -/
structure SymbolSet where
  ranges : List SymbolRange
  deriving DecidableEq, Repr

namespace SymbolSet

def empty : SymbolSet := ⟨[]⟩

/-- The symbols between two bounds given in either order. -/
def range (a b : Symbol) : SymbolSet := ⟨[.between a b]⟩

def single (s : Symbol) : SymbolSet := range s s

/-- Joins `r` with the ranges of a sorted list that overlap or touch it, and goes
on with the first one that does neither. -/
def mergeInto (r : SymbolRange) : List SymbolRange → List SymbolRange
  | [] => [r]
  | t :: rest =>
    if t.lo ≤ r.next then mergeInto ⟨r.lo, max r.hi t.hi⟩ rest else r :: mergeInto t rest

def merge : List SymbolRange → List SymbolRange
  | [] => []
  | r :: rest => mergeInto r rest

/-- The set of all symbols of some ranges, whose bounds may be in either order. -/
def ofRanges (bounds : List (Symbol × Symbol)) : SymbolSet :=
  ⟨merge (sortBy (fun r t => (r.compare t).isLE) (bounds.map fun b => .between b.1 b.2))⟩

def isEmpty (s : SymbolSet) : Bool := s.ranges.isEmpty

/-- The number of symbols in the set. -/
def size (s : SymbolSet) : UInt64 := (s.ranges.map SymbolRange.size).foldr (· + ·) 0

def contains (s : SymbolSet) (x : Symbol) : Bool := (bisect (·.side x) s.ranges).isSome

/-- The whole of `lo..hi` lies inside the set. -/
def covers (s : SymbolSet) (lo hi : Symbol) : Bool := s.ranges.any (·.covers lo hi)

def union (s t : SymbolSet) : SymbolSet :=
  ofRanges ((s.ranges ++ t.ranges).map fun r => (r.lo, r.hi))

/-- Two sorted lists of ranges share a symbol. Ranges of the second list that end
before the first range of the first one can meet nothing further on. -/
def overlap : List SymbolRange → List SymbolRange → Bool
  | [], _ => false
  | r :: rs, ts =>
    match ts.dropWhile fun t => t.hi < r.lo with
    | [] => false
    | t :: later => if r.hi < t.lo then overlap rs (t :: later) else true

def intersects (s t : SymbolSet) : Bool := overlap s.ranges t.ranges

/-- Lexicographic order on ranges. -/
def compareRanges : List SymbolRange → List SymbolRange → Ordering
  | [], [] => .eq
  | [], _ :: _ => .lt
  | _ :: _, [] => .gt
  | r :: rs, t :: ts => (r.compare t).then (compareRanges rs ts)

def compare (s t : SymbolSet) : Ordering := compareRanges s.ranges t.ranges

/-- The ranges between commas, in braces unless there is exactly one. -/
def text (s : SymbolSet) : String :=
  let body := ", ".intercalate (s.ranges.map SymbolRange.text)
  match s.ranges with
  | [_] => body
  | _ => "\x7b" ++ body ++ "\x7d"

end SymbolSet
end Lookahead
