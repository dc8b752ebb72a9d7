import Lookahead.Predicate

/-! Guards: conditions over predicates, under which an alternative stays viable.

Guards are ordered by their shape. Constants come first, then predicates by their
numbers, then negations, conjunctions and disjunctions, whose parts are compared
from left to right. Two guards are the `same` when only what predicates carry
besides their numbers tells them apart. -/
namespace Lookahead

inductive Guard where
  | never
  | always
  | leaf (predicate : Predicate)
  | not (guard : Guard)
  | all (guards : List Guard)
  | any (guards : List Guard)
  deriving Repr

namespace Guard

mutual
/-- Equality of guards in every field of their predicates. -/
def decEq : (g h : Guard) → Decidable (g = h)
  | .never, .never | .always, .always => isTrue rfl
  | .leaf p, .leaf q => if h : p = q then isTrue (h ▸ rfl) else isFalse (by simp [h])
  | .not g, .not h =>
    match decEq g h with
    | isTrue e => isTrue (e ▸ rfl)
    | isFalse e => isFalse (by simp [e])
  | .all gs, .all hs =>
    match decEqList gs hs with
    | isTrue e => isTrue (e ▸ rfl)
    | isFalse e => isFalse (by simp [e])
  | .any gs, .any hs =>
    match decEqList gs hs with
    | isTrue e => isTrue (e ▸ rfl)
    | isFalse e => isFalse (by simp [e])
  | .never, .always | .never, .leaf _ | .never, .not _ | .never, .all _ | .never, .any _
  | .always, .never | .always, .leaf _ | .always, .not _ | .always, .all _ | .always, .any _
  | .leaf _, .never | .leaf _, .always | .leaf _, .not _ | .leaf _, .all _ | .leaf _, .any _
  | .not _, .never | .not _, .always | .not _, .leaf _ | .not _, .all _ | .not _, .any _
  | .all _, .never | .all _, .always | .all _, .leaf _ | .all _, .not _ | .all _, .any _
  | .any _, .never | .any _, .always | .any _, .leaf _ | .any _, .not _ | .any _, .all _ =>
    isFalse nofun

def decEqList : (gs hs : List Guard) → Decidable (gs = hs)
  | [], [] => isTrue rfl
  | [], _ :: _ | _ :: _, [] => isFalse nofun
  | g :: gs, h :: hs =>
    match decEq g h, decEqList gs hs with
    | isTrue e, isTrue es => isTrue (e ▸ es ▸ rfl)
    | isFalse e, _ => isFalse (by simp [e])
    | _, isFalse es => isFalse (by simp [es])
end

instance : DecidableEq Guard := decEq

/-- The place of a guard's shape in the order. -/
def rank : Guard → Nat
  | .never => 0
  | .always => 1
  | .leaf _ => 2
  | .not _ => 3
  | .all _ => 4
  | .any _ => 5

mutual
def compare : Guard → Guard → Ordering
  | .leaf p, .leaf q => Ord.compare p.id q.id
  | .not g, .not h => compare g h
  | .all gs, .all hs => compareLists gs hs
  | .any gs, .any hs => compareLists gs hs
  | g, h => Ord.compare g.rank h.rank

/-- Lexicographic order. -/
def compareLists : List Guard → List Guard → Ordering
  | [], [] => .eq
  | [], _ :: _ => .lt
  | _ :: _, [] => .gt
  | g :: gs, h :: hs => (compare g h).then (compareLists gs hs)
end

/-- Two guards are equal as far as the order can tell. -/
def same (g h : Guard) : Bool := compare g h == .eq

def isAlways : Guard → Bool
  | .always => true
  | _ => false

def isNever : Guard → Bool
  | .never => true
  | _ => false

mutual
/-- The predicates of a guard from left to right, each as often as it occurs. -/
def predicates : Guard → List Predicate
  | .never | .always => []
  | .leaf p => [p]
  | .not g => predicates g
  | .all gs | .any gs => predicatesOf gs

def predicatesOf : List Guard → List Predicate
  | [] => []
  | g :: gs => predicates g ++ predicatesOf gs
end

@[simp] theorem isAlways_iff {g : Guard} : g.isAlways = true ↔ g = .always := by
  cases g <;> simp [isAlways]

@[simp] theorem isNever_iff {g : Guard} : g.isNever = true ↔ g = .never := by
  cases g <;> simp [isNever]

end Guard
end Lookahead
