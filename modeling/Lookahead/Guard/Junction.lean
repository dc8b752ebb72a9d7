import Lookahead.Guard.Basic
import Lookahead.Sorting

/-! Conjunctions, disjunctions and negations in canonical form.

The constructors of `Guard` build any tree; the operations here build one tree for
each meaning that they can tell. Constants disappear or decide the whole. A
junction of junctions of its own kind is one flat junction. Operands are sorted and
stand only once. An operand beside its negation decides the whole. An operand that
is a junction of the other kind and shares a part with this one says nothing new
and is dropped. A double negation disappears.

Both kinds of junction are one definition, `Junction.of`, since they differ only in
which constant is neutral. -/
namespace Lookahead

inductive Junction where
  | all
  | any
  deriving DecidableEq, Repr

namespace Junction

def other : Junction → Junction
  | all => any
  | any => all

/-- The junction of no operands. -/
def neutral : Junction → Guard
  | all => .always
  | any => .never

/-- The constant that decides a junction on its own. -/
def absorbing (j : Junction) : Guard := j.other.neutral

def make : Junction → List Guard → Guard
  | all, gs => .all gs
  | any, gs => .any gs

/-- The operands of a guard that is a junction of this kind. -/
def parts? : Junction → Guard → Option (List Guard)
  | all, .all gs => some gs
  | any, .any gs => some gs
  | _, _ => none

/-- The operands with junctions of the same kind opened and neutral constants left
out. -/
def flatten (j : Junction) (gs : List Guard) : List Guard :=
  gs.flatMap fun g => if g = j.neutral then [] else (j.parts? g).getD [g]

/-- The operands in order, each of them once. -/
def arrange (gs : List Guard) : List Guard :=
  distinctRuns Guard.same (sortBy (fun g h => (g.compare h).isLE) gs)

/-- `g` is one of the operands. -/
def has (ops : List Guard) (g : Guard) : Bool := ops.any g.same

/-- `g` is the negation of an operand, or of a junction of this kind all of whose
parts are operands. -/
def contradicts (j : Junction) (ops : List Guard) : Guard → Bool
  | .not g =>
    match j.parts? g with
    | some gs => gs.all (has ops)
    | none => has ops g
  | _ => false

/-- `g` is a junction of the other kind with an operand among its parts. -/
def absorbs (j : Junction) (ops : List Guard) (g : Guard) : Bool :=
  match j.other.parts? g with
  | some gs => gs.any (has ops)
  | none => false

def build (j : Junction) : List Guard → Guard
  | [] => j.neutral
  | [g] => g
  | g :: h :: gs => j.make (g :: h :: gs)

/-- The canonical junction of some guards. -/
def of (j : Junction) (gs : List Guard) : Guard :=
  if gs.contains j.absorbing then j.absorbing
  else
    let ops := arrange (j.flatten gs)
    if ops.any (j.contradicts ops) then j.absorbing
    else j.build (ops.filter fun g => !j.absorbs ops g)

@[simp] theorem other_other (j : Junction) : j.other.other = j := by
  cases j <;> rfl

@[simp] theorem of_nil (j : Junction) : j.of [] = j.neutral := by
  cases j <;> rfl

end Junction

namespace Guard

/-- The condition that all of some guards hold. -/
def allOf (gs : List Guard) : Guard := Junction.all.of gs

/-- The condition that some of some guards hold. -/
def anyOf (gs : List Guard) : Guard := Junction.any.of gs

def and (g h : Guard) : Guard := allOf [g, h]

def or (g h : Guard) : Guard := anyOf [g, h]

def negate : Guard → Guard
  | .always => .never
  | .never => .always
  | .not g => g
  | g => .not g

end Guard
end Lookahead
