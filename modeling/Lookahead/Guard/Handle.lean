import Lookahead.Guard.Junction

/-! Handles tell guards that were built once from equal guards that were built twice.

Whoever builds a guard stamps it, and every part keeps the stamp that it had before.
So a guard that is taken out of another one, as the operand that is left of a
junction or the inside of a double negation, is known again. What a handle's guard
is never depends on stamps. -/
namespace Lookahead.Guard

/-- Tells guards apart that were built at different times. One that was built as a
whole gives its parts stamps of their own: the way to the part, put before its own
stamp. -/
abbrev Stamp := List Nat

/-- The stamp of a guard, and those of its parts. -/
inductive Stamps where
  | node (stamp : Stamp) (parts : List Stamps)
  deriving Repr

namespace Stamps

def stamp : Stamps → Stamp
  | node stamp _ => stamp

def parts : Stamps → List Stamps
  | node _ parts => parts

mutual
/-- The stamps of a guard that is built as a whole. -/
def ofGuard (stamp : Stamp) : Guard → Stamps
  | .not g => .node stamp [ofGuard (0 :: stamp) g]
  | .all gs | .any gs => .node stamp (ofGuards stamp 0 gs)
  | .never | .always | .leaf _ => .node stamp []

/-- The stamps of parts that are counted from `i` on. -/
def ofGuards (stamp : Stamp) (i : Nat) : List Guard → List Stamps
  | [] => []
  | g :: gs => ofGuard (i :: stamp) g :: ofGuards stamp (i + 1) gs
end

end Stamps

structure Handle where
  guard : Guard
  stamps : Stamps
  deriving Repr

namespace Handle

/-- A guard that is built as a whole. -/
def ofGuard (stamp : Stamp) (g : Guard) : Handle := ⟨g, .ofGuard stamp g⟩

/-- Both handles hold one guard that was built once. -/
def isShared (h k : Handle) : Bool :=
  h.stamps.stamp == k.stamps.stamp && decide (h.guard = k.guard)

/-- What a handle gives to a junction. -/
def operands (j : Junction) (h : Handle) : List Handle :=
  match j.parts? h.guard with
  | some gs => List.zipWith Handle.mk gs h.stamps.parts
  | none => [h]

/-- The first of some handles that holds a guard, if there is one. -/
def holding? (g : Guard) (hs : List Handle) : Option Handle := hs.find? (·.guard = g)

/-- The canonical junction of some handles, which is one of the operands if nothing
else is left. -/
def join (j : Junction) (stamp : Stamp) (hs : List Handle) : Handle :=
  let g := j.of (hs.map guard)
  let ops := hs.flatMap (operands j)
  match holding? g ops with
  | some h => ⟨g, h.stamps⟩
  | none =>
    let kept := ((j.parts? g).getD []).filterMap fun part => holding? part ops
    ⟨g, .node stamp (kept.map stamps)⟩

def negate (stamp : Stamp) (h : Handle) : Handle :=
  match h.guard, h.stamps with
  | .not g, .node _ (inside :: _) => ⟨g, inside⟩
  | g, stamps => ⟨g.negate, .node stamp [stamps]⟩

@[simp] theorem guard_ofGuard (stamp : Stamp) (g : Guard) : (ofGuard stamp g).guard = g := rfl

@[simp] theorem guard_join (j : Junction) (stamp : Stamp) (hs : List Handle) :
    (join j stamp hs).guard = j.of (hs.map guard) := by
  simp only [join]
  split <;> rfl

@[simp] theorem guard_negate (stamp : Stamp) (h : Handle) :
    (h.negate stamp).guard = h.guard.negate := by
  obtain ⟨g, stamps⟩ := h
  unfold negate
  split
  · next h _ => exact (congrArg Guard.negate h).symm
  · rfl

theorem guard_eq_of_isShared {h k : Handle} (e : h.isShared k = true) : h.guard = k.guard := by
  simp only [isShared, Bool.and_eq_true, decide_eq_true_eq] at e
  exact e.2

end Handle
end Lookahead.Guard
