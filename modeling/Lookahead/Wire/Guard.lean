import Lookahead.Guard.Basic
import Lookahead.Wire.Basic

/-! Guards as plain data. Reading one does not bring it into canonical form. -/
namespace Lookahead

def PredicateMode.toWire : PredicateMode → Wire
  | validating => .text "Validating"
  | gated => .text "Gated"

def PredicateMode.ofWire? : Wire → Option PredicateMode
  | .text "Validating" => some .validating
  | .text "Gated" => some .gated
  | _ => none

def SourceLocation.toWire (l : SourceLocation) : Wire :=
  .record [("line", .number l.line), ("column", .number l.column)]

def SourceLocation.ofWire? (w : Wire) : Option SourceLocation := do
  return ⟨← (w.field "line").number?, ← (w.field "column").number?⟩

def Predicate.toWire (p : Predicate) : Wire :=
  .record [("id", .number p.id), ("text", .text p.text), ("mode", p.mode.toWire),
    ("rule_name", .text p.ruleName), ("location", .ofOption SourceLocation.toWire p.location)]

def Predicate.ofWire? (w : Wire) : Option Predicate := do
  return {
    id := ← (w.field "id").number?
    text := ← (w.field "text").text?
    mode := ← PredicateMode.ofWire? (w.field "mode")
    ruleName := ← (w.field "rule_name").text?
    location := ← (w.field "location").option? SourceLocation.ofWire? }

namespace Guard

mutual
def toWire : Guard → Wire
  | .never => .text "False"
  | .always => .text "True"
  | .leaf p => .shape "Predicate" p.toWire
  | .not g => .shape "Not" (toWire g)
  | .all gs => .shape "And" (.list (toWires gs))
  | .any gs => .shape "Or" (.list (toWires gs))

def toWires : List Guard → List Wire
  | [] => []
  | g :: gs => toWire g :: toWires gs
end

mutual
def ofWire? : Wire → Option Guard
  | .text "False" => some .never
  | .text "True" => some .always
  | .record [("Predicate", w)] => (Predicate.ofWire? w).map .leaf
  | .record [("Not", w)] => (ofWire? w).map .not
  | .record [("And", .list ws)] => (ofWires? ws).map .all
  | .record [("Or", .list ws)] => (ofWires? ws).map .any
  | _ => none

def ofWires? : List Wire → Option (List Guard)
  | [] => some []
  | w :: ws =>
    match ofWire? w, ofWires? ws with
    | some g, some gs => some (g :: gs)
    | _, _ => none
end

end Guard
end Lookahead
