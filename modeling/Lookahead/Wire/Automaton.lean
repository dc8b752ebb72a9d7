import Lookahead.Automaton.Basic
import Lookahead.Wire.Guard

/-! Automata as plain data. -/
namespace Lookahead

def Symbol.toWire (s : Symbol) : Wire := .number s.toNat

/-- Symbols have 32 bits. -/
def Symbol.ofWire? (w : Wire) : Option Symbol :=
  (w.number?.filter (· < UInt32.size)).map UInt32.ofNat

def Transition.toWire (t : Transition) : Wire :=
  .record [("lo", t.lo.toWire), ("hi", t.hi.toWire), ("target", .number t.target),
    ("gate", .ofOption Guard.toWire t.gate)]

def Transition.ofWire? (w : Wire) : Option Transition := do
  return {
    lo := ← Symbol.ofWire? (w.field "lo")
    hi := ← Symbol.ofWire? (w.field "hi")
    target := ← (w.field "target").number?
    gate := ← (w.field "gate").option? Guard.ofWire? }

def Candidate.toWire (c : Candidate) : Wire :=
  .record [("alt", .number c.alt), ("context", .ofOption Guard.toWire c.guard),
    ("exit_branch", .bool c.exit)]

def Candidate.ofWire? (w : Wire) : Option Candidate := do
  return {
    alt := ← (w.field "alt").number?
    guard := ← (w.field "context").option? Guard.ofWire?
    exit := ← (w.field "exit_branch").bool? }

namespace Resolution

def toWire : Resolution → Wire
  | unique alt => .shape "Unique" (.number alt)
  | ambiguous chosen alternatives =>
    .shape "Ambiguous"
      (.record [("chosen", .number chosen), ("alternatives", .list (alternatives.map .number))])
  | predicated candidates => .shape "Predicated" (.list (candidates.map Candidate.toWire))

def ofWire? : Wire → Option Resolution
  | .record [("Unique", w)] => w.number?.map unique
  | .record [("Ambiguous", w)] => do
    return ambiguous (← (w.field "chosen").number?)
      (← (w.field "alternatives").list? Wire.number?)
  | .record [("Predicated", w)] => (w.list? Candidate.ofWire?).map predicated
  | _ => none

end Resolution

def State.toWire (s : State) : Wire :=
  .record [("transitions", .list (s.transitions.map Transition.toWire)),
    ("accept", .ofOption Resolution.toWire s.accept),
    ("terminal", .ofOption Resolution.toWire s.terminal)]

def State.ofWire? (w : Wire) : Option State := do
  return {
    transitions := ← (w.field "transitions").list? Transition.ofWire?
    accept := ← (w.field "accept").option? Resolution.ofWire?
    terminal := ← (w.field "terminal").option? Resolution.ofWire? }

namespace DecisionKind

def toWire : DecisionKind → Wire
  | block => .text "Block"
  | optional => .text "Optional"
  | star => .text "Star"
  | plus => .text "Plus"
  | tokens => .text "Tokens"

def ofWire? : Wire → Option DecisionKind
  | .text "Block" => some block
  | .text "Optional" => some optional
  | .text "Star" => some star
  | .text "Plus" => some plus
  | .text "Tokens" => some tokens
  | _ => none

end DecisionKind

namespace Automaton

def toWire (a : Automaton) : Wire :=
  .record [("decision", .number a.decision), ("rule", .number a.rule),
    ("rule_name", .text a.ruleName), ("kind", a.kind.toWire), ("alt_count", .number a.altCount),
    ("states", .list (a.states.map State.toWire))]

def ofWire? (w : Wire) : Option Automaton := do
  return {
    decision := ← (w.field "decision").number?
    rule := ← (w.field "rule").number?
    ruleName := ← (w.field "rule_name").text?
    kind := ← DecisionKind.ofWire? (w.field "kind")
    altCount := ← (w.field "alt_count").number?
    states := ← (w.field "states").list? State.ofWire? }

end Automaton
end Lookahead
