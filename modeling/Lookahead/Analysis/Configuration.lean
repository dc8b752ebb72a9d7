import Lookahead.Guard.Junction
import Lookahead.Network

/-! Configurations: the positions at which lookahead may be, with their guards.

A position is an alternative, a node of the network and the nodes to return to. A
configuration is a position at which a symbol is read next or the input may end,
with the condition under which some way leads there. A state of an automaton is a
sorted list of configurations in which no position occurs twice. -/
namespace Lookahead

/-- The conditions on a way: all of its predicates, and its gates alone. -/
structure Conditions where
  context : Guard
  gate : Guard
  deriving DecidableEq, Repr

namespace Conditions

def none : Conditions := ⟨.always, .always⟩

/-- One of two ways is open. -/
def or (c d : Conditions) : Conditions := ⟨c.context.or d.context, c.gate.or d.gate⟩

end Conditions

structure Configuration where
  alt : Ordinal
  node : NodeId
  /-- The nodes to return to, innermost first. -/
  stack : List NodeId
  conditions : Conditions
  /-- The input may end here. -/
  accept : Bool
  deriving DecidableEq, Repr

namespace Configuration

def samePosition (c d : Configuration) : Bool :=
  c.alt == d.alt && c.node == d.node && c.stack == d.stack

/-- Lexicographic order. -/
def compareNodes : List NodeId → List NodeId → Ordering
  | [], [] => .eq
  | [], _ :: _ => .lt
  | _ :: _, [] => .gt
  | m :: ms, n :: ns => (Ord.compare m n).then (compareNodes ms ns)

/-- The order of positions: by alternative, by node, and by the nodes to return to,
outermost first. -/
def compare (c d : Configuration) : Ordering :=
  ((Ord.compare c.alt d.alt).then (Ord.compare c.node d.node)).then
    (compareNodes c.stack.reverse d.stack.reverse)

/-- Adds a way to a position, which may have been reached before. -/
def add (cs : List Configuration) (c : Configuration) : List Configuration :=
  match cs with
  | [] => [c]
  | d :: ds =>
    if d.samePosition c then { d with conditions := d.conditions.or c.conditions } :: ds
    else d :: add ds c

/-- Each position once, in order, with the condition that one of its ways is open. -/
def collect (cs : List Configuration) : List Configuration :=
  sortBy (fun c d => (c.compare d).isLE) (cs.foldl add [])

/-- The alternatives of sorted configurations. -/
def alternatives (cs : List Configuration) : List Ordinal :=
  distinctRuns (· == ·) (cs.map (·.alt))

/-- The configurations at the node and the stack of one of them. -/
def meeting (cs : List Configuration) (c : Configuration) : List Configuration :=
  cs.filter fun d => d.node == c.node && d.stack == c.stack

/-- No position belongs to a single alternative, so whatever follows is shared and
looking further would not help. -/
def isConflict (cs : List Configuration) : Bool :=
  cs.all fun c => 1 < (alternatives (meeting cs c)).length

/-- The condition on which one of the gates of the configurations is open; none if
one of them has no gate. -/
def gateOf (cs : List Configuration) : Option Guard :=
  let gate := (cs.map (·.conditions.gate)).foldl Guard.or .never
  if gate.isAlways then none else some gate

end Configuration
end Lookahead
