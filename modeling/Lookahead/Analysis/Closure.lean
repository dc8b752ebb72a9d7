import Lookahead.Analysis.Configuration
import Lookahead.Exploration

/-! Closing positions under the moves that read no symbol.

A call puts the node to return to on the stack, and the end of a rule takes it off
again. Without one, a rule may lead on wherever it is called. A predicate is passed
or blocks the way. Recursion that comes back to a call site as often as the limit
allows, without returning, fails: no finite automaton could describe it.

Up to the first symbol a way conjoins the predicates that it passes to its conditions
(`ofEntries`). Later ones belong to later decisions, and a way keeps the conditions
that it has (`ofSteps`). What a way carries is its label; the moves are the same
whatever that is. -/
namespace Lookahead

/-- A way as far as it has come. -/
structure Way (label : Type) where
  alt : Ordinal
  node : NodeId
  /-- The nodes to return to, innermost first. -/
  stack : List NodeId
  label : label
  deriving DecidableEq, Repr

/-- What the closure has to know of a grammar and its analysis. -/
structure Terrain where
  network : Network
  predicates : List Predicate
  /-- The values of predicates that are known beforehand. -/
  staticValues : List (Option Bool)
  /-- How often the same call may be open at once. -/
  maxRecursionDepth : Nat

namespace Terrain

/-- The value of a gate that is known beforehand. Other predicates are never decided
here. -/
def gateValue (t : Terrain) (id : PredicateId) : Option Bool :=
  match t.predicates[id]? with
  | some p => if p.isGated then t.staticValues[id]?.join else none
  | none => none

def isGated (t : Terrain) (id : PredicateId) : Bool := t.predicates[id]?.any (·.isGated)

end Terrain

namespace Way
variable {label : Type}

/-- Where an edge leads without reading a symbol. `pass` says what passing a
predicate makes of the label, if the predicate lets the way pass. -/
def along (t : Terrain) (pass : PredicateId → label → Option label) (w : Way label) :
    Edge → Except RuleId (List (Way label))
  | .silent target | .action target => .ok [{ w with node := target }]
  | .symbols .. => .ok []
  | .predicate id target =>
    .ok ((pass id w.label).toList.map fun l => { w with node := target, label := l })
  | .call rule follow =>
    if t.maxRecursionDepth ≤ w.stack.count follow then .error rule
    else .ok [{ w with node := Network.start rule, stack := follow :: w.stack }]

/-- Where all of some edges lead. -/
def alongAll (t : Terrain) (pass : PredicateId → label → Option label) (w : Way label) :
    List Edge → Except RuleId (List (Way label))
  | [] => .ok []
  | e :: es =>
    match w.along t pass e with
    | .error rule => .error rule
    | .ok ways => (w.alongAll t pass es).map (ways ++ ·)

/-- Where a way leads without reading a symbol, or the rule whose recursion goes too
deep. -/
def moves (t : Terrain) (pass : PredicateId → label → Option label) (w : Way label) :
    Except RuleId (List (Way label)) :=
  match t.network.stopOf? w.node, w.stack with
  | some _, follow :: stack => .ok [{ w with node := follow, stack := stack }]
  | some rule, [] => .ok ((t.network.followsOf rule).map fun follow => { w with node := follow })
  | none, _ => w.alongAll t pass (t.network.edgesOf w.node)

/-- The input may end after this way: a rule that accepts ends without a caller. -/
def accepts (t : Terrain) (w : Way label) : Bool :=
  match t.network.stopOf? w.node with
  | some rule => w.stack.isEmpty && t.network.accepting.contains rule
  | none => false

/-- A bound on how many ways can be reached from some ways, where labels that these
have can become at most `2 ^ labels` ones. It is a power of two, and this is its
exponent. -/
def bound (t : Terrain) (labels : Nat) (ways : List (Way label)) : Nat :=
  let longest := (ways.map (·.stack.length)).foldl max 0
  let size := t.network.size
  let edges := ((List.range size).map fun n => (t.network.edgesOf n).length).foldl (· + ·) 0
  let follows := (t.network.follows.toList.map List.length).foldl (· + ·) 0
  size + 2 * ways.length + size * size * (t.maxRecursionDepth + longest) + labels +
    edges + follows + 2

/-- All ways that can be reached without reading a symbol. -/
def reach [DecidableEq label] (t : Terrain) (pass : PredicateId → label → Option label)
    (labels : Nat) (ways : List (Way label)) : Except RuleId (List (Way label)) :=
  explore (moves t pass) (bound t labels ways) ways

/-- The configurations of ways, where `read` says under which conditions a way is
open. -/
def configurations (t : Terrain) (read : label → Conditions) (ways : List (Way label)) :
    List Configuration :=
  Configuration.collect <|
    (ways.filter fun w => t.network.matchesInput w.node || w.accepts t).map fun w =>
      ⟨w.alt, w.node, w.stack, read w.label, w.accepts t⟩

end Way

namespace Closure

/-- Passing a predicate before the first symbol. -/
def hoist (t : Terrain) (id : PredicateId) (c : Conditions) : Option Conditions :=
  match t.gateValue id with
  | some false => none
  | some true => some c
  | none =>
    let leaf := (t.predicates[id]?.map Guard.leaf).getD .always
    some ⟨c.context.and leaf, if t.isGated id then c.gate.and leaf else c.gate⟩

/-- Passing a predicate after the first symbol. -/
def passLater {label : Type} (t : Terrain) (id : PredicateId) (l : label) : Option label :=
  match t.gateValue id with
  | some false => none
  | _ => some l

/-- The configurations before the first symbol, from where the alternatives are
entered. -/
def ofEntries (t : Terrain) (entries : List NodeId) : Except RuleId (List Configuration) :=
  let ways := entries.mapIdx fun i node => (⟨i + 1, node, [], .none⟩ : Way Conditions)
  (Way.reach t (hoist t) t.predicates.length ways).map (Way.configurations t id)

/-- The configurations that are reached from ways which have just read a symbol. -/
def ofSteps (t : Terrain) (ways : List (Way Conditions)) : Except RuleId (List Configuration) :=
  (Way.reach t (passLater t) ways.length ways).map (Way.configurations t id)

end Closure

/-- The ways on which configurations read any symbol of `lo..hi`. -/
def Configuration.read (t : Terrain) (lo hi : Symbol) (cs : List Configuration) :
    List (Way Conditions) :=
  cs.flatMap fun c => (t.network.edgesOf c.node).filterMap fun e =>
    match e with
    | .symbols set target =>
      if set.covers lo hi then some ⟨c.alt, target, c.stack, c.conditions⟩ else none
    | _ => none

end Lookahead
