import Lookahead.Automaton.Basic
import Lookahead.Iteration

/-! Automata that may look ahead without end: those in which a state can be reached
from itself.

From each state in turn a search goes down the transitions, depth first. A state is
open from when it is entered until all its transitions have been taken, so the open
states are the path of the search, and a transition to one of them closes a cycle. A
transition to a state that is done is not followed again. -/
namespace Lookahead

/-- How far a search has come with a state. -/
inductive Mark where
  | new
  | opened
  | done
  deriving DecidableEq, Repr

/-- A state on the path of a search. -/
structure Visit where
  state : StateId
  /-- How many of its transitions have been taken. -/
  taken : Nat
  deriving Repr

/-- How far a search for a cycle has come. -/
structure CycleSearch where
  /-- The next state to start from. -/
  root : StateId
  /-- The visit that began last comes first. -/
  path : List Visit
  /-- At the numbers of the states. -/
  marks : Array Mark
  deriving Repr

namespace CycleSearch

def start (count : Nat) : CycleSearch := ⟨0, [], .replicate count .new⟩

/-- Goes down into a state from a path. -/
def enter (s : CycleSearch) (id : StateId) (path : List Visit) : CycleSearch :=
  { s with path := ⟨id, 0⟩ :: path, marks := s.marks.setIfInBounds id .opened }

/-- Takes the next transition on the path, leaves a state all of whose transitions have
been taken, or starts from the next state. The search ends with whether there is a
cycle, or with a number that is looked up and has no state. -/
def advance (states : Array State) (s : CycleSearch) : Step CycleSearch (Except StateId Bool) :=
  match s.path with
  | [] =>
    if s.root < states.size then
      let next := { s with root := s.root + 1 }
      match s.marks[s.root]? with
      | none => .done (.error s.root)
      | some .new => .more (next.enter s.root [])
      | some .opened | some .done => .more next
    else .done (.ok false)
  | ⟨id, taken⟩ :: path =>
    match states[id]? with
    | none => .done (.error id)
    | some state =>
      match state.transitions[taken]? with
      | none => .more { s with path := path, marks := s.marks.setIfInBounds id .done }
      | some t =>
        let path := ⟨id, taken + 1⟩ :: path
        match s.marks[t.target]? with
        | none => .done (.error t.target)
        | some .opened => .done (.ok true)
        | some .new => .more (s.enter t.target path)
        | some .done => .more { s with path := path }

end CycleSearch

namespace Automaton

/-- How many steps a search may take: each state is started from, entered and left, and
each transition taken once. -/
def cycleSteps (a : Automaton) : Nat :=
  2 * a.states.length + (a.states.flatMap (·.transitions)).length + 1

/-- Whether there is a cycle, or a number that is looked up and has no state. -/
def findCycle (a : Automaton) : Except StateId Bool :=
  match steps (CycleSearch.advance a.states.toArray) a.cycleSteps (.start a.states.length) with
  | .done result => result
  | .more _ => .ok false

/-- Some state can be reached from itself. -/
def isCyclic (a : Automaton) : Bool :=
  match a.findCycle with
  | .ok found => found
  | .error _ => false

end Automaton
end Lookahead
