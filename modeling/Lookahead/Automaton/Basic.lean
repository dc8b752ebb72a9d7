import Lookahead.Bisection
import Lookahead.Grammar.Basic
import Lookahead.Guard.Basic

/-! Lookahead automata: one for each decision.

State 0 is the start. A state with a terminal resolution ends the prediction; from
any other one the next symbol leads on along the transition whose range it is in,
and where there is none the accepting resolution decides. -/
namespace Lookahead

abbrev StateId := Nat

/-- An edge on the symbols `lo..hi`. -/
structure Transition where
  lo : Symbol
  hi : Symbol
  target : StateId
  /-- Where every alternative that is alive in the target is gated, the condition on
  which one of the gates is open. -/
  gate : Option Guard
  deriving DecidableEq, Repr

/-- On which side of a symbol the transition lies; it is level with those that it is
on. -/
def Transition.side (t : Transition) (s : Symbol) : Ordering :=
  if t.hi < s then .lt else if s < t.lo then .gt else .eq

/-- An alternative that lookahead alone does not rule out. -/
structure Candidate where
  alt : Ordinal
  /-- The condition under which it is viable, if there is one. -/
  guard : Option Guard
  /-- It leaves an optional block or a loop. -/
  exit : Bool
  deriving DecidableEq, Repr

/-- How a state decides. -/
inductive Resolution where
  | unique (alt : Ordinal)
  /-- Nothing tells the alternatives apart; `chosen` is taken. -/
  | ambiguous (chosen : Ordinal) (alternatives : List Ordinal)
  | predicated (candidates : List Candidate)
  deriving DecidableEq, Repr

namespace Resolution

/-- The alternatives that may come out. -/
def alternatives : Resolution → List Ordinal
  | unique alt => [alt]
  | ambiguous _ alternatives => alternatives
  | predicated candidates => candidates.map (·.alt)

def isPredicated : Resolution → Bool
  | predicated _ => true
  | _ => false

end Resolution

structure State where
  transitions : List Transition
  /-- What is decided where no transition leads on. -/
  accept : Option Resolution
  /-- What is decided without looking further. -/
  terminal : Option Resolution
  deriving DecidableEq, Repr

namespace State

/-- A state that leads nowhere and decides nothing. -/
def blank : State := ⟨[], none, none⟩

/-- The transition on a symbol, where transitions ascend. -/
def edge? (s : State) (x : Symbol) : Option Transition := bisect (·.side x) s.transitions

/-- Where a symbol leads, gates aside. -/
def next? (s : State) (x : Symbol) : Option StateId := (s.edge? x).map (·.target)

/-- A resolution or a transition of the state has a guard. -/
def isPredicated (s : State) : Bool :=
  (s.terminal.elim false (·.isPredicated)) || (s.accept.elim false (·.isPredicated)) ||
    s.transitions.any (·.gate.isSome)

end State

structure Automaton where
  decision : DecisionId
  rule : RuleId
  ruleName : String
  kind : DecisionKind
  altCount : Nat
  states : List State
  deriving DecidableEq, Repr

namespace Automaton

def start : StateId := 0

/-- The state with a number. A number without one has the blank state, so that there always is
one to look at. A prediction comes to no such number, if there is a state to start in and
transitions lead to states. -/
def state (a : Automaton) (id : StateId) : State := a.states[id]?.getD .blank

/-- How many states need predicates. -/
def predicatedCount (a : Automaton) : Nat := (a.states.filter State.isPredicated).length

end Automaton
end Lookahead
