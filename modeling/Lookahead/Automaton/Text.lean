import Lookahead.Automaton.Basic
import Lookahead.Guard.Text

/-! Automata as text, a line for each way to go on and each resolution. -/
namespace Lookahead

def StateId.text (id : StateId) : String := "s" ++ toString id

def DecisionId.text (id : DecisionId) : String := "decision " ++ toString id

def RuleId.text (id : RuleId) : String := "rule#" ++ toString id

def Ordinal.text (alt : Ordinal) : String := "alt " ++ toString alt

/-- The name of a decision's kind. -/
def DecisionKind.text : DecisionKind → String
  | block => "Block"
  | optional => "Optional"
  | star => "Star"
  | plus => "Plus"
  | tokens => "Tokens"

/-- A guard as it is written in a grammar. -/
def Guard.braced (g : Guard) : String := "\x7b" ++ g.text ++ "\x7d?"

def Candidate.text (c : Candidate) : String :=
  (match c.guard with
    | some g => g.braced ++ " "
    | none => "") ++ toString c.alt ++ if c.exit then " (exit)" else ""

def Resolution.text : Resolution → String
  | unique alt => "=> " ++ toString alt
  | ambiguous chosen alternatives =>
    "=> " ++ toString chosen ++ " (ambiguous \x7b" ++
      ",".intercalate (alternatives.map toString) ++ "\x7d)"
  | predicated [] => "=>"
  | predicated candidates => "=> " ++ " | ".intercalate (candidates.map Candidate.text)

def Transition.text (t : Transition) : String :=
  "-" ++ SymbolRange.text ⟨t.lo, t.hi⟩ ++ "-> " ++ StateId.text t.target ++
    match t.gate with
    | some g => " if " ++ g.braced
    | none => ""

/-- The lines of a state. -/
def State.lines (id : StateId) (s : State) : List String :=
  let line := fun (text : String) => StateId.text id ++ " " ++ text
  (s.terminal.toList.map fun r => line r.text) ++
    (s.transitions.map fun t => line t.text) ++
    (s.accept.toList.map fun r => line ("else " ++ r.text))

/-- The lines of states that are numbered from `id` on. -/
def State.linesFrom (id : StateId) : List State → List String
  | [] => []
  | s :: rest => s.lines id ++ State.linesFrom (id + 1) rest

def Automaton.lines (a : Automaton) : List String :=
  (DecisionId.text a.decision ++ " in rule " ++ a.ruleName ++ " (" ++ a.kind.text ++ ", " ++
    toString a.altCount ++ " alts)") :: State.linesFrom 0 a.states

/-- The lines, each with its end. -/
def Automaton.text (a : Automaton) : String := String.join (a.lines.map (· ++ "\n"))

end Lookahead
