import Lookahead.Analysis.Construction
import Lookahead.Report
import Lookahead.Text.Quoted

/-! Analysing a grammar: an automaton for each of its decisions.

Decisions are independent of each other. The first one without an automaton ends the
analysis. Each ambiguity is reported with its first alternative as the one that is
taken. -/
namespace Lookahead

/-- Bounds for an analysis. -/
structure AnalysisConfig where
  /-- How many states an automaton may have. -/
  maxStates : Nat
  /-- How often the same call may be open at once while looking ahead. -/
  maxRecursionDepth : Nat
  /-- Decisions may be worked on at the same time. -/
  parallel : Bool
  deriving DecidableEq, Repr

def AnalysisConfig.standard : AnalysisConfig := ⟨4096, 4, false⟩

/-- Tells the values of gates before anything is recognized. -/
abbrev GateResolver := Predicate → Option Bool

/-- A grammar and how it is to be analysed. -/
structure Analyzer where
  grammar : Grammar
  config : AnalysisConfig
  resolver : Option GateResolver

/-- A grammar with the automata of its decisions. -/
structure Analysis where
  grammar : Grammar
  /-- At the numbers of the decisions. -/
  automata : List Automaton
  /-- The values of predicates that need not be asked for, at their numbers. -/
  staticValues : List (Option Bool)
  deriving Repr

namespace Analyzer

/-- The value of a predicate that is known beforehand. A resolver decides all gates;
other predicates have a value if it is what they say. -/
def staticValue (a : Analyzer) (p : Predicate) : Option Bool :=
  match a.resolver, p.isGated with
  | some resolve, true => resolve p
  | _, _ => p.constant

def staticValues (a : Analyzer) : List (Option Bool) := a.grammar.predicates.map a.staticValue

def terrain (a : Analyzer) : Terrain :=
  ⟨.ofGrammar a.grammar, a.grammar.predicates, a.staticValues, a.config.maxRecursionDepth⟩

def plan (a : Analyzer) (terrain : Terrain) (d : Decision) : Construction.Plan :=
  ⟨terrain, d, a.grammar.ruleName d.rule, a.grammar.rules.map (·.name), a.config.maxStates⟩

/-- The report of an ambiguity. The alternatives ascend. -/
def ambiguity (d : Decision) (alternatives : List Ordinal) : Report :=
  .ambiguity d.id (alternatives.headD 0) alternatives

/-- The automata of some decisions and the reports on them. -/
def analyzeAll (a : Analyzer) (terrain : Terrain) :
    List Decision → Except AnalysisError (List Automaton) × List Report
  | [] => (.ok [], [])
  | d :: ds =>
    let (result, ambiguities) := Construction.run (a.plan terrain d)
    let reports := ambiguities.map (ambiguity d)
    match result with
    | .error e => (.error e, reports)
    | .ok automaton =>
      let (automata, later) := analyzeAll a terrain ds
      (automata.map (automaton :: ·), reports ++ later)

def analyze (a : Analyzer) : Except AnalysisError Analysis × List Report :=
  let (automata, reports) := a.analyzeAll a.terrain a.grammar.decisions
  (automata.map fun automata => ⟨a.grammar, automata, a.staticValues⟩, reports)

/-- The analyzer as it is shown to someone who looks for mistakes. -/
def text (a : Analyzer) : String :=
  "Analyzer \x7b grammar: " ++ String.ofList (Text.quoted a.grammar.name.toList) ++
    ", config: AnalysisConfig \x7b max_states: " ++ toString a.config.maxStates ++
    ", max_recursion_depth: " ++ toString a.config.maxRecursionDepth ++
    ", parallel: " ++ toString a.config.parallel ++
    " \x7d, gate_resolver: " ++ toString a.resolver.isSome ++ " \x7d"

end Analyzer

namespace Analysis

def automaton? (a : Analysis) (d : DecisionId) : Option Automaton := a.automata[d]?

def staticValue (a : Analysis) (p : PredicateId) : Option Bool := a.staticValues[p]?.join

/-- The number of states of all automata. -/
def stateCount (a : Analysis) : Nat := (a.automata.map (·.states.length)).foldl (· + ·) 0

end Analysis
end Lookahead
