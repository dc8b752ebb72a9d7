import Lookahead.Automaton.Text

/-! Why a grammar can not be analysed. -/
namespace Lookahead

inductive AnalysisError where
  /-- The automaton has more states than allowed. -/
  | nonConvergence (rule : String) (decision : DecisionId) (maxStates : Nat)
  /-- The alternatives differ only after unbounded recursion. -/
  | recursionOverflow (rule : String) (decision : DecisionId) (callee : String) (maxDepth : Nat)
  deriving DecidableEq, Repr

namespace AnalysisError

def rule : AnalysisError → String
  | nonConvergence rule .. | recursionOverflow rule .. => rule

def decision : AnalysisError → DecisionId
  | nonConvergence _ decision _ | recursionOverflow _ decision .. => decision

def message : AnalysisError → String
  | nonConvergence rule decision maxStates =>
    "lookahead automaton for " ++ DecisionId.text decision ++ " in rule " ++ rule ++
      " did not converge within " ++ toString maxStates ++ " states"
  | recursionOverflow rule decision callee maxDepth =>
    "lookahead for " ++ DecisionId.text decision ++ " in rule " ++ rule ++ " recurses into " ++
      callee ++ " more than " ++ toString maxDepth ++ " times"

def code : AnalysisError → String
  | nonConvergence .. => "analysis::non_convergence"
  | recursionOverflow .. => "analysis::recursion_overflow"

def help : AnalysisError → String
  | nonConvergence .. => "left-factor the alternatives or add a predicate to tell them apart"
  | recursionOverflow .. =>
    "left-factor the recursive prefix or add a predicate to tell the alternatives apart"

end AnalysisError
end Lookahead
