import Lookahead.Automaton.Text
import Lookahead.SymbolSet.Basic

/-! Why input is not recognized. -/
namespace Lookahead

inductive RecognitionError where
  | failedPredicate (rule predicate : String)
  | noViableAlternative (rule : String) (decision : DecisionId) (symbol : Option Symbol)
      (index : Nat)
  | mismatchedSymbol (rule : String) (expected : SymbolSet) (found : Option Symbol) (index : Nat)
  /-- A loop that has to run at least once did not. -/
  | earlyExit (rule : String) (decision : DecisionId) (index : Nat)
  | unknownRule (name : String)
  deriving DecidableEq, Repr

namespace RecognitionError

def isFailedPredicate : RecognitionError → Bool
  | failedPredicate .. => true
  | _ => false

/-- The rule in which the error arose. -/
def rule? : RecognitionError → Option String
  | failedPredicate rule _ | noViableAlternative rule .. | mismatchedSymbol rule ..
  | earlyExit rule .. => some rule
  | unknownRule _ => none

def message : RecognitionError → String
  | failedPredicate rule predicate =>
    "rule " ++ rule ++ " failed predicate: \x7b" ++ predicate ++ "\x7d?"
  | noViableAlternative rule decision symbol index =>
    "no viable alternative at " ++ Symbol.nextText symbol ++ " for " ++ DecisionId.text decision ++
      " in rule " ++ rule ++ " (index " ++ toString index ++ ")"
  | mismatchedSymbol rule expected found index =>
    "mismatched input " ++ Symbol.nextText found ++ " expecting " ++ expected.text ++
      " in rule " ++ rule ++ " (index " ++ toString index ++ ")"
  | earlyExit rule decision index =>
    "(" ++ DecisionId.text decision ++ ")+ loop in rule " ++ rule ++
      " did not match anything at index " ++ toString index
  | unknownRule name => "unknown rule: " ++ name

def code : RecognitionError → String
  | failedPredicate .. => "runtime::failed_predicate"
  | noViableAlternative .. => "runtime::no_viable_alternative"
  | mismatchedSymbol .. => "runtime::mismatched_symbol"
  | earlyExit .. => "runtime::early_exit"
  | unknownRule _ => "runtime::unknown_rule"

end RecognitionError
end Lookahead
