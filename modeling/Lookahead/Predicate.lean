import Lookahead.Text.Blank

/-! Semantic predicates and actions.

A predicate is a condition written in the host's language. Only its text is known
here, where it was written, and how it takes part in prediction. Within one
grammar its number tells it apart from every other one. -/
namespace Lookahead

abbrev PredicateId := Nat

abbrev ActionId := Nat

/-- How a predicate takes part in prediction. -/
inductive PredicateMode where
  /-- Tested when it is reached, and used where lookahead needs it to decide. -/
  | validating
  /-- Switches its alternative on or off before any lookahead. -/
  | gated
  deriving DecidableEq, Repr

/-- Where a predicate stands in the text of a grammar. -/
structure SourceLocation where
  line : Nat
  column : Nat
  deriving DecidableEq, Repr

def SourceLocation.text (l : SourceLocation) : String :=
  toString l.line ++ ":" ++ toString l.column

structure Predicate where
  id : PredicateId
  text : String
  mode : PredicateMode
  /-- The name of the rule that it stands in. -/
  ruleName : String
  location : Option SourceLocation
  deriving DecidableEq, Repr

namespace Predicate

def isGated (p : Predicate) : Bool := p.mode = .gated

/-- The value of a predicate that is written as one of the two truth values. -/
def constant (p : Predicate) : Option Bool :=
  let text := Text.trim p.text.toList
  if text = ['t', 'r', 'u', 'e'] then some true
  else if text = ['f', 'a', 'l', 's', 'e'] then some false
  else none

/-- The predicate as it is written in a grammar. -/
def display (p : Predicate) : String :=
  "\x7b" ++ p.text ++ "\x7d?" ++ match p.mode with
    | .validating => ""
    | .gated => "=>"

end Predicate

/-- Code of the host, run when it is reached. -/
structure Action where
  id : ActionId
  text : String
  ruleName : String
  deriving DecidableEq, Repr

end Lookahead
