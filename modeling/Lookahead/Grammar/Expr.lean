import Lookahead.Predicate

/-! Rule bodies as they are written: names and literals are not looked up yet. -/
namespace Lookahead

/-- How often a repeated part may occur. -/
inductive Repeat where
  | optional
  | star
  | plus
  deriving DecidableEq, Repr

inductive Expr where
  /-- A rule or a token, by its name. -/
  | ref (name : String)
  /-- Characters in lexer rules, the token of the literal in parser rules. -/
  | literal (text : String)
  | range (a b : Char)
  /-- Any character in lexer rules, any token in parser rules. -/
  | any
  | seq (items : List Expr)
  | choice (alternatives : List Expr)
  | repeated (times : Repeat) (body : Expr)
  | predicate (text : String) (mode : PredicateMode) (location : Option SourceLocation)
  | action (text : String)
  | empty
  deriving Repr

namespace Expr

/-- A predicate with the place where it stands. Nothing else has a place. -/
def locate (location : SourceLocation) : Expr → Expr
  | .predicate text mode _ => .predicate text mode (some location)
  | e => e

mutual
/-- The parts of a body that have no parts, from left to right. -/
def atoms : Expr → List Expr
  | .seq items => atomsOf items
  | .choice alternatives => atomsOf alternatives
  | .repeated _ body => atoms body
  | e => [e]

def atomsOf : List Expr → List Expr
  | [] => []
  | e :: es => atoms e ++ atomsOf es
end

/-- The bodies between which a body chooses; one that does not choose is its only
alternative. -/
def alternatives : Expr → List Expr
  | .choice (e :: es) => e :: es
  | e => [e]

end Expr
end Lookahead
