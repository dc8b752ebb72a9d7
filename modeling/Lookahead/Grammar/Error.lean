import Lookahead.Grammar.Basic

/-! What can be wrong with the definition of a grammar. -/
namespace Lookahead

inductive GrammarError where
  | ruleRedefinition (name : String)
  | undefinedRule (name rule : String) (suggestion : Option String)
  | noTokenDefinition (name : String)
  /-- No token belongs to a literal, which is given with its quotes. -/
  | literalWithoutToken (literal : String)
  | literalInLexer (literal : String)
  /-- The grammar has no rules of this kind. -/
  | misplacedRule (name : String) (grammar : GrammarKind)
  | emptyRule (name : String)
  | rangeInParser (rule : String)
  deriving DecidableEq, Repr

namespace GrammarError

def message : GrammarError → String
  | ruleRedefinition name => "rule " ++ name ++ " redefinition"
  | undefinedRule name rule _ =>
    "reference to undefined rule: " ++ name ++ " (in rule " ++ rule ++ ")"
  | noTokenDefinition name => "no lexer rule corresponding to token: " ++ name
  | literalWithoutToken literal => "literal has no associated lexer rule: " ++ literal
  | literalInLexer literal => "cannot alias " ++ literal ++ " in a lexer grammar"
  | misplacedRule name grammar =>
    "rule " ++ name ++ " is not allowed in a " ++ grammar.text ++ " grammar"
  | emptyRule name => "lexer rule " ++ name ++ " matches the empty string"
  | rangeInParser rule => "character range in parser rule " ++ rule

def code : GrammarError → String
  | ruleRedefinition _ => "grammar::rule_redefinition"
  | undefinedRule .. => "grammar::undefined_rule"
  | noTokenDefinition _ => "grammar::no_token_definition"
  | literalWithoutToken _ => "grammar::literal_not_associated_with_lexer_rule"
  | literalInLexer _ => "grammar::cannot_alias_tokens_in_lexer"
  | misplacedRule .. => "grammar::misplaced_rule"
  | emptyRule _ => "grammar::empty_rule"
  | rangeInParser _ => "grammar::char_range_in_parser"

/-- The name that may have been meant. -/
def help : GrammarError → Option String
  | undefinedRule _ _ suggestion => suggestion
  | _ => none

/-- The message for all errors of one definition. -/
def summary (errors : List GrammarError) : String :=
  "grammar has " ++ toString errors.length ++ " error(s): " ++
    "; ".intercalate (errors.map message)

end GrammarError
end Lookahead
