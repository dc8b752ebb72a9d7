import Lookahead.Grammar.Tokens
import Lookahead.Predicate
import Lookahead.SymbolSet.Basic
import Lookahead.Text.Uppercase

/-! Grammars with all names looked up.

A rule is a block. A block is a list of alternatives, and each alternative is a
sequence of elements, which may be blocks again. Where more than one alternative
can follow there is a decision. Rules, decisions, predicates and actions are
numbered from 0 on and stand in the grammar's lists at their numbers; alternatives
are numbered from 1 on. An optional block and a loop have one alternative more than
they list, the last one, which leaves the block. -/
namespace Lookahead

abbrev RuleId := Nat

abbrev DecisionId := Nat

/-- The number of an alternative of a decision, from 1 on. Lower ones come first. -/
abbrev Ordinal := Nat

inductive GrammarKind where
  | parser
  | lexer
  | combined
  deriving DecidableEq, Repr

def GrammarKind.text : GrammarKind → String
  | parser => "parser"
  | lexer => "lexer"
  | combined => "combined"

inductive RuleKind where
  | parser
  | lexer
  deriving DecidableEq, Repr

/-- The names of lexer rules start with a capital letter. -/
def RuleKind.ofName (name : String) : RuleKind :=
  match name.toList with
  | [] => parser
  | c :: _ => if Text.isUppercase c then lexer else parser

inductive BlockKind where
  /-- One of the alternatives. -/
  | single
  /-- One of the alternatives or nothing. -/
  | optional
  /-- Any number of alternatives, one after the other. -/
  | star
  /-- At least one alternative, and then any number of them. -/
  | plus
  deriving DecidableEq, Repr

inductive DecisionKind where
  | block
  | optional
  | star
  | plus
  /-- Which token comes next. -/
  | tokens
  deriving DecidableEq, Repr

/-- The last alternative of a decision of this kind leaves the block. -/
def DecisionKind.hasExit : DecisionKind → Bool
  | optional | star | plus => true
  | block | tokens => false

structure Decision where
  id : DecisionId
  rule : RuleId
  kind : DecisionKind
  /-- The number of alternatives, with the one that leaves the block. -/
  altCount : Nat
  deriving DecidableEq, Repr

/-- The alternative that leaves the block. -/
def Decision.exit? (d : Decision) : Option Ordinal :=
  if d.kind.hasExit then some d.altCount else none

/-- One way through a block. -/
structure Alternative (ε : Type) where
  ordinal : Ordinal
  elements : List ε
  deriving Repr

/-- Sequences as the alternatives of a block, numbered by their places. -/
def Alternative.numbered {ε : Type} (sequences : List (List ε)) : List (Alternative ε) :=
  sequences.mapIdx fun i elements => ⟨i + 1, elements⟩

inductive Element where
  /-- One symbol of the set. -/
  | symbols (set : SymbolSet)
  | call (rule : RuleId)
  | block (kind : BlockKind) (decision : Option DecisionId)
    (alternatives : List (Alternative Element))
  | predicate (id : PredicateId)
  | action (id : ActionId)
  deriving Repr

structure Block where
  kind : BlockKind
  decision : Option DecisionId
  alternatives : List (Alternative Element)
  deriving Repr

/-- The number of the alternative that leaves the block. -/
def Block.exit (b : Block) : Ordinal := b.alternatives.length + 1

structure Rule where
  id : RuleId
  name : String
  kind : RuleKind
  /-- A lexer rule that only other lexer rules call. -/
  fragment : Bool
  /-- No one wrote this rule: it came with a literal, or it chooses the next token. -/
  synthetic : Bool
  /-- The token that the rule makes. -/
  tokenType : Option TokenType
  block : Block
  deriving Repr

structure Grammar where
  name : String
  kind : GrammarKind
  rules : List Rule
  decisions : List Decision
  predicates : List Predicate
  actions : List Action
  tokens : TokenTable
  /-- The rule that chooses the next token. -/
  tokensRule? : Option RuleId
  deriving Repr

/-- The name of the rule that chooses the next token. -/
def tokensRuleName : String := "Tokens"

namespace Grammar

def rule? (g : Grammar) (id : RuleId) : Option Rule := g.rules[id]?

def ruleNamed? (g : Grammar) (name : String) : Option Rule := g.rules.find? (·.name == name)

/-- The name of a rule; a number without a rule has the empty one. -/
def ruleName (g : Grammar) (id : RuleId) : String := (g.rule? id).elim "" (·.name)

/-- The names of the rules that someone wrote. -/
def ruleNames (g : Grammar) : List String := (g.rules.filter (!·.synthetic)).map (·.name)

/-- The rule that chooses the next token. -/
def tokensRule (g : Grammar) : Option Rule := g.tokensRule?.bind g.rule?

/-- The rule that an alternative of the choice of the next token calls. -/
def tokenRuleFor? (g : Grammar) (alt : Ordinal) : Option Rule := do
  let tokens ← g.tokensRule
  let alternative ← if alt = 0 then none else tokens.block.alternatives[alt - 1]?
  match alternative.elements.head? with
  | some (.call rule) => g.rule? rule
  | _ => none

/-- What `.` stands for in the parser rules of a grammar with these tokens. -/
def anyToken (tokens : TokenTable) : SymbolSet :=
  if tokens.names.isEmpty then .empty
  else .range (.ofTokenType firstTokenType) (.ofTokenType tokens.maxType)

/-- What `.` stands for in lexer rules. -/
def anyChar : SymbolSet := .range 0 Symbol.maxChar

/-- What `.` stands for in rules of a kind. -/
def anySymbol (g : Grammar) : RuleKind → SymbolSet
  | .lexer => anyChar
  | .parser => anyToken g.tokens

end Grammar
end Lookahead
