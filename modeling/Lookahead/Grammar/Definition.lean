import Lookahead.Grammar.Lowering

/-! Building a grammar from its definition.

First every rule is accepted that the grammar may have and whose name is free. Then
token types are handed out: to the declared tokens, to the lexer rules that make
tokens, to the literals in the parser rules of a combined grammar, and to the tokens
that a parser grammar mentions. Each literal that got a type there needs a lexer
rule of its own. Then the accepted rules are lowered, the rules of literals follow,
and in a grammar with lexer rules the rule `Tokens` comes last: it chooses between
all rules that make tokens, those of literals first.

All errors are collected, and a grammar comes out only if there are none. -/
namespace Lookahead

structure RuleDefinition where
  name : String
  body : Expr
  fragment : Bool
  deriving Repr

/-- A declared token, with a literal that may stand for it. -/
structure TokenDefinition where
  name : String
  literal : Option String
  deriving Repr

structure GrammarDefinition where
  name : String
  kind : GrammarKind
  rules : List RuleDefinition
  tokens : List TokenDefinition
  deriving Repr

namespace GrammarDefinition
open Grammar

/-- A grammar of one kind of rules has no rules of the other kind. -/
def excludes : GrammarKind → RuleKind → Bool
  | .parser, .lexer | .lexer, .parser => true
  | _, _ => false

/-- Accepts a rule or notes why not. -/
def accept (kind : GrammarKind) (sofar : List RuleDefinition × List GrammarError)
    (r : RuleDefinition) : List RuleDefinition × List GrammarError :=
  if excludes kind (.ofName r.name) then (sofar.1, sofar.2 ++ [.misplacedRule r.name kind])
  else if sofar.1.any (·.name == r.name) then (sofar.1, sofar.2 ++ [.ruleRedefinition r.name])
  else (sofar.1 ++ [r], sofar.2)

/-- The accepted rules, at the numbers they will have, and what is wrong with the
others. -/
def accepted (d : GrammarDefinition) : List RuleDefinition × List GrammarError :=
  d.rules.foldl (accept d.kind) ([], [])

/-- The lexer rule that a literal needs. -/
structure LiteralRule where
  name : String
  text : String
  tokenType : TokenType
  deriving Repr

/-- The token types handed out so far. -/
structure Assignment where
  tokens : TokenTable
  literals : List LiteralRule
  errors : List GrammarError

namespace Assignment

def empty : Assignment := ⟨.empty, [], []⟩

/-- Gives a declared token its type. Only combined grammars know what matches its
literal. -/
def declare (kind : GrammarKind) (a : Assignment) (t : TokenDefinition) : Assignment :=
  let (type, tokens) := a.tokens.define t.name
  match t.literal with
  | none => { a with tokens := tokens }
  | some literal =>
    match kind with
    | .lexer =>
      { a with tokens := tokens, errors := a.errors ++ [.literalInLexer (quote literal)] }
    | .parser =>
      { a with tokens := tokens, errors := a.errors ++ [.literalWithoutToken (quote literal)] }
    | .combined =>
      { a with
        tokens := tokens.rename (quote literal) type
        literals := a.literals ++ [⟨t.name, literal, type⟩] }

/-- Gives the token of a lexer rule its type. A rule that is one literal stands for
it. -/
def defineRule (a : Assignment) (r : RuleDefinition) : Assignment :=
  if RuleKind.ofName r.name = .lexer ∧ r.fragment = false then
    let (type, tokens) := a.tokens.define r.name
    match r.body with
    | .literal text => { a with tokens := tokens.rename (quote text) type }
    | _ => { a with tokens := tokens }
  else a

/-- Gives a type to the token that a part of a parser rule mentions. -/
def mention (kind : GrammarKind) (a : Assignment) : Expr → Assignment
  | .literal text =>
    if kind = .combined ∧ (a.tokens.type? (quote text)).isNone then
      let (type, tokens) := a.tokens.define (quote text)
      { a with
        tokens := tokens
        literals := a.literals ++ [⟨"T__" ++ toString type, text, type⟩] }
    else a
  | .ref name =>
    if kind = .parser ∧ RuleKind.ofName name = .lexer then
      { a with tokens := (a.tokens.define name).2 }
    else a
  | _ => a

/-- Gives types to the tokens that a parser rule mentions. -/
def mentionAll (kind : GrammarKind) (a : Assignment) (r : RuleDefinition) : Assignment :=
  if RuleKind.ofName r.name = .parser then r.body.atoms.foldl (mention kind) a else a

end Assignment

/-- The types of all tokens. -/
def assignment (d : GrammarDefinition) (rules : List RuleDefinition) : Assignment :=
  let declared := d.tokens.foldl (Assignment.declare d.kind) .empty
  let defined := rules.foldl Assignment.defineRule declared
  rules.foldl (Assignment.mentionAll d.kind) defined

/-- The token that a rule makes. -/
def tokenTypeOf (tokens : TokenTable) (r : RuleDefinition) : Option TokenType :=
  if RuleKind.ofName r.name = .lexer ∧ r.fragment = false then tokens.type? r.name else none

/-- Lowers the rule with the number `id`. A rule that makes tokens must not be
empty in every alternative. -/
def lowerRule (kind : GrammarKind) (tokens : TokenTable) (names : List String) (id : RuleId)
    (r : RuleDefinition) : StateM Draft Rule := do
  let ruleKind := RuleKind.ofName r.name
  let block ← lowerBody ⟨kind, tokens, names, id, r.name, ruleKind⟩ r.body
  if ruleKind = .lexer ∧ r.fragment = false ∧ block.alternatives.all (·.elements.isEmpty) then
    Draft.note (.emptyRule r.name)
  return ⟨id, r.name, ruleKind, r.fragment, false, tokenTypeOf tokens r, block⟩

/-- Lowers rules that are numbered from `id` on. -/
def lowerRules (kind : GrammarKind) (tokens : TokenTable) (names : List String) :
    RuleId → List RuleDefinition → StateM Draft (List Rule)
  | _, [] => pure []
  | id, r :: rs => do
    let rule ← lowerRule kind tokens names id r
    let rules ← lowerRules kind tokens names (id + 1) rs
    return rule :: rules

/-- Adds the rule of a literal, unless its name is taken. -/
def addLiteral (rules : List Rule) (l : LiteralRule) : List Rule :=
  if rules.any (·.name == l.name) then rules
  else
    let chars := l.text.toList.map fun c => Element.symbols (.single (.ofChar c))
    rules ++ [⟨rules.length, l.name, .lexer, false, true, some l.tokenType,
      ⟨.single, none, Alternative.numbered [chars]⟩⟩]

/-- The rules that make tokens, those of literals first. -/
def dispatch (rules : List Rule) : List RuleId :=
  let making := rules.filter (·.tokenType.isSome)
  (making.filter (·.synthetic) ++ making.filter (!·.synthetic)).map (·.id)

/-- The rule that chooses between the given ones. -/
def tokensRule (id : RuleId) (decision : DecisionId) (targets : List RuleId) : Rule :=
  ⟨id, tokensRuleName, .lexer, false, true, none,
    ⟨.single, some decision, Alternative.numbered (targets.map fun r => [.call r])⟩⟩

def build (d : GrammarDefinition) : Except (List GrammarError) Grammar :=
  let (accepted, rejections) := d.accepted
  let a := d.assignment accepted
  let (lowered, draft) :=
    (lowerRules d.kind a.tokens (accepted.map (·.name)) 0 accepted).run .empty
  let rules := a.literals.foldl addLiteral lowered
  let targets := dispatch rules
  let errors := rejections ++ a.errors ++ draft.errors
  let grammar : Grammar :=
    ⟨d.name, d.kind, rules, draft.decisions, draft.predicates, draft.actions, a.tokens, none⟩
  let chooses := d.kind ≠ .parser ∧ targets ≠ []
  let taken := rules.any (·.name == tokensRuleName)
  let allErrors := if chooses ∧ taken then errors ++ [.ruleRedefinition tokensRuleName] else errors
  if allErrors ≠ [] then .error allErrors
  else if chooses then
    .ok { grammar with
      rules := rules ++ [tokensRule rules.length draft.decisions.length targets]
      decisions := draft.decisions ++
        [⟨draft.decisions.length, rules.length, .tokens, targets.length⟩]
      tokensRule? := some rules.length }
  else .ok grammar

end GrammarDefinition
end Lookahead
