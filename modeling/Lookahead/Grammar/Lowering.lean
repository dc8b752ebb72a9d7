import Lookahead.Grammar.Error
import Lookahead.Grammar.Expr
import Lookahead.Suggestion

/-! From the body of a rule to its block.

Names and literals are looked up. Decisions, predicates and actions are numbered as
they are met from left to right, a block before what it contains. A sequence inside
a sequence is opened, and so is a choice between fewer than two bodies. What can
not be looked up is noted as an error and leaves nothing. -/
namespace Lookahead

def Repeat.blockKind : Repeat → BlockKind
  | optional => .optional
  | star => .star
  | plus => .plus

namespace Grammar

/-- The name under which a literal is known as a token. -/
def quote (literal : String) : String := "'" ++ literal ++ "'"

/-- What a body is lowered against. -/
structure Scope where
  grammar : GrammarKind
  tokens : TokenTable
  /-- The names of the rules that can be called, at their numbers. -/
  ruleNames : List String
  rule : RuleId
  ruleName : String
  ruleKind : RuleKind

/-- What has been numbered and noted so far. -/
structure Draft where
  decisions : List Decision
  predicates : List Predicate
  actions : List Action
  errors : List GrammarError

namespace Draft

def empty : Draft := ⟨[], [], [], []⟩

def note (e : GrammarError) : StateM Draft Unit :=
  modify fun d => { d with errors := d.errors ++ [e] }

def decision (rule : RuleId) (kind : DecisionKind) (altCount : Nat) : StateM Draft DecisionId :=
  modifyGet fun d =>
    let id := d.decisions.length
    (id, { d with decisions := d.decisions ++ [⟨id, rule, kind, altCount⟩] })

def predicate (ruleName text : String) (mode : PredicateMode)
    (location : Option SourceLocation) : StateM Draft PredicateId :=
  modifyGet fun d =>
    let id := d.predicates.length
    (id, { d with predicates := d.predicates ++ [⟨id, text, mode, ruleName, location⟩] })

def action (ruleName text : String) : StateM Draft ActionId :=
  modifyGet fun d =>
    let id := d.actions.length
    (id, { d with actions := d.actions ++ [⟨id, text, ruleName⟩] })

end Draft

/-- The decision that a block of `count` alternatives needs, numbered. -/
def openDecision (s : Scope) (kind : BlockKind) (count : Nat) :
    StateM Draft (Option DecisionId) :=
  match kind with
  | .single =>
    if count > 1 then some <$> Draft.decision s.rule .block count else pure none
  | .optional => some <$> Draft.decision s.rule .optional (count + 1)
  | .star => some <$> Draft.decision s.rule .star (count + 1)
  | .plus => some <$> Draft.decision s.rule .plus (count + 1)

def lowerLiteral (s : Scope) (text : String) : StateM Draft (List Element) :=
  match s.ruleKind with
  | .lexer => pure (text.toList.map fun c => .symbols (.single (.ofChar c)))
  | .parser =>
    match s.tokens.type? (quote text) with
    | some type =>
      if s.grammar = .combined then pure [.symbols (.single (.ofTokenType type))]
      else do Draft.note (.literalWithoutToken (quote text)); pure []
    | none => do Draft.note (.literalWithoutToken (quote text)); pure []

/-- A name that no rule has, as the mistake that it is. -/
def lowerUndefined (s : Scope) (name : String) : StateM Draft (List Element) := do
  Draft.note (.undefinedRule name s.ruleName (Suggestion.closest? name s.ruleNames))
  return []

/-- A capitalized name is a token in parser rules and a lexer rule in lexer rules. In a parser
grammar each token that a rule mentions has a type by now, so none is without a definition. -/
def lowerRef (s : Scope) (name : String) : StateM Draft (List Element) :=
  if s.ruleKind = .parser ∧ RuleKind.ofName name = .lexer then
    match s.tokens.type? name with
    | some type => pure [.symbols (.single (.ofTokenType type))]
    | none => do Draft.note (.noTokenDefinition name); pure []
  else
    match s.ruleNames.findIdx? (· == name) with
    | some rule =>
      if s.ruleKind = .lexer ∧ RuleKind.ofName name = .parser then lowerUndefined s name
      else pure [.call rule]
    | none => lowerUndefined s name

mutual
/-- The elements that a body adds to a sequence. -/
def lower (s : Scope) : Expr → StateM Draft (List Element)
  | .seq items => lowerSeq s items
  | .choice [] => pure []
  | .choice [e] => lower s e
  | .choice (e :: f :: es) => do
    let decision ← openDecision s .single (es.length + 2)
    let first ← lower s e
    let second ← lower s f
    let others ← lowerEach s es
    return [.block .single decision (Alternative.numbered (first :: second :: others))]
  | .repeated times (.choice (e :: es)) => do
    let decision ← openDecision s times.blockKind (es.length + 1)
    let first ← lower s e
    let others ← lowerEach s es
    return [.block times.blockKind decision (Alternative.numbered (first :: others))]
  | .repeated times body => do
    let decision ← openDecision s times.blockKind 1
    let alternative ← lower s body
    return [.block times.blockKind decision (Alternative.numbered [alternative])]
  | .empty => pure []
  | .any =>
    pure [.symbols (match s.ruleKind with
      | .lexer => anyChar
      | .parser => anyToken s.tokens)]
  | .range a b =>
    match s.ruleKind with
    | .lexer => pure [.symbols (.range (.ofChar a) (.ofChar b))]
    | .parser => do Draft.note (.rangeInParser s.ruleName); pure []
  | .literal text => lowerLiteral s text
  | .ref name => lowerRef s name
  | .predicate text mode location => do
    return [.predicate (← Draft.predicate s.ruleName text mode location)]
  | .action text => do
    return [.action (← Draft.action s.ruleName text)]

/-- The elements of one sequence. -/
def lowerSeq (s : Scope) : List Expr → StateM Draft (List Element)
  | [] => pure []
  | e :: es => do
    let first ← lower s e
    let others ← lowerSeq s es
    return first ++ others

/-- The elements of each alternative. -/
def lowerEach (s : Scope) : List Expr → StateM Draft (List (List Element))
  | [] => pure []
  | e :: es => do
    let first ← lower s e
    let others ← lowerEach s es
    return first :: others
end

/-- The block of a rule. -/
def lowerBody (s : Scope) (body : Expr) : StateM Draft Block := do
  let decision ← openDecision s .single body.alternatives.length
  let alternatives ← lowerEach s body.alternatives
  return ⟨.single, decision, Alternative.numbered alternatives⟩

end Grammar
end Lookahead
