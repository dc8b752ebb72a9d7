import Lookahead.Recognition.Recognizer

/-! Taking text apart into tokens.

The rule `Tokens` chooses which token comes next, and the chosen rule reads it. A
token without text is an error, since it would come again and again. -/
namespace Lookahead.Recognizer
variable {σ : Type} (r : Recognizer σ)

/-- The decision which token comes next. -/
def tokensDecision? : Option DecisionId :=
  r.analysis.grammar.tokensRule.bind (·.block.decision)

/-- The next token, if there is more text. -/
def nextToken : Recognize Char σ (Option Token) := do
  let input := (← get).input
  if (input.symbol? 1).isNone then return none
  match r.tokensDecision? with
  | none => fail (.unknownRule tokensRuleName)
  | some decision =>
    let start := input.index
    let alt ← r.predict decision
    match r.analysis.grammar.tokenRuleFor? alt with
    | none => fail (.noViableAlternative tokensRuleName decision (input.symbol? 1) start)
    | some rule =>
      r.run rule.id
      let input := (← get).input
      let stop := input.index
      if stop = start then fail (.noViableAlternative rule.name decision (input.symbol? 1) start)
      return some ⟨rule.tokenType.getD invalidTokenType, input.text start stop, start, stop⟩

/-- Up to `fuel` tokens. Each one has text, so `fuel` need only exceed the length of
the text ahead. -/
def tokens : (fuel : Nat) → Recognize Char σ (List Token)
  | 0 => return []
  | fuel + 1 => do
    match ← r.nextToken with
    | none => return []
    | some token => return token :: (← tokens fuel)

/-- All tokens of the text ahead. -/
def tokenize : Recognize Char σ (List Token) := do
  r.tokens ((← get).input.ahead.length + 1)

end Lookahead.Recognizer
