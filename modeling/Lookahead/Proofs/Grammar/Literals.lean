import Lookahead.Proofs.Grammar.Dispatch
import Lookahead.Proofs.Grammar.Meaning

/-! Which literals of parser rules can be lexed.

A literal of a parser rule has a type, and where that comes from a rule makes tokens of it: a
lexer rule that is this literal, or one that was made for it. But the rule that was made is
left out if its name is taken (`addLiteral`), and nothing tells so. Where the name is free the
choice of the next token has the rule (`exists_dispatch`), and where it is not the literal may
have no rule at all (`not_dispatched_taken`). -/
namespace Lookahead

theorem derives_chars {calls : RuleId → List Event → Prop} (cs : List Char) :
    Derives calls (.sequence (cs.map fun c => .symbols (.single (.ofChar c))))
      (cs.map fun c => .symbol (.ofChar c)) := by
  induction cs with
  | nil => exact .nil
  | cons c cs ih =>
    have hc : Symbol.ofChar c ∈ SymbolSet.single (Symbol.ofChar c) :=
      SymbolSet.mem_single.mpr rfl
    exact .cons (.symbols hc) ih

/-- A rule that is one literal derives its characters. -/
theorem Grammar.language_ofLiteral {g : Grammar} {id : RuleId} {rule : Rule} {text : String}
    (hrule : g.rule? id = some rule) (hblock : rule.block = .ofLiteral text) :
    g.Language id (text.toList.map .ofChar) := by
  refine ⟨text.toList.map fun c => .symbol (.ofChar c), ⟨1, rule, hrule, ?_⟩, ?_⟩
  · rw [hblock]
    exact .single (i := 0) rfl (derives_chars text.toList)
  · simp only [Event.symbols, List.filterMap_map]
    exact congrFun List.filterMap_eq_map _

namespace GrammarDefinition
open Grammar Assignment

/-! ### The rules of literals -/

/-- A lexer rule that is one literal is lowered to its characters. -/
theorem block_lowerRule {r : RuleDefinition} {text : String} (h : Makes r text)
    (kind : GrammarKind) (tokens : TokenTable) (names : List String) (id : RuleId) (d : Draft) :
    ((lowerRule kind tokens names id r).run d).1.block = .ofLiteral text ∧
      ((lowerRule kind tokens names id r).run d).1.tokenType = tokens.type? r.name := by
  obtain ⟨hkind, hfragment, hbody⟩ := h
  have hbody' : (lowerBody ⟨kind, tokens, names, id, r.name, .ofName r.name⟩ r.body).run d =
      (.ofLiteral text, d) := by
    rw [hbody, hkind]
    rfl
  have htype : tokenTypeOf tokens r = tokens.type? r.name := if_pos ⟨hkind, hfragment⟩
  rw [lowerRule, run_bind, hbody']
  split <;> exact ⟨rfl, htype⟩

theorem exists_lowerRule (kind : GrammarKind) (tokens : TokenTable) (names : List String)
    (id : RuleId) (d : Draft) {rs : List RuleDefinition} {r : RuleDefinition} (hr : r ∈ rs) :
    ∃ id' d', ((lowerRule kind tokens names id' r).run d').1 ∈
      ((lowerRules kind tokens names id rs).run d).1 := by
  induction hr generalizing id d with
  | head rs => exact ⟨id, d, .head _⟩
  | tail r' _ ih =>
    obtain ⟨id', d', h⟩ := ih (id + 1) ((lowerRule kind tokens names id r').run d).2
    exact ⟨id', d', .tail _ h⟩

/-- Some rule has the name of each literal's rule. -/
theorem exists_name_addLiterals {ls : List LiteralRule} {l : LiteralRule} (hl : l ∈ ls)
    (rules : List Rule) : ∃ rule ∈ ls.foldl addLiteral rules, rule.name = l.name := by
  obtain ⟨before, after, rfl⟩ := List.append_of_mem hl
  rw [List.foldl_append, List.foldl_cons]
  have hadded : ∃ rule ∈ addLiteral (before.foldl addLiteral rules) l, rule.name = l.name := by
    unfold addLiteral
    split
    · next htaken =>
      obtain ⟨rule, hrule, hname⟩ := List.any_eq_true.mp htaken
      exact ⟨rule, hrule, eq_of_beq hname⟩
    · exact ⟨_, List.mem_append_right _ (.head _), rfl⟩
  obtain ⟨rule, hrule, hname⟩ := hadded
  exact ⟨rule, (prefix_addLiterals _ after).subset hrule, hname⟩

/-! ### The choice of the next token -/

/-- Some alternative of the choice of the next token calls a rule that is this literal and makes
tokens of the type that the literal has in parser rules. -/
def Dispatches (g : Grammar) (text : String) : Prop :=
  ∃ type alt rule, g.tokens.type? (quote text) = some type ∧ g.tokenRuleFor? alt = some rule ∧
    rule.tokenType = some type ∧ g.Language rule.id (text.toList.map .ofChar)

/-- The names of the rules that a literal needs are not taken: no declared token is named like the
quoted literal, no rule that is not this literal is named like its rule, and neither is the rule
of another literal. -/
structure Untaken (d : GrammarDefinition) (text : String) : Prop where
  token : quote text ∉ d.tokens.map (·.name)
  rule : ∀ l ∈ (d.assignment d.accepted.1).literals, l.text = text →
    ∀ r ∈ d.accepted.1, r.name = l.name → Makes r text
  literal : ∀ l ∈ (d.assignment d.accepted.1).literals, l.text = text →
    ∀ l' ∈ (d.assignment d.accepted.1).literals, l'.name = l.name → l' = l

/-- No name is taken if all the rules, written and made, have different ones. -/
theorem Untaken.of_nodup {d : GrammarDefinition} {text : String}
    (htoken : quote text ∉ d.tokens.map (·.name))
    (h : ((d.assignment d.accepted.1).literals.map (·.name) ++
      d.accepted.1.map (·.name)).Nodup) : Untaken d text := by
  obtain ⟨hliterals, _, hdisjoint⟩ := List.nodup_append.mp h
  refine ⟨htoken, fun l hl _ r hr hname => ?_, fun l hl _ l' hl' hname => ?_⟩
  · exact absurd hname.symm (hdisjoint _ (List.mem_map_of_mem hl) _ (List.mem_map_of_mem hr))
  · exact List.inj_on_of_nodup_map hliterals hl' hl hname

section
variable {d : GrammarDefinition} {g : Grammar} {lowered : List Rule} {draft : Draft} {text : String}
  {type : TokenType}

/-- Where no name is taken, a rule of the grammar is the literal and makes tokens of its type. -/
theorem Built.exists_rule (hbuilt : Built d g lowered draft) (hkind : d.kind = .combined)
    (hfree : Untaken d text) (htype : g.tokens.type? (quote text) = some type) :
    ∃ rule ∈ d.rulesWith lowered, rule.tokenType = some type ∧ rule.block = .ofLiteral text := by
  have htraced := traced_assignment hkind d.accepted.1
  have hrun : ((lowerRules d.kind (d.assignment d.accepted.1).tokens
      (d.accepted.1.map (·.name)) 0 d.accepted.1).run .empty).1 = lowered :=
    congrArg Prod.fst hbuilt.run
  rw [hbuilt.tokens] at htype
  have hmade {r : RuleDefinition} (hr : r ∈ d.accepted.1) (hmakes : Makes r text)
      (hname : (d.assignment d.accepted.1).tokens.type? r.name = some type) :
      ∃ rule ∈ d.rulesWith lowered, rule.tokenType = some type ∧ rule.block = .ofLiteral text := by
    obtain ⟨id, d', hmem⟩ := exists_lowerRule d.kind (d.assignment d.accepted.1).tokens
      (d.accepted.1.map (·.name)) 0 .empty hr
    obtain ⟨hblock, htoken⟩ := block_lowerRule hmakes d.kind (d.assignment d.accepted.1).tokens
      (d.accepted.1.map (·.name)) id d'
    rw [hrun] at hmem
    exact ⟨_, (prefix_addLiterals ..).subset hmem, htoken.trans hname, hblock⟩
  rcases htraced.quoted text type htype with hname | ⟨l, hl, rfl, rfl⟩ | ⟨r, hr, hmakes, hname⟩
  · exact absurd hname hfree.token
  · obtain ⟨rule, hrule, hname⟩ := exists_name_addLiterals hl lowered
    rcases mem_addLiterals hrule with hlowered | ⟨l', hl', hof, _⟩
    · -- A rule that someone wrote has the name, so it is the literal.
      obtain ⟨r, hr, id, d', rfl⟩ := hbuilt.mem_lowered hlowered
      rw [name_lowerRule] at hname
      have hmakes := hfree.rule l hl rfl r hr hname
      refine hmade hr hmakes ?_
      rw [hname]
      exact (htraced.literals l hl).resolve_right fun hnone => hnone r hr hmakes
    · obtain rfl := hfree.literal l hl rfl l' hl' (hof.name.symm.trans hname)
      exact ⟨rule, hrule, hof.tokenType, hof.block⟩
  · exact hmade hr hmakes hname

/-- **Literals with free names can be lexed.** In a combined grammar the choice of the next token
has an alternative for each literal of a parser rule, if the names that this takes are free. -/
theorem exists_dispatch (h : d.build = .ok g) (hkind : d.kind = .combined) {r : RuleDefinition}
    (hr : r ∈ d.accepted.1) (hparser : RuleKind.ofName r.name = .parser)
    (htext : .literal text ∈ r.body.atoms) (hfree : Untaken d text) : Dispatches g text := by
  obtain ⟨lowered, draft, hbuilt⟩ := exists_built h
  have hwf := wellFormed_of_build h
  obtain ⟨type, htype⟩ := Option.isSome_iff_exists.mp
    (isSome_of_mem_atoms (d := d) hkind hr hparser htext)
  rw [← hbuilt.tokens] at htype
  obtain ⟨rule, hrule, htoken, hblock⟩ := hbuilt.exists_rule hkind hfree htype
  have hmem : rule ∈ g.rules := hbuilt.prefix_rules.subset hrule
  have hsome : rule.tokenType.isSome := by
    rw [htoken]
    rfl
  obtain ⟨id, decision, targets, hchooses⟩ :=
    hbuilt.chooses (hbuilt.tokensRule?_ne_none (by rw [hkind]; exact nofun) hrule hsome)
  obtain ⟨i, hi⟩ := List.getElem?_of_mem (hchooses.making rule hmem hsome)
  exact ⟨type, i + 1, rule, htype, (hchooses.tokenRuleFor?_eq hi).trans (hwf.rule?_id hmem), htoken,
    language_ofLiteral (hwf.rule?_id hmem) hblock⟩

end

/-- A literal of a parser rule, and another one with a rule of its own. -/
def marked : GrammarDefinition where
  name := "Marked"
  kind := .combined
  rules := [⟨"s", .seq [.literal "x", .literal "y"], false⟩, ⟨"Y", .literal "y", false⟩]
  tokens := []

/-- Both literals of the parser rule can be lexed. -/
theorem exists_dispatch_marked : marked.build = .ok marked.grammar ∧
    Dispatches marked.grammar "x" ∧ Dispatches marked.grammar "y" := by
  have hbuild : marked.build = .ok marked.grammar := build_eq_ok (by decide +kernel)
  have hfree (text : String) : Untaken marked text := .of_nodup List.not_mem_nil (by decide +kernel)
  exact ⟨hbuild, exists_dispatch hbuild rfl (.head _) (by decide +kernel) (.head _) (hfree _),
    exists_dispatch hbuild rfl (.head _) (by decide +kernel) (.tail _ (.head _)) (hfree _)⟩

/-- A lexer rule with the name that the rule of the literal would have. -/
def taken : GrammarDefinition where
  name := "Taken"
  kind := .combined
  rules := [⟨"s", .literal "x", false⟩, ⟨"T__5", .literal "z", false⟩]
  tokens := []

/-- The literal of the parser rule is a token, and nothing makes this token. -/
theorem not_dispatched_taken : taken.build = .ok taken.grammar ∧
    (∃ r ∈ taken.accepted.1, RuleKind.ofName r.name = .parser ∧ .literal "x" ∈ r.body.atoms) ∧
    taken.grammar.tokens.type? (quote "x") = some 5 ∧ ¬Dispatches taken.grammar "x" := by
  have htype : taken.grammar.tokens.type? (quote "x") = some 5 := by decide +kernel
  refine ⟨build_eq_ok (by decide +kernel), ⟨_, .head _, by decide +kernel, .head _⟩, htype, ?_⟩
  rintro ⟨type, alt, rule, htype', halt, htoken, _⟩
  obtain rfl := Option.some.inj (htype.symm.trans htype')
  have hrules : taken.grammar.rules.all (·.tokenType != some 5) := by decide +kernel
  have hmem : rule ∈ taken.grammar.rules := mem_of_tokenRuleFor? halt
  simpa [htoken] using List.all_eq_true.mp hrules rule hmem

end GrammarDefinition
end Lookahead
