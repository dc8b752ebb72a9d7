import Lookahead.Proofs.Grammar.Enclosed
import Lookahead.Proofs.Grammar.Sources

/-! What the lists of a built grammar say.

Each numbered element of a rule finds its entry at its number, and the entry names the rule
(`Grammar.Records`). The choice of the next token is between the rules of literals and the
lexer rules that someone wrote, fragments aside (`Grammar.ChoosesTokens`). Both rest on where
the rules of a grammar come from: they are written, made for a literal, or the choice itself. -/
namespace Lookahead

theorem DecisionKind.eq_block {kind : DecisionKind} (hsingle : kind.blockKind = .single)
    (hne : kind ≠ .tokens) : kind = .block := by
  cases kind with
  | block => rfl
  | tokens => exact absurd rfl hne
  | optional | star | plus => exact nomatch hsingle

namespace Grammar

/-- What the lists of a grammar say of the elements of one of its rules. The alternative that
leaves a block has the number after those of the alternatives that the block lists. -/
structure Records (g : Grammar) (rule : Rule) : Prop where
  decisions : ∀ kind id as, .block kind (some id) as ∈ rule.block.element.parts →
    ∃ x, g.decisions[id]? = some x ∧ x.id = id ∧ x.rule = rule.id ∧ x.kind.blockKind = kind ∧
      (x.kind = .tokens ↔ g.tokensRule? = some rule.id) ∧
      x.altCount = kind.altCount as.length ∧
      as.map (·.ordinal) ++ x.exit?.toList = List.range' 1 x.altCount
  decided : ∀ kind decision as, .block kind decision as ∈ rule.block.element.parts →
    (decision.isSome = true ↔ kind ≠ .single ∨ 1 < as.length ∨ g.tokensRule? = some rule.id)
  predicates : ∀ id, .predicate id ∈ rule.block.element.parts →
    ∃ p, g.predicates[id]? = some p ∧ p.id = id ∧ p.ruleName = rule.name
  actions : ∀ id, .action id ∈ rule.block.element.parts →
    ∃ x, g.actions[id]? = some x ∧ x.id = id ∧ x.ruleName = rule.name

/-- The rules that were made for literals, and then the lexer rules that someone wrote and that are
no fragments, both in the order of the rules. -/
def choices (g : Grammar) : List RuleId :=
  (g.rules.filter (fun r => r.synthetic && g.tokensRule? != some r.id) ++
    g.rules.filter fun r => !r.synthetic && r.kind == .lexer && !r.fragment).map (·.id)

/-- The choice of the next token is between the rules that make tokens, each of them once. It is
left out only where there is nothing to choose from. -/
structure ChoosesTokens (g : Grammar) : Prop where
  absent : g.tokensRule? = none → g.choices = []
  block : ∀ id, g.tokensRule? = some id → ∃ rule decision, g.rule? id = some rule ∧
    rule.block =
      ⟨.single, some decision, Alternative.numbered (g.choices.map fun target => [.call target])⟩
  nodup : g.choices.Nodup
  literals : ∀ rule ∈ g.rules, rule.synthetic = true → g.tokensRule? ≠ some rule.id →
    ∃ text type, rule.block = .ofLiteral text ∧ rule.tokenType = some type

/-- The alternatives of the choice of the next token call the rules that make tokens. -/
theorem ChoosesTokens.exists_of_tokenRuleFor? {g : Grammar} (h : g.ChoosesTokens) {alt : Ordinal}
    {rule : Rule} (halt : g.tokenRuleFor? alt = some rule) : ∃ choice target,
      g.tokensRule = some choice ∧ ⟨alt, [.call target]⟩ ∈ choice.block.alternatives ∧
        target ∈ g.choices ∧ g.rule? target = some rule := by
  cases hid : g.tokensRule? with
  | none => simp [tokenRuleFor?, tokensRule, hid] at halt
  | some id =>
    obtain ⟨choice, decision, hchoice, hblock⟩ := h.block id hid
    have htokens : g.tokensRule = some choice := by rw [tokensRule, hid, Option.bind_some, hchoice]
    simp only [tokenRuleFor?, htokens, Option.bind_eq_bind, Option.bind_some] at halt
    split at halt
    · cases halt
    · next hne =>
      obtain ⟨alternative, halternative, halt⟩ := Option.bind_eq_some_iff.mp halt
      have hmem := List.mem_of_getElem? halternative
      rw [hblock, Alternative.getElem?_numbered, Option.map_eq_some_iff] at halternative
      obtain ⟨es, hes, rfl⟩ := halternative
      obtain ⟨target, htarget, rfl⟩ := List.mem_map.mp (List.mem_of_getElem? hes)
      rw [Nat.sub_add_cancel (Nat.pos_of_ne_zero hne)] at hmem
      exact ⟨choice, target, htokens, hmem, htarget, halt⟩

end Grammar

namespace GrammarDefinition
open Grammar
variable {d : GrammarDefinition} {g : Grammar} {lowered : List Rule} {draft : Draft}

/-! ### Where rules come from -/

/-- Nothing is left out of a definition with nothing wrong. -/
theorem foldl_accept {kind : GrammarKind} {sofar : List RuleDefinition × List GrammarError}
    {rs : List RuleDefinition} (h : (rs.foldl (accept kind) sofar).2 = []) :
    sofar.2 = [] ∧ (rs.foldl (accept kind) sofar).1 = sofar.1 ++ rs ∧
      ∀ r ∈ rs, excludes kind (.ofName r.name) = false := by
  induction rs generalizing sofar with
  | nil => exact ⟨h, (List.append_nil _).symm, nofun⟩
  | cons r rs ih =>
    rw [List.foldl_cons] at h ⊢
    obtain ⟨herrors, hrules, hkinds⟩ := ih h
    have hsnoc (e : GrammarError) : sofar.2 ++ [e] ≠ [] :=
      List.append_ne_nil_of_right_ne_nil _ (List.cons_ne_nil _ _)
    rw [hrules]
    unfold accept at herrors ⊢
    split at herrors
    · exact absurd herrors (hsnoc _)
    · next hexcluded =>
      split at herrors
      · exact absurd herrors (hsnoc _)
      · next hnew =>
        rw [if_neg hexcluded, if_neg hnew]
        exact ⟨herrors, List.append_assoc .., List.forall_mem_cons.mpr
          ⟨Bool.eq_false_iff.mpr hexcluded, hkinds⟩⟩

theorem synthetic_lowerRule (kind : GrammarKind) (tokens : TokenTable) (names : List String)
    (id : RuleId) (r : RuleDefinition) (d : Draft) :
    ((lowerRule kind tokens names id r).run d).1.synthetic = false := by
  rw [lowerRule, run_bind]
  split <;> rfl

theorem filter_addLiterals (rules : List Rule) (ls : List LiteralRule) :
    (ls.foldl addLiteral rules).filter (!·.synthetic) = rules.filter (!·.synthetic) := by
  induction ls generalizing rules with
  | nil => rfl
  | cons l ls ih =>
    rw [List.foldl_cons, ih, addLiteral]
    split
    · rfl
    · rw [List.filter_append]
      exact List.append_nil _

/-- All rules of a definition are accepted if nothing is wrong with them. -/
theorem Built.accepted_eq (h : Built d g lowered draft) :
    d.accepted.1 = d.rules ∧ ∀ r ∈ d.rules, excludes d.kind (.ofName r.name) = false := by
  have hnone : (d.rules.foldl (accept d.kind) ([], [])).2 = [] := h.accepted
  obtain ⟨_, hrules, hkinds⟩ := foldl_accept hnone
  exact ⟨hrules, hkinds⟩

theorem Built.synthetic_eq_false (h : Built d g lowered draft) {rule : Rule}
    (hrule : rule ∈ lowered) : rule.synthetic = false := by
  obtain ⟨r, _, id, d', rfl⟩ := h.mem_lowered hrule
  exact synthetic_lowerRule ..

/-- The rules that someone wrote keep their order. -/
theorem Built.filter_rulesWith (h : Built d g lowered draft) :
    (d.rulesWith lowered).filter (!·.synthetic) = lowered := by
  rw [rulesWith, filter_addLiterals, List.filter_eq_self]
  intro rule hrule
  rw [h.synthetic_eq_false hrule]
  rfl

theorem Built.ruleNames_eq (h : Built d g lowered draft) : g.ruleNames = d.rules.map (·.name) := by
  have hwritten : g.rules.filter (!·.synthetic) = lowered := by
    rcases h.rules with ⟨_, _, _, hrules, _⟩ | ⟨_, hrules, _⟩ <;> rw [hrules]
    · rw [List.filter_append, h.filter_rulesWith]
      exact List.append_nil _
    · exact h.filter_rulesWith
  have hnames := names_lowerRules d.kind (d.assignment d.accepted.1).tokens
    (d.accepted.1.map (·.name)) 0 d.accepted.1 .empty
  rw [Grammar.ruleNames, hwritten, ← h.accepted_eq.1, ← hnames, h.run]

/-! ### Rules that make tokens -/

/-- A parser grammar has no rules that make tokens. -/
theorem Built.dispatch_eq_nil (h : Built d g lowered draft) (hkind : d.kind = .parser) :
    dispatch (d.rulesWith lowered) = [] := by
  have hnone : (d.rulesWith lowered).filter (·.tokenType.isSome) = [] := by
    refine List.filter_eq_nil_iff.mpr fun rule hrule htype => ?_
    have hlexer := ((h.isSome_tokenType_iff hrule).mp htype).1
    rw [rulesWith, literals_eq_nil (by rw [hkind]; exact nofun)] at hrule
    obtain ⟨r, hr, id, d', rfl⟩ := h.mem_lowered hrule
    obtain ⟨hrules, hexcluded⟩ := h.accepted_eq
    have hparser := hexcluded r (hrules ▸ hr)
    rw [hkind, ← (header_lowerRule ..).1, hlexer] at hparser
    exact nomatch hparser
  rw [dispatch, hnone]
  rfl

/-- Only the rule after all others chooses the next token. -/
theorem Built.tokensRule?_ne (h : Built d g lowered draft) {rule : Rule}
    (hrule : rule ∈ d.rulesWith lowered) : g.tokensRule? ≠ some rule.id := by
  rcases h.rules with ⟨_, _, _, _, _, hid⟩ | ⟨_, _, _, hnone⟩
  · have hmem : rule.id ∈ (d.rulesWith lowered).map (·.id) := List.mem_map_of_mem hrule
    rw [h.fits.ids, List.mem_range] at hmem
    rw [hid]
    exact fun heq => Nat.ne_of_gt hmem (Option.some.inj heq)
  · rw [hnone]
    exact nofun

theorem Built.exists_ofLiteral (h : Built d g lowered draft) {rule : Rule}
    (hrule : rule ∈ d.rulesWith lowered) (hsynthetic : rule.synthetic = true) :
    ∃ l, OfLiteral l rule := by
  rcases mem_addLiterals hrule with hrule | ⟨l, _, hof, _⟩
  · exact nomatch (h.synthetic_eq_false hrule).symm.trans hsynthetic
  · exact ⟨l, hof⟩

theorem Built.choices_eq (h : Built d g lowered draft) :
    g.choices = dispatch (d.rulesWith lowered) := by
  have hliterals :
      (d.rulesWith lowered).filter (fun r => r.synthetic && g.tokensRule? != some r.id) =
        ((d.rulesWith lowered).filter (·.tokenType.isSome)).filter (·.synthetic) := by
    rw [List.filter_filter]
    refine List.filter_congr fun rule hrule => ?_
    rw [bne_iff_ne.mpr (h.tokensRule?_ne hrule)]
    cases hsynthetic : rule.synthetic with
    | false => rfl
    | true =>
      obtain ⟨l, hof⟩ := h.exists_ofLiteral hrule hsynthetic
      rw [hof.tokenType]
      rfl
  have hwritten : (d.rulesWith lowered).filter
        (fun r => !r.synthetic && r.kind == .lexer && !r.fragment) =
      ((d.rulesWith lowered).filter (·.tokenType.isSome)).filter (!·.synthetic) := by
    rw [List.filter_filter]
    refine List.filter_congr fun rule hrule => ?_
    rw [Bool.eq_iff_iff]
    simp [h.isSome_tokenType_iff hrule, and_assoc]
  rw [Grammar.choices, dispatch, ← hliterals, ← hwritten]
  rcases h.rules with ⟨_, _, _, hrules, _, hid⟩ | ⟨_, hrules, _⟩
  · simp [hrules, hid, GrammarDefinition.tokensRule]
  · rw [hrules]

/-- What the choice of the next token is between are rules that make tokens of types that are
handed out. -/
theorem Built.exists_of_mem_choices (h : Built d g lowered draft) {id : RuleId}
    (hid : id ∈ g.choices) : ∃ rule ∈ g.rules, rule.id = id ∧
      ∃ type, rule.tokenType = some type ∧ firstTokenType ≤ type ∧ type ≤ g.tokens.maxType := by
  rw [h.choices_eq] at hid
  obtain ⟨rule, hrule, rfl, hsome⟩ := exists_of_mem_dispatch hid
  obtain ⟨type, htype⟩ := Option.isSome_iff_exists.mp hsome
  exact ⟨rule, h.prefix_rules.subset hrule, rfl, type, htype, h.handed hrule htype⟩

/-! ### The entries of elements -/

theorem Built.actionIds (h : Built d g lowered draft) :
    draft.actions.map (·.id) = List.range draft.actions.length :=
  h.fits.lowered.actions.trans (action_ids h.fits.lowered)

theorem Built.decisions_subset (h : Built d g lowered draft) : draft.decisions ⊆ g.decisions := by
  rcases h.rules with ⟨_, _, _, _, hdecisions, _⟩ | ⟨_, _, hdecisions, _⟩ <;> rw [hdecisions]
  · exact List.subset_append_left _ _
  · exact List.Subset.refl _

theorem Built.entered (h : Built d g lowered draft) {rule : Rule}
    (hrule : rule ∈ d.rulesWith lowered) :
    Entered rule.id rule.name rule.block.element.parts draft := by
  rcases mem_addLiterals hrule with hrule | ⟨l, _, hof, _⟩
  · have hentered := (entered_lowerRules d.kind (d.assignment d.accepted.1).tokens
      (d.accepted.1.map (·.name)) 0 d.accepted.1 .empty).2
    rw [h.run] at hentered
    exact hentered rule hrule
  · rw [hof.block]
    exact entered_ofLiteral ..

/-- The numbers of the alternatives of a decision are those of the listed ones, and after them that
of the one that leaves the block. -/
theorem ordinals_eq {x : Decision} {as : List (Alternative Element)}
    (hnumbered : as.map (·.ordinal) = List.range' 1 as.length)
    (hcount : x.altCount = x.kind.blockKind.altCount as.length) :
    as.map (·.ordinal) ++ x.exit?.toList = List.range' 1 x.altCount := by
  obtain ⟨id, rule, kind, count⟩ := x
  obtain rfl : count = kind.blockKind.altCount as.length := hcount
  rw [hnumbered]
  cases kind with
  | block | tokens => exact List.append_nil _
  | optional | star | plus =>
    simp [DecisionKind.blockKind, BlockKind.altCount, Decision.exit?, DecisionKind.hasExit,
      List.range'_1_concat, Nat.add_comm]

/-- The rules that are written and those of literals have their entries. -/
theorem Built.records_of_mem (h : Built d g lowered draft) (hwf : g.WellFormed) {rule : Rule}
    (hrule : rule ∈ d.rulesWith lowered) : g.Records rule := by
  have hentered := h.entered hrule
  have hother := h.tokensRule?_ne hrule
  have hparts : rule.block.element.parts ⊆ g.parts := fun e he =>
    List.mem_flatMap.mpr ⟨rule, h.prefix_rules.subset hrule, he⟩
  constructor
  case decisions =>
    intro kind id as hmem
    obtain ⟨x, hx, rfl, rfl, hcount, hwithin⟩ := hentered.decisions kind id as hmem
    exact ⟨x, getElem?_of_map_eq_range hwf.decisionIds (h.decisions_subset hx), rfl, hwithin.rule,
      rfl, iff_of_false hwithin.kind hother, hcount,
      ordinals_eq (hwf.numbered _ (hparts hmem)) hcount⟩
  case decided =>
    intro kind decision as hmem
    have hshaped := hwf.shaped _ (hparts hmem)
    cases kind with
    | optional | star | plus => exact iff_of_true hshaped.1 (.inl nofun)
    | single =>
      cases decision with
      | none =>
        have hone : as.length = 1 := hshaped
        simp [hone, hother]
      | some id =>
        obtain ⟨x, _, _, hkind, hcount, hwithin⟩ := hentered.decisions _ id as hmem
        have hseveral := hwithin.several (DecisionKind.eq_block hkind hwithin.kind)
        rw [hcount] at hseveral
        exact iff_of_true rfl (.inr (.inl hseveral))
  case predicates =>
    intro id hmem
    obtain ⟨p, hp, rfl, hname⟩ := hentered.predicates id hmem
    exact ⟨p, getElem?_of_map_eq_range hwf.predicateIds (h.predicates ▸ hp), rfl, hname⟩
  case actions =>
    intro id hmem
    obtain ⟨x, hx, rfl, hname⟩ := hentered.actions id hmem
    exact ⟨x, h.actions ▸ getElem?_of_map_eq_range h.actionIds hx, rfl, hname⟩

/-- The rule that chooses the next token has one numbered element, its block. -/
theorem records_tokensRule {id : RuleId} {decision : DecisionId} {targets : List RuleId}
    (hid : g.tokensRule? = some id)
    (hdecision : g.decisions[decision]? = some ⟨decision, id, .tokens, targets.length⟩) :
    g.Records (tokensRule id decision targets) := by
  have hparts : (tokensRule id decision targets).block.element.parts =
      .block .single (some decision) (Alternative.numbered (targets.map fun r => [.call r])) ::
        targets.map .call :=
    congrArg (List.cons _) (partsOfEach_calls targets)
  have hblock {kind : BlockKind} {decision? : Option DecisionId} {as : List (Alternative Element)}
      (hmem : .block kind decision? as ∈ (tokensRule id decision targets).block.element.parts) :
      kind = .single ∧ decision? = some decision ∧
        as = Alternative.numbered (targets.map fun r => [.call r]) := by
    rw [hparts] at hmem
    simpa using hmem
  constructor
  case decisions =>
    intro kind id' as hmem
    obtain ⟨rfl, hid', rfl⟩ := hblock hmem
    obtain rfl := Option.some.inj hid'
    have hcount : targets.length =
        (Alternative.numbered (targets.map fun r => [Element.call r])).length := by simp
    exact ⟨_, hdecision, rfl, rfl, rfl, iff_of_true rfl hid, hcount,
      ordinals_eq (numbered_block .single none _) hcount⟩
  case decided =>
    intro kind decision? as hmem
    obtain ⟨rfl, rfl, rfl⟩ := hblock hmem
    exact iff_of_true rfl (.inr (.inr hid))
  case predicates =>
    intro id hmem
    rw [hparts] at hmem
    simp at hmem
  case actions =>
    intro id hmem
    rw [hparts] at hmem
    simp at hmem

theorem Built.records (h : Built d g lowered draft) (hwf : g.WellFormed) {rule : Rule}
    (hrule : rule ∈ g.rules) : g.Records rule := by
  rcases h.rules with ⟨_, _, _, hrules, hdecisions, hid⟩ | ⟨_, hrules, _⟩ <;> rw [hrules] at hrule
  · rcases List.mem_append.mp hrule with hrule | hrule
    · exact h.records_of_mem hwf hrule
    · obtain rfl := List.mem_singleton.mp hrule
      refine records_tokensRule hid ?_
      rw [hdecisions]
      exact List.getElem?_concat_length
  · exact h.records_of_mem hwf hrule

/-! ### The choice of the next token -/

theorem nodup_choices (hwf : g.WellFormed) : g.choices.Nodup := by
  have hids : (g.rules.map (·.id)).Nodup := hwf.ruleIds ▸ List.nodup_range
  rw [Grammar.choices, List.map_append]
  refine List.nodup_append.mpr ⟨hids.sublist (List.filter_sublist.map _),
    hids.sublist (List.filter_sublist.map _), fun id hid id' hid' heq => ?_⟩
  obtain ⟨rule, hrule, rfl⟩ := List.mem_map.mp hid
  obtain ⟨rule', hrule', rfl⟩ := List.mem_map.mp hid'
  obtain ⟨hrule, hsynthetic⟩ := List.mem_filter.mp hrule
  obtain ⟨hrule', hwritten⟩ := List.mem_filter.mp hrule'
  -- Rules with one number are one rule, which is not both written and made.
  obtain rfl : rule = rule' := Option.some.inj
    ((hwf.rule?_id hrule).symm.trans (heq ▸ hwf.rule?_id hrule'))
  simp only [Bool.and_eq_true, Bool.not_eq_true'] at hsynthetic hwritten
  exact nomatch hsynthetic.1.symm.trans hwritten.1.1

theorem Built.choosesTokens (h : Built d g lowered draft) (hwf : g.WellFormed) :
    g.ChoosesTokens where
  absent hnone := by
    rw [h.choices_eq]
    rcases h.rules with ⟨_, _, _, _, _, hid⟩ | ⟨hnot, _⟩
    · cases hnone.symm.trans hid
    · by_cases hkind : d.kind = .parser
      · exact h.dispatch_eq_nil hkind
      · exact Decidable.not_not.mp fun hne => hnot ⟨hkind, hne⟩
  block id hid := by
    rcases h.rules with ⟨_, _, _, hrules, _, hlast⟩ | ⟨_, _, _, hnone⟩
    · obtain rfl := Option.some.inj (hid.symm.trans hlast)
      have hrule : g.rule? (d.rulesWith lowered).length = some (tokensRule
          (d.rulesWith lowered).length draft.decisions.length
          (dispatch (d.rulesWith lowered))) := by
        rw [Grammar.rule?, hrules]
        exact List.getElem?_concat_length
      rw [h.choices_eq]
      exact ⟨_, _, hrule, rfl⟩
    · cases hid.symm.trans hnone
  nodup := nodup_choices hwf
  literals rule hrule hsynthetic hother := by
    have hwith : rule ∈ d.rulesWith lowered := by
      rcases h.rules with ⟨_, _, _, hrules, _, hid⟩ | ⟨_, hrules, _⟩ <;> rw [hrules] at hrule
      · refine (List.mem_append.mp hrule).resolve_right fun hlast => hother ?_
        rw [List.mem_singleton.mp hlast]
        exact hid
      · exact hrule
    obtain ⟨l, hof⟩ := h.exists_ofLiteral hwith hsynthetic
    exact ⟨l.text, l.tokenType, hof.block, hof.tokenType⟩

/-- **Built grammars are well formed.** Walking through the rules meets each number in turn, the
alternatives of each block have the numbers from 1 on, each number has an entry that names the
rule, the rules that someone wrote keep their order, and the choice of the next token is between
all rules that make tokens. -/
theorem build_records (h : d.build = .ok g) :
    g.WellFormed ∧ (∀ rule ∈ g.rules, g.Records rule) ∧ g.ruleNames = d.rules.map (·.name) ∧
      g.ChoosesTokens := by
  obtain ⟨lowered, draft, hbuilt⟩ := exists_built h
  have hwf := wellFormed_of_build h
  exact ⟨hwf, fun _ => hbuilt.records hwf, hbuilt.ruleNames_eq, hbuilt.choosesTokens hwf⟩

/-- Blocks inside blocks, a literal that needs a rule, and a fragment. -/
def assorted : GrammarDefinition where
  name := "Assorted"
  kind := .combined
  rules := [
    ⟨"s", .seq [.choice [.ref "A", .seq [.literal "x", .action "go"],
      .repeated .star (.ref "B")], .predicate "p" .validating none], false⟩,
    ⟨"A", .literal "a", false⟩, ⟨"F", .range 'f' 'g', true⟩,
    ⟨"B", .repeated .plus (.ref "F"), false⟩]
  tokens := []

/-- The loop of `B` has the decision after the two of `s`, and the next token is chosen between
the rule of the literal, `A` and `B`. -/
theorem build_records_assorted :
    assorted.build = .ok assorted.grammar ∧
      assorted.grammar.decisions = [⟨0, 0, .block, 3⟩, ⟨1, 0, .star, 2⟩, ⟨2, 3, .plus, 2⟩,
        ⟨3, 5, .tokens, 3⟩] ∧
      (∀ rule ∈ assorted.grammar.rules, assorted.grammar.Records rule) ∧
      assorted.grammar.choices = [4, 1, 3] ∧
      ∃ rule decision, assorted.grammar.rule? 5 = some rule ∧
        rule.block =
          ⟨.single, some decision, [⟨1, [.call 4]⟩, ⟨2, [.call 1]⟩, ⟨3, [.call 3]⟩]⟩ := by
  have hbuild : assorted.build = .ok assorted.grammar := build_eq_ok (by decide +kernel)
  obtain ⟨_, hrecords, _, hchooses⟩ := build_records hbuild
  have hchoices : assorted.grammar.choices = [4, 1, 3] := by decide +kernel
  have hblock := hchooses.block 5 (by decide +kernel)
  rw [hchoices] at hblock
  exact ⟨hbuild, by decide +kernel, hrecords, hchoices, hblock⟩

end GrammarDefinition
end Lookahead
