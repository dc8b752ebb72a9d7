import Lookahead.Proofs.Grammar.Assignment
import Lookahead.Proofs.Grammar.Derivation

/-! The rule that chooses the next token.

It is the last rule, no other rule calls it, and it has an alternative for each rule that makes
tokens (`Grammar.Chooses`). Those are all lexer rules but the fragments and itself. -/
namespace Lookahead

/-- The block of a rule that is one literal. -/
def Block.ofLiteral (text : String) : Block :=
  ⟨.single, none, Alternative.numbered [text.toList.map fun c => .symbols (.single (.ofChar c))]⟩

theorem Grammar.mem_of_tokenRuleFor? {g : Grammar} {alt : Ordinal} {rule : Rule}
    (h : g.tokenRuleFor? alt = some rule) : rule ∈ g.rules := by
  simp only [tokenRuleFor?, Option.bind_eq_bind, Option.bind_eq_some_iff] at h
  obtain ⟨tokens, -, h⟩ := h
  split at h
  · simp at h
  · obtain ⟨alternative, -, h⟩ := Option.bind_eq_some_iff.mp h
    split at h
    · exact List.mem_of_getElem? h
    · exact nomatch h

/-- The rule `id` chooses the next token: its decision `d` is between calls of the rules
`targets`. -/
structure Grammar.Chooses (g : Grammar) (id : RuleId) (d : DecisionId) (targets : List RuleId) :
    Prop where
  tokensRule? : g.tokensRule? = some id
  rule : g.rule? id = some (GrammarDefinition.tokensRule id d targets)
  uncalled : .call id ∉ g.parts
  making : ∀ rule ∈ g.rules, rule.tokenType.isSome → rule.id ∈ targets

namespace Grammar.Chooses
variable {g : Grammar} {id : RuleId} {d : DecisionId} {targets : List RuleId}

theorem tokensRule (h : g.Chooses id d targets) :
    g.tokensRule = some (GrammarDefinition.tokensRule id d targets) := by
  rw [Grammar.tokensRule, h.tokensRule?, Option.bind_some, h.rule]

/-- The alternative of a rule calls it. -/
theorem tokenRuleFor?_eq (h : g.Chooses id d targets) {i : Nat} {target : RuleId}
    (hi : targets[i]? = some target) : g.tokenRuleFor? (i + 1) = g.rule? target := by
  simp [Grammar.tokenRuleFor?, h.tokensRule, GrammarDefinition.tokensRule,
    Alternative.getElem?_numbered, hi]

theorem exists_of_tokenRuleFor? (h : g.Chooses id d targets) {alt : Ordinal} {rule : Rule}
    (halt : g.tokenRuleFor? alt = some rule) : ∃ i target, alt = i + 1 ∧
      targets[i]? = some target ∧ g.rule? target = some rule := by
  cases alt with
  | zero => simp [Grammar.tokenRuleFor?, h.tokensRule] at halt
  | succ i =>
    cases hi : targets[i]? with
    | none =>
      simp [Grammar.tokenRuleFor?, h.tokensRule, GrammarDefinition.tokensRule,
        Alternative.getElem?_numbered, hi] at halt
    | some target => exact ⟨i, target, rfl, hi, (h.tokenRuleFor?_eq hi).symm.trans halt⟩

/-- What the rule derives that chooses, a rule that makes tokens does. -/
theorem exists_language (h : g.Chooses id d targets) {w : List Symbol} (hw : g.Language id w) :
    ∃ target ∈ targets, g.Language target w := by
  obtain ⟨es, ⟨n, hes⟩, rfl⟩ := hw
  cases n with
  | zero => exact hes.elim
  | succ n =>
    obtain ⟨rule, hrule, hes⟩ := hes
    obtain rfl := Option.some.inj (h.rule.symm.trans hrule)
    cases hes with
    | @single _ _ i a es ha hes =>
      obtain ⟨target, htarget, hcall⟩ :=
        List.mem_map.mp (Alternative.elements_mem (List.mem_of_getElem? ha))
      rw [← hcall] at hes
      cases hes with
      | cons he hnil =>
        cases he
        cases hnil
        exact ⟨target, htarget, _, ⟨n, ‹_›⟩, by simp⟩

end Grammar.Chooses

namespace GrammarDefinition
open Grammar Assignment

theorem mem_lowerRules (kind : GrammarKind) (tokens : TokenTable) (names : List String)
    (id : RuleId) (d : Draft) {rs : List RuleDefinition} {rule : Rule}
    (h : rule ∈ ((lowerRules kind tokens names id rs).run d).1) :
    ∃ r ∈ rs, ∃ id' d', rule = ((lowerRule kind tokens names id' r).run d').1 := by
  induction rs generalizing id d with
  | nil => exact nomatch h
  | cons r rs ih =>
    rcases List.mem_cons.mp h with rfl | h
    · exact ⟨r, .head _, id, d, rfl⟩
    · obtain ⟨r', hr', hrule⟩ := ih (id + 1) _ h
      exact ⟨r', .tail _ hr', hrule⟩

theorem header_lowerRule (kind : GrammarKind) (tokens : TokenTable) (names : List String)
    (id : RuleId) (r : RuleDefinition) (d : Draft) :
    ((lowerRule kind tokens names id r).run d).1.kind = .ofName r.name ∧
      ((lowerRule kind tokens names id r).run d).1.fragment = r.fragment ∧
      ((lowerRule kind tokens names id r).run d).1.tokenType = tokenTypeOf tokens r := by
  rw [lowerRule, run_bind]
  split <;> exact ⟨rfl, rfl, rfl⟩

/-- A rule that was made for a literal. -/
structure OfLiteral (l : LiteralRule) (rule : Rule) : Prop where
  kind : rule.kind = .lexer
  fragment : rule.fragment = false
  synthetic : rule.synthetic = true
  tokenType : rule.tokenType = some l.tokenType
  name : rule.name = l.name
  block : rule.block = .ofLiteral l.text

/-- Rules that are added for literals have new names. -/
theorem mem_addLiterals {ls : List LiteralRule} {rules : List Rule} {rule : Rule}
    (h : rule ∈ ls.foldl addLiteral rules) :
    rule ∈ rules ∨ ∃ l ∈ ls, OfLiteral l rule ∧ l.name ∉ rules.map (·.name) := by
  induction ls generalizing rules with
  | nil => exact .inl h
  | cons l ls ih =>
    have hsubset : rules ⊆ addLiteral rules l := by
      unfold addLiteral
      split
      · exact List.Subset.refl _
      · exact List.subset_append_left _ _
    rcases ih h with hrule | ⟨l', hl', hof, hnew⟩
    · unfold addLiteral at hrule
      split at hrule
      · exact .inl hrule
      · next hnew =>
        rcases List.mem_append.mp hrule with hrule | hrule
        · exact .inl hrule
        · obtain rfl := List.mem_singleton.mp hrule
          refine .inr ⟨l, .head _, ⟨rfl, rfl, rfl, rfl, rfl, rfl⟩, fun hmem => hnew ?_⟩
          obtain ⟨other, hother, hname⟩ := List.mem_map.mp hmem
          exact List.any_eq_true.mpr ⟨other, hother, beq_iff_eq.mpr hname⟩
    · exact .inr ⟨l', .tail _ hl', hof, fun hmem => hnew (List.map_subset _ hsubset hmem)⟩

variable {d : GrammarDefinition} {g : Grammar} {lowered : List Rule} {draft : Draft}

theorem mem_dispatch {rules : List Rule} {rule : Rule} (hrule : rule ∈ rules)
    (htype : rule.tokenType.isSome) : rule.id ∈ dispatch rules := by
  refine List.mem_map.mpr ⟨rule, ?_, rfl⟩
  cases hsynthetic : rule.synthetic <;> simp [hrule, htype, hsynthetic]

theorem Built.chooses (h : Built d g lowered draft) (htokens : g.tokensRule? ≠ none) :
    ∃ id decision targets, g.Chooses id decision targets := by
  rcases h.rules with ⟨_, _, _, hrules, _, hid⟩ | ⟨_, _, _, hnone⟩
  · refine ⟨_, draft.decisions.length, dispatch (d.rulesWith lowered), hid, ?_, ?_, ?_⟩
    · rw [Grammar.rule?, hrules, List.getElem?_concat_length]
    · intro hmem
      rw [Grammar.parts, hrules, List.flatMap_append, List.flatMap_singleton] at hmem
      rcases List.mem_append.mp hmem with hmem | hmem
      · exact Nat.lt_irrefl _ (h.fits.lowered.calls _ hmem)
      · have hcalls := (lowered_calls (d := draft) (dispatch (d.rulesWith lowered)) fun _ hr =>
          lt_of_mem_dispatch h.fits hr).calls
        exact Nat.lt_irrefl _ (hcalls _ ((List.mem_cons.mp hmem).resolve_left nofun))
    · intro rule hrule htype
      rw [hrules] at hrule
      rcases List.mem_append.mp hrule with hrule | hrule
      · exact mem_dispatch hrule htype
      · obtain rfl := List.mem_singleton.mp hrule
        exact nomatch htype
  · exact absurd hnone htokens

/-- Some rule chooses the next token if there is a rule that makes tokens. -/
theorem Built.tokensRule?_ne_none (h : Built d g lowered draft) (hkind : d.kind ≠ .parser)
    {rule : Rule} (hrule : rule ∈ d.rulesWith lowered) (htype : rule.tokenType.isSome) :
    g.tokensRule? ≠ none := by
  rcases h.rules with ⟨_, _, _, _, _, hid⟩ | ⟨hnot, _⟩
  · exact hid ▸ nofun
  · exact absurd ⟨hkind, List.ne_nil_of_mem (mem_dispatch hrule htype)⟩ hnot

theorem Built.mem_lowered (h : Built d g lowered draft) {rule : Rule} (hrule : rule ∈ lowered) :
    ∃ r ∈ d.accepted.1, ∃ id draft', rule = ((lowerRule d.kind (d.assignment d.accepted.1).tokens
      (d.accepted.1.map (·.name)) id r).run draft').1 := by
  rw [← show _ = lowered from congrArg Prod.fst h.run] at hrule
  exact mem_lowerRules _ _ _ _ _ hrule

/-- The lexer rules that are no fragments make tokens. -/
theorem isSome_tokenTypeOf_iff {rules : List RuleDefinition} {r : RuleDefinition}
    (hr : r ∈ rules) : (tokenTypeOf (d.assignment rules).tokens r).isSome = true ↔
      RuleKind.ofName r.name = .lexer ∧ r.fragment = false := by
  unfold tokenTypeOf
  split
  · next hmakes => exact iff_of_true ((settled_assignment d _).rule r hr hmakes.1 hmakes.2) hmakes
  · next hmakes => exact iff_of_false nofun hmakes

/-- Of the rules that are written and of those of literals, the lexer rules make tokens that are
no fragments. -/
theorem Built.isSome_tokenType_iff (h : Built d g lowered draft) {rule : Rule}
    (hrule : rule ∈ d.rulesWith lowered) :
    rule.tokenType.isSome = true ↔ rule.kind = .lexer ∧ rule.fragment = false := by
  rcases mem_addLiterals hrule with hrule | ⟨l, _, hof, _⟩
  · obtain ⟨r, hr, id, d', rfl⟩ := h.mem_lowered hrule
    obtain ⟨hkind, hfragment, htype⟩ := header_lowerRule d.kind
      (d.assignment d.accepted.1).tokens (d.accepted.1.map (·.name)) id r d'
    rw [hkind, hfragment, htype]
    exact isSome_tokenTypeOf_iff hr
  · rw [hof.tokenType]
    exact iff_of_true rfl ⟨hof.kind, hof.fragment⟩

/-- The lexer rules that make tokens are those that are no fragments, but for the rule that
chooses the next token. -/
theorem isSome_tokenType (h : d.build = .ok g) {rule : Rule} (hrule : rule ∈ g.rules)
    (hkind : rule.kind = .lexer) (hfragment : rule.fragment = false) :
    rule.tokenType.isSome ∨ g.tokensRule? = some rule.id := by
  obtain ⟨lowered, draft, hbuilt⟩ := exists_built h
  have hwith (hrule : rule ∈ d.rulesWith lowered) : rule.tokenType.isSome :=
    (hbuilt.isSome_tokenType_iff hrule).mpr ⟨hkind, hfragment⟩
  rcases hbuilt.rules with ⟨_, _, _, hrules, _, hid⟩ | ⟨_, hrules, _⟩
  · rw [hrules] at hrule
    rcases List.mem_append.mp hrule with hrule | hrule
    · exact .inl (hwith hrule)
    · obtain rfl := List.mem_singleton.mp hrule
      exact .inr hid
  · exact .inl (hwith (hrules ▸ hrule))

end GrammarDefinition
end Lookahead
