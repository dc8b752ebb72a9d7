import Lookahead.Grammar.Definition
import Lookahead.Proofs.Grammar.Lowering

/-! Every grammar that is built is well formed.

The rules that someone wrote are lowered one after the other, so their parts are numbered
in order (`lowered_lowerRules`). The rules of literals have no numbers, and the rule that
chooses the next token comes last, with the last decision. -/
namespace Lookahead

namespace GrammarDefinition
open Grammar Element

theorem lowered_lowerBody (s : Scope) (body : Expr) (d : Draft) :
    Lowered s.ruleNames.length d ((lowerBody s body).run d).1.element.parts
      ((lowerBody s body).run d).2 := by
  have heach := (lowered_lower s).2.1 body.alternatives
  have hlen := length_lowerEach s body.alternatives
  have hpos : 0 < body.alternatives.length := by
    unfold Expr.alternatives
    split <;> simp
  rw [lowerBody, run_bind, run_bind, run_pure]
  simp only [Block.element]
  by_cases hone : body.alternatives.length > 1
  · have h := Lowered.opened (hlen _).symm (fun _ => hone)
      (List.length_pos_iff.mp (by rw [hlen]; exact hpos)) (heach (d := ((openDecision s .single
        body.alternatives.length).run d).2))
    simpa only [partsOf, List.append_nil] using h
  · have hopen : (openDecision s .single body.alternatives.length).run d = (none, d) := by
      simp only [openDecision, hone, if_false]
      rfl
    rw [hopen, Element.parts, partsOfEach_numbered]
    refine (Lowered.undecided ?_).append (heach d)
    rw [hlen]
    omega

theorem lowered_lowerRule (kind : GrammarKind) (tokens : TokenTable) (names : List String)
    (id : RuleId) (r : RuleDefinition) (d : Draft) :
    Lowered names.length d ((lowerRule kind tokens names id r).run d).1.block.element.parts
      ((lowerRule kind tokens names id r).run d).2 ∧
    ((lowerRule kind tokens names id r).run d).1.id = id := by
  have h := lowered_lowerBody ⟨kind, tokens, names, id, r.name, .ofName r.name⟩ r.body d
  rw [lowerRule, run_bind]
  refine ⟨?_, ?_⟩
  · split
    · rw [run_bind, run_pure]
      have hnote := h.append (.note (.emptyRule r.name))
      rw [List.append_nil] at hnote
      exact hnote
    · exact h
  · split <;> rfl

theorem lowered_lowerRules (kind : GrammarKind) (tokens : TokenTable) (names : List String)
    (id : RuleId) (rs : List RuleDefinition) (d : Draft) :
    Lowered names.length d
      (((lowerRules kind tokens names id rs).run d).1.flatMap (·.block.element.parts))
      ((lowerRules kind tokens names id rs).run d).2 ∧
    ((lowerRules kind tokens names id rs).run d).1.map (·.id) = List.range' id rs.length := by
  induction rs generalizing id d with
  | nil => exact ⟨.nil, rfl⟩
  | cons r rs ih =>
    rw [lowerRules, run_bind, run_bind, run_pure]
    obtain ⟨hr, hid⟩ := lowered_lowerRule kind tokens names id r d
    obtain ⟨hrs, hids⟩ := ih (id + 1) ((lowerRule kind tokens names id r).run d).2
    refine ⟨hr.append hrs, ?_⟩
    rw [List.map_cons, hid, hids, List.length_cons, List.range'_succ]

/-! ### What is added to the lowered rules -/

/-- Rules that are numbered in order, and whose parts fit a draft. -/
structure Fits (rules : List Rule) (d : Draft) : Prop where
  ids : rules.map (·.id) = List.range rules.length
  lowered : Lowered rules.length .empty (rules.flatMap (·.block.element.parts)) d

theorem Lowered.mono {m n : Nat} {d d' : Draft} {ps : List Element} (h : Lowered m d ps d')
    (hmn : m ≤ n) : Lowered n d ps d' :=
  { h with calls := fun rule hr => Nat.lt_of_lt_of_le (h.calls rule hr) hmn }

/-- The block of a rule with one alternative. -/
theorem lowered_chars_block {n : Nat} {d : Draft} (cs : List Char) :
    Lowered n d (Block.element ⟨.single, none,
      Alternative.numbered [cs.map fun c => .symbols (.single (.ofChar c))]⟩).parts d := by
  rw [Block.element, Element.parts, partsOfEach_numbered]
  exact (Lowered.undecided rfl).append (lowered_chars cs).each_one

/-- One more rule, with the next number. -/
theorem Fits.snoc {rules : List Rule} {d d' : Draft} (h : Fits rules d) {rule : Rule}
    (hid : rule.id = rules.length)
    (hrule : Lowered (rules.length + 1) d rule.block.element.parts d') :
    Fits (rules ++ [rule]) d' := by
  refine ⟨?_, ?_⟩
  · rw [List.map_append, h.ids, List.length_append, List.map_singleton, hid]
    exact (List.range_succ).symm
  · rw [List.flatMap_append, List.flatMap_singleton, List.length_append]
    exact (Lowered.mono h.lowered (Nat.le_succ _)).append hrule

theorem Fits.addLiteral {rules : List Rule} {d : Draft} (h : Fits rules d) (l : LiteralRule) :
    Fits (addLiteral rules l) d := by
  unfold GrammarDefinition.addLiteral
  split
  · exact h
  · exact h.snoc rfl (lowered_chars_block l.text.toList)

theorem Fits.addLiterals {rules : List Rule} {d : Draft} (h : Fits rules d)
    (ls : List LiteralRule) : Fits (ls.foldl GrammarDefinition.addLiteral rules) d := by
  induction ls generalizing rules with
  | nil => exact h
  | cons l ls ih => exact ih (h.addLiteral l)

theorem fits_lowerRules (kind : GrammarKind) (tokens : TokenTable) (rs : List RuleDefinition) :
    Fits ((lowerRules kind tokens (rs.map (·.name)) 0 rs).run .empty).1
      ((lowerRules kind tokens (rs.map (·.name)) 0 rs).run .empty).2 := by
  obtain ⟨hl, hids⟩ := lowered_lowerRules kind tokens (rs.map (·.name)) 0 rs .empty
  have hlen := congrArg List.length hids
  rw [List.length_map, List.length_range'] at hlen
  rw [List.length_map] at hl
  exact ⟨by rw [hids, hlen, List.range_eq_range'], by rw [hlen]; exact hl⟩

theorem exists_of_mem_dispatch {rules : List Rule} {id : RuleId} (h : id ∈ dispatch rules) :
    ∃ rule ∈ rules, rule.id = id ∧ rule.tokenType.isSome = true := by
  obtain ⟨rule, hrule, rfl⟩ := List.mem_map.mp h
  have hmaking : rule ∈ rules.filter (·.tokenType.isSome) := by
    rcases List.mem_append.mp hrule with hrule | hrule
    · exact (List.mem_filter.mp hrule).1
    · exact (List.mem_filter.mp hrule).1
  obtain ⟨hrule, htype⟩ := List.mem_filter.mp hmaking
  exact ⟨rule, hrule, rfl, htype⟩

theorem lt_of_mem_dispatch {rules : List Rule} {d : Draft} (h : Fits rules d) {id : RuleId}
    (hid : id ∈ dispatch rules) : id < rules.length := by
  obtain ⟨rule, hrule, rfl, _⟩ := exists_of_mem_dispatch hid
  have hmem : rule.id ∈ rules.map (·.id) := List.mem_map_of_mem hrule
  rw [h.ids] at hmem
  exact List.mem_range.mp hmem

/-- What is numbered in order from the start. -/
theorem eq_range {ids : List Nat} {n : Nat} (hids : ids = List.range' 0 ids.length)
    (hn : n = 0 + ids.length) : ids = List.range n := by
  rw [hids, hn, Nat.zero_add, List.range_eq_range']

theorem decision_ids {d : Draft} {ps : List Element} {n : Nat} (h : Lowered n .empty ps d) :
    ps.filterMap decision? = List.range d.decisions.length ∧
      d.decisions.map (·.id) = List.range d.decisions.length := by
  have hps := eq_range h.decisionIds h.length_decisions
  refine ⟨hps, ?_⟩
  have hmap := congrArg (List.map (·.1)) h.decisions
  simp only [Draft.empty, List.map_nil, List.nil_append, List.map_map, List.map_filterMap] at hmap
  exact hmap.trans hps

theorem predicate_ids {d : Draft} {ps : List Element} {n : Nat} (h : Lowered n .empty ps d) :
    ps.filterMap predicate? = List.range d.predicates.length ∧
      d.predicates.map (·.id) = List.range d.predicates.length := by
  have hps := eq_range h.predicateIds h.length_predicates
  exact ⟨hps, h.predicates.trans hps⟩

theorem action_ids {d : Draft} {ps : List Element} {n : Nat} (h : Lowered n .empty ps d) :
    ps.filterMap action? = List.range d.actions.length :=
  eq_range h.actionIds h.length_actions

/-- A block whose decision was recorded while it was lowered. -/
theorem exists_recorded {d : Draft} {ps : List Element} {n : Nat} (h : Lowered n .empty ps d)
    {kind : BlockKind} {id : DecisionId} {alternatives : List (Alternative Element)}
    (hmem : .block kind (some id) alternatives ∈ ps) :
    ∃ x, d.decisions[id]? = some x ∧ x.kind.blockKind = kind ∧
      x.altCount = kind.altCount alternatives.length := by
  have hout : (id, kind, kind.altCount alternatives.length) ∈ d.decisions.map outline := by
    rw [h.decisions]
    exact List.mem_append_right _ (List.mem_filterMap.mpr ⟨_, hmem, rfl⟩)
  obtain ⟨x, hx, hxo⟩ := List.mem_map.mp hout
  have hid : x.id = id := congrArg (·.1) hxo
  refine ⟨x, ?_, congrArg (·.2.1) hxo, congrArg (·.2.2) hxo⟩
  rw [← hid]
  exact getElem?_of_map_eq_range (decision_ids h).2 hx

theorem Fits.wellFormed {g : Grammar} {d : Draft} (h : Fits g.rules d)
    (hdec : g.decisions = d.decisions) (hpred : g.predicates = d.predicates)
    (hact : g.actions = d.actions) : g.WellFormed where
  ruleIds := h.ids
  calls := h.lowered.calls
  shaped := h.lowered.shaped
  numbered := h.lowered.numbered
  plain := h.lowered.plain
  predicates := by rw [hpred]; exact (predicate_ids h.lowered).1
  predicateIds := by rw [hpred]; exact (predicate_ids h.lowered).2
  actions := by rw [hact]; exact action_ids h.lowered
  decisions := by rw [hdec]; exact (decision_ids h.lowered).1
  decisionIds := by rw [hdec]; exact (decision_ids h.lowered).2
  recorded kind id alternatives hmem := by rw [hdec]; exact exists_recorded h.lowered hmem

/-! ### The rule that chooses the next token -/

theorem partsOfEach_calls (targets : List RuleId) :
    partsOfEach (Alternative.numbered (targets.map fun r => [.call r])) = targets.map .call := by
  rw [partsOfEach_numbered]
  induction targets with
  | nil => rfl
  | cons r rs ih => exact congrArg (.call r :: ·) ih

theorem lowered_calls {n : Nat} {d : Draft} (targets : List RuleId) (h : ∀ r ∈ targets, r < n) :
    Lowered n d (partsOfEach (Alternative.numbered (targets.map fun r => [.call r]))) d := by
  rw [partsOfEach_calls]
  have hall {P : Element → Prop} (hP : ∀ r, P (.call r)) : ∀ e ∈ targets.map .call, P e := by
    intro e he
    obtain ⟨r, _, rfl⟩ := List.mem_map.mp he
    exact hP r
  refine .unnumbered rfl rfl rfl (hall fun _ => ⟨rfl, rfl, rfl⟩) (fun rule hr => ?_)
    (hall fun _ => trivial) (hall fun _ => trivial) (hall fun _ => trivial)
  obtain ⟨r, hr, hrr⟩ := List.mem_map.mp hr
  exact Element.call.inj hrr ▸ h r hr

theorem Fits.tokensRule {rules : List Rule} {d : Draft} (h : Fits rules d) {targets : List RuleId}
    (hne : targets ≠ []) (hlt : ∀ id ∈ targets, id < rules.length) :
    Fits (rules ++ [tokensRule rules.length d.decisions.length targets])
      ((Draft.decision rules.length .tokens targets.length).run d).2 := by
  have hne' : (targets.map fun r => [Element.call r]) ≠ [] := by simpa using hne
  have hblock := Lowered.block (n := rules.length + 1) (d := d) rules.length .tokens _ hne'
  have hcalls := lowered_calls (n := rules.length + 1)
    (d := ((Draft.decision rules.length .tokens targets.length).run d).2) targets
    fun r hr => Nat.lt_succ_of_lt (hlt r hr)
  rw [List.length_map] at hblock
  exact h.snoc rfl (hblock.append hcalls)

/-! ### What a grammar is built of -/

/-- The rules of a definition, those of literals included. -/
def rulesWith (d : GrammarDefinition) (lowered : List Rule) : List Rule :=
  (d.assignment d.accepted.1).literals.foldl addLiteral lowered

/-- What a grammar is built of: the lowered rules and the draft that they leave, the rules of
literals, and the rule that chooses the next token where there is one. -/
structure Built (d : GrammarDefinition) (g : Grammar) (lowered : List Rule) (draft : Draft) :
    Prop where
  run : (lowerRules d.kind (d.assignment d.accepted.1).tokens (d.accepted.1.map (·.name)) 0
    d.accepted.1).run .empty = (lowered, draft)
  accepted : d.accepted.2 = []
  assigned : (d.assignment d.accepted.1).errors = []
  drafted : draft.errors = []
  tokens : g.tokens = (d.assignment d.accepted.1).tokens
  predicates : g.predicates = draft.predicates
  actions : g.actions = draft.actions
  rules : (d.kind ≠ .parser ∧ dispatch (d.rulesWith lowered) ≠ [] ∧
      (d.rulesWith lowered).any (·.name == tokensRuleName) = false ∧
      g.rules = d.rulesWith lowered ++ [tokensRule (d.rulesWith lowered).length
        draft.decisions.length (dispatch (d.rulesWith lowered))] ∧
      g.decisions = draft.decisions ++ [⟨draft.decisions.length, (d.rulesWith lowered).length,
        .tokens, (dispatch (d.rulesWith lowered)).length⟩] ∧
      g.tokensRule? = some (d.rulesWith lowered).length) ∨
    (¬(d.kind ≠ .parser ∧ dispatch (d.rulesWith lowered) ≠ []) ∧
      g.rules = d.rulesWith lowered ∧ g.decisions = draft.decisions ∧ g.tokensRule? = none)

theorem exists_built {d : GrammarDefinition} {g : Grammar} (h : d.build = .ok g) :
    ∃ lowered draft, Built d g lowered draft := by
  unfold build at h
  simp only at h
  split at h
  next lowered draft hrun =>
  refine ⟨lowered, draft, ?_⟩
  -- Whether the name of the last rule is taken.
  split at h
  · next htaken =>
    split at h
    · exact nomatch h
    · next hnone => exact absurd (by simp) hnone
  · next htaken =>
    split at h
    · exact nomatch h
    · next hnone =>
      simp only [ne_eq, Decidable.not_not, List.append_eq_nil_iff] at hnone
      obtain ⟨⟨haccepted, hassigned⟩, hdrafted⟩ := hnone
      split at h
      · next hchooses =>
        obtain rfl := Except.ok.inj h
        have hfree : (d.rulesWith lowered).any (·.name == tokensRuleName) = false :=
          Bool.eq_false_iff.mpr fun hany => htaken ⟨hchooses, hany⟩
        exact ⟨hrun, haccepted, hassigned, hdrafted, rfl, rfl, rfl,
          .inl ⟨hchooses.1, hchooses.2, hfree, rfl, rfl, rfl⟩⟩
      · next hchooses =>
        obtain rfl := Except.ok.inj h
        exact ⟨hrun, haccepted, hassigned, hdrafted, rfl, rfl, rfl, .inr ⟨hchooses, rfl, rfl, rfl⟩⟩

theorem prefix_addLiterals (rules : List Rule) (ls : List LiteralRule) :
    rules <+: ls.foldl addLiteral rules := by
  induction ls generalizing rules with
  | nil => exact List.prefix_refl _
  | cons l ls ih =>
    refine List.IsPrefix.trans ?_ (ih (addLiteral rules l))
    unfold addLiteral
    split
    · exact List.prefix_refl _
    · exact List.prefix_append _ _

theorem Built.prefix_rules {d : GrammarDefinition} {g : Grammar} {lowered : List Rule}
    {draft : Draft} (h : Built d g lowered draft) : d.rulesWith lowered <+: g.rules := by
  rcases h.rules with ⟨_, _, _, hrules, _, _⟩ | ⟨_, hrules, _, _⟩
  · exact hrules ▸ List.prefix_append _ _
  · exact hrules ▸ List.prefix_refl _

theorem Built.fits {d : GrammarDefinition} {g : Grammar} {lowered : List Rule} {draft : Draft}
    (h : Built d g lowered draft) : Fits (d.rulesWith lowered) draft := by
  have hfits := (fits_lowerRules d.kind (d.assignment d.accepted.1).tokens
    d.accepted.1).addLiterals (d.assignment d.accepted.1).literals
  rw [h.run] at hfits
  exact hfits

/-- A grammar that comes out of a definition is well formed. -/
theorem wellFormed_of_build {d : GrammarDefinition} {g : Grammar} (h : d.build = .ok g) :
    g.WellFormed := by
  obtain ⟨lowered, draft, hbuilt⟩ := exists_built h
  rcases hbuilt.rules with ⟨_, hne, _, hrules, hdecisions, _⟩ | ⟨_, hrules, hdecisions, _⟩
  · have hall := hbuilt.fits.tokensRule hne fun id hid => lt_of_mem_dispatch hbuilt.fits hid
    exact Fits.wellFormed (d := ((Draft.decision _ .tokens _).run draft).2) (hrules ▸ hall)
      hdecisions hbuilt.predicates hbuilt.actions
  · exact Fits.wellFormed (hrules ▸ hbuilt.fits) hdecisions hbuilt.predicates hbuilt.actions

/-! ### The names of rules -/

/-- One more entry, with a new name. -/
theorem nodup_snoc {α : Type} {name : α → String} {xs : List α} (h : (xs.map name).Nodup) {x : α}
    (hnew : ¬ (xs.any fun y => name y == name x) = true) : ((xs ++ [x]).map name).Nodup := by
  rw [List.map_append]
  refine List.nodup_append.mpr ⟨h, List.pairwise_singleton .., fun y hy z hz hyz => ?_⟩
  obtain ⟨y', hy', rfl⟩ := List.mem_map.mp hy
  refine hnew (List.any_eq_true.mpr ⟨y', hy', ?_⟩)
  rw [hyz, List.mem_singleton.mp hz]
  exact beq_self_eq_true (name x)

theorem nodup_foldl_accept {kind : GrammarKind} {sofar : List RuleDefinition × List GrammarError}
    (h : (sofar.1.map (·.name)).Nodup) (rs : List RuleDefinition) :
    ((rs.foldl (accept kind) sofar).1.map (·.name)).Nodup := by
  induction rs generalizing sofar with
  | nil => exact h
  | cons r rs ih =>
    refine ih ?_
    unfold accept
    split
    · exact h
    · split
      · exact h
      · next hnew => exact nodup_snoc h hnew

theorem nodup_accepted (d : GrammarDefinition) : (d.accepted.1.map (·.name)).Nodup :=
  nodup_foldl_accept (show (([] : List RuleDefinition).map (·.name)).Nodup from .nil) d.rules

theorem name_lowerRule (kind : GrammarKind) (tokens : TokenTable) (names : List String)
    (id : RuleId) (r : RuleDefinition) (d : Draft) :
    ((lowerRule kind tokens names id r).run d).1.name = r.name := by
  rw [lowerRule, run_bind]
  split <;> rfl

theorem names_lowerRules (kind : GrammarKind) (tokens : TokenTable) (names : List String)
    (id : RuleId) (rs : List RuleDefinition) (d : Draft) :
    ((lowerRules kind tokens names id rs).run d).1.map (·.name) = rs.map (·.name) := by
  induction rs generalizing id d with
  | nil => rfl
  | cons r rs ih =>
    rw [lowerRules, run_bind, run_bind, run_pure, List.map_cons, List.map_cons, ih, name_lowerRule]

theorem nodup_addLiterals {rules : List Rule} (h : (rules.map (·.name)).Nodup)
    (ls : List LiteralRule) : ((ls.foldl addLiteral rules).map (·.name)).Nodup := by
  induction ls generalizing rules with
  | nil => exact h
  | cons l ls ih =>
    refine ih ?_
    unfold addLiteral
    split
    · exact h
    · next hnew => exact nodup_snoc h hnew

/-- No two rules of a grammar have the same name. -/
theorem nodup_names_of_build {d : GrammarDefinition} {g : Grammar} (h : d.build = .ok g) :
    (g.rules.map (·.name)).Nodup := by
  obtain ⟨lowered, draft, hbuilt⟩ := exists_built h
  have hlowered := names_lowerRules d.kind (d.assignment d.accepted.1).tokens
    (d.accepted.1.map (·.name)) 0 d.accepted.1 .empty
  have hnodup := nodup_addLiterals (hlowered ▸ nodup_accepted d) (d.assignment d.accepted.1).literals
  rw [hbuilt.run] at hnodup
  rcases hbuilt.rules with ⟨_, _, hfree, hrules, _, _⟩ | ⟨_, hrules, _, _⟩
  · rw [hrules]
    exact nodup_snoc hnodup (ne_true_of_eq_false hfree)
  · rw [hrules]
    exact hnodup

/-- A rule of a grammar is found by its name. -/
theorem ruleNamed?_name {d : GrammarDefinition} {g : Grammar} (h : d.build = .ok g) {rule : Rule}
    (hrule : rule ∈ g.rules) : g.ruleNamed? rule.name = some rule := by
  have hnodup := nodup_names_of_build h
  obtain ⟨before, after, hrules⟩ := List.append_of_mem hrule
  have hhere : (rule :: after).find? (·.name == rule.name) = some rule :=
    List.find?_cons_of_pos (beq_self_eq_true rule.name)
  have hbefore : before.find? (·.name == rule.name) = none := by
    refine List.find?_eq_none.mpr fun r hr hname => ?_
    rw [hrules, List.map_append] at hnodup
    refine (List.nodup_append.mp hnodup).2.2 r.name (List.mem_map_of_mem hr) rule.name ?_
      (eq_of_beq hname)
    exact List.mem_map_of_mem (.head _)
  rw [Grammar.ruleNamed?, hrules, List.find?_append, hbefore, hhere]
  rfl

/-- The grammar of a definition that has one. -/
def grammar (d : GrammarDefinition) : Grammar :=
  d.build.toOption.getD ⟨d.name, d.kind, [], [], [], [], .empty, none⟩

theorem build_eq_ok {d : GrammarDefinition} (h : d.build.isOk = true) : d.build = .ok d.grammar := by
  unfold grammar
  cases hd : d.build with
  | ok g => rfl
  | error e =>
    rw [hd] at h
    exact nomatch h

end GrammarDefinition
end Lookahead
