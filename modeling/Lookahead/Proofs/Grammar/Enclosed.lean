import Lookahead.Proofs.Grammar.Dispatch
import Mathlib.Logic.Relation

/-! Which rule the entries of a grammar's lists belong to.

While a rule is lowered the draft changes in steps of four kinds (`adds_lower`), and each entry
that a step adds names the rule (`within_of_steps`). The new entries are those that the elements
of the rule stand for, whatever is lowered before it and after it (`entered_lowerRules`). -/
namespace Lookahead
namespace Grammar
open Element

/-- A change to the draft while a rule is lowered. -/
inductive Draft.Step (rule : RuleId) (ruleName : String) (d : Draft) : Draft → Prop where
  | note (e : GrammarError) : Step rule ruleName d ((Draft.note e).run d).2
  | decision (kind : DecisionKind) {altCount : Nat} (hkind : kind ≠ .tokens)
    (hblock : kind = .block → 1 < altCount) :
    Step rule ruleName d ((Draft.decision rule kind altCount).run d).2
  | predicate (text : String) (mode : PredicateMode) (location : Option SourceLocation) :
    Step rule ruleName d ((Draft.predicate ruleName text mode location).run d).2
  | action (text : String) : Step rule ruleName d ((Draft.action ruleName text).run d).2

/-- Computing something changes the draft in steps. -/
def Adds {α : Type} (rule : RuleId) (ruleName : String) (m : StateM Draft α) : Prop :=
  ∀ d, Relation.ReflTransGen (Draft.Step rule ruleName) d (m.run d).2

section
variable {rule : RuleId} {ruleName : String} {α β : Type}

theorem Adds.pure (a : α) : Adds rule ruleName (pure a) := fun _ => .refl

theorem Adds.bind {m : StateM Draft α} {f : α → StateM Draft β} (hm : Adds rule ruleName m)
    (hf : ∀ a, Adds rule ruleName (f a)) : Adds rule ruleName (m >>= f) :=
  fun d => (hm d).trans (hf _ _)

theorem Adds.step {m : StateM Draft α} (h : ∀ d, Draft.Step rule ruleName d (m.run d).2) :
    Adds rule ruleName m := fun d => .single (h d)

/-- An error takes the place of what cannot be looked up. -/
theorem Adds.error (e : GrammarError) (a : α) :
    Adds rule ruleName (do Draft.note e; return a) :=
  (Adds.step fun _ => .note e).bind fun _ => .pure a

end

theorem adds_openDecision (s : Scope) (kind : BlockKind) (count : Nat) :
    Adds s.rule s.ruleName (openDecision s kind count) := by
  cases kind with
  | single =>
    simp only [openDecision]
    split
    · next hseveral => exact .step fun _ => .decision .block (by decide) fun _ => hseveral
    · exact .pure none
  | optional => exact .step fun _ => .decision .optional (by decide) (by simp)
  | star => exact .step fun _ => .decision .star (by decide) (by simp)
  | plus => exact .step fun _ => .decision .plus (by decide) (by simp)

theorem adds_literal (s : Scope) (text : String) :
    Adds s.rule s.ruleName (lowerLiteral s text) := by
  unfold lowerLiteral
  split
  · exact .pure _
  · split
    · split
      · exact .pure _
      · exact .error _ _
    · exact .error _ _

theorem adds_ref (s : Scope) (name : String) : Adds s.rule s.ruleName (lowerRef s name) := by
  unfold lowerRef
  split
  · split
    · exact .pure _
    · exact .error _ _
  · split
    · split
      · exact .error _ _
      · exact .pure _
    · exact .error _ _

/-- Whatever is lowered, the draft changes in steps. -/
theorem adds_lower (s : Scope) :
    (∀ e, Adds s.rule s.ruleName (lower s e)) ∧ (∀ es, Adds s.rule s.ruleName (lowerEach s es)) ∧
    ∀ es, Adds s.rule s.ruleName (lowerSeq s es) := by
  apply lower.mutual_induct s
  case case1 =>
    intro items ih
    rw [lower]
    exact ih
  case case2 | case7 | case8 | case15 | case17 => exact .pure _
  case case3 =>
    intro e ih
    rw [lower]
    exact ih
  case case4 =>
    intro e f es he hf hes
    rw [lower]
    exact (adds_openDecision s _ _).bind fun _ => he.bind fun _ => hf.bind fun _ =>
      hes.bind fun _ => .pure _
  case case5 =>
    intro times e es he hes
    rw [lower]
    exact (adds_openDecision s _ _).bind fun _ => he.bind fun _ => hes.bind fun _ => .pure _
  case case6 =>
    intro times body hbody ih
    rw [lower]
    · exact (adds_openDecision s _ _).bind fun _ => ih.bind fun _ => .pure _
    · exact hbody
  case case9 =>
    intro a b hs
    rw [lower, hs]
    exact .pure _
  case case10 =>
    intro a b hs
    rw [lower, hs]
    exact .error _ _
  case case11 =>
    intro text
    rw [lower]
    exact adds_literal s text
  case case12 =>
    intro name
    rw [lower]
    exact adds_ref s name
  case case13 =>
    intro text mode location
    rw [lower]
    exact (Adds.step fun _ => .predicate text mode location).bind fun _ => .pure _
  case case14 =>
    intro text
    rw [lower]
    exact (Adds.step fun _ => .action text).bind fun _ => .pure _
  case case16 =>
    intro e es he hes
    rw [lowerEach]
    exact he.bind fun _ => hes.bind fun _ => .pure _
  case case18 =>
    intro e es he hes
    rw [lowerSeq]
    exact he.bind fun _ => hes.bind fun _ => .pure _

/-! ### What the steps add -/

/-- A list that goes on with entries of a certain kind. -/
def GoesOn {α : Type} (P : α → Prop) (xs ys : List α) : Prop :=
  ∃ new, ys = xs ++ new ∧ ∀ x ∈ new, P x

section
variable {α : Type} {P : α → Prop} {xs ys : List α}

theorem GoesOn.refl (xs : List α) : GoesOn P xs xs := ⟨[], (List.append_nil xs).symm, nofun⟩

theorem GoesOn.snoc (h : GoesOn P xs ys) {x : α} (hx : P x) : GoesOn P xs (ys ++ [x]) := by
  obtain ⟨new, rfl, hnew⟩ := h
  refine ⟨new ++ [x], List.append_assoc .., fun y hy => ?_⟩
  rcases List.mem_append.mp hy with hy | hy
  · exact hnew y hy
  · exact List.mem_singleton.mp hy ▸ hx

/-- What `f` tells of the rest of a longer list, it tells of new entries. -/
theorem GoesOn.exists_mem {β : Type} {f : α → β} {told : List β} (h : GoesOn P xs ys)
    (hall : ys.map f = xs.map f ++ told) {b : β} (hb : b ∈ told) : ∃ x ∈ ys, f x = b ∧ P x := by
  obtain ⟨new, rfl, hnew⟩ := h
  rw [List.map_append, List.append_cancel_left_eq] at hall
  obtain ⟨x, hx, rfl⟩ := List.mem_map.mp (hall ▸ hb)
  exact ⟨x, List.mem_append_right _ hx, rfl, hnew x hx⟩

theorem GoesOn.subset (h : GoesOn P xs ys) : xs ⊆ ys := by
  obtain ⟨new, rfl, _⟩ := h
  exact List.subset_append_left _ _

end

/-- The decision of a block of a rule. -/
structure Decision.Within (rule : RuleId) (x : Decision) : Prop where
  rule : x.rule = rule
  kind : x.kind ≠ .tokens
  several : x.kind = .block → 1 < x.altCount

/-- From `d` to `d'` only entries of one rule are added. -/
structure Draft.Within (rule : RuleId) (ruleName : String) (d d' : Draft) : Prop where
  decisions : GoesOn (Decision.Within rule) d.decisions d'.decisions
  predicates : GoesOn (·.ruleName = ruleName) d.predicates d'.predicates
  actions : GoesOn (·.ruleName = ruleName) d.actions d'.actions

section
variable {rule : RuleId} {ruleName : String} {d d' d'' : Draft}

theorem Draft.Within.refl (d : Draft) : Draft.Within rule ruleName d d :=
  ⟨.refl _, .refl _, .refl _⟩

theorem Draft.Within.step (h : Draft.Within rule ruleName d d')
    (hstep : Draft.Step rule ruleName d' d'') : Draft.Within rule ruleName d d'' := by
  cases hstep with
  | note e => exact ⟨h.decisions, h.predicates, h.actions⟩
  | decision kind hkind hblock => exact ⟨h.decisions.snoc ⟨rfl, hkind, hblock⟩, h.predicates, h.actions⟩
  | predicate text mode location => exact ⟨h.decisions, h.predicates.snoc rfl, h.actions⟩
  | action text => exact ⟨h.decisions, h.predicates, h.actions.snoc rfl⟩

theorem within_of_steps (h : Relation.ReflTransGen (Draft.Step rule ruleName) d d') :
    Draft.Within rule ruleName d d' := by
  induction h with
  | refl => exact .refl d
  | tail _ hstep ih => exact ih.step hstep

/-- The draft has an entry of the rule for each numbered element. -/
structure Entered (rule : RuleId) (ruleName : String) (parts : List Element) (d : Draft) :
    Prop where
  decisions : ∀ kind id as, .block kind (some id) as ∈ parts →
    ∃ x ∈ d.decisions, x.id = id ∧ x.kind.blockKind = kind ∧
      x.altCount = kind.altCount as.length ∧ Decision.Within rule x
  predicates : ∀ id, .predicate id ∈ parts → ∃ p ∈ d.predicates, p.id = id ∧ p.ruleName = ruleName
  actions : ∀ id, .action id ∈ parts → ∃ x ∈ d.actions, x.id = id ∧ x.ruleName = ruleName

/-- The numbers of the elements are those of the new entries. -/
theorem entered_of_lowered {n : Nat} {parts : List Element} (h : Lowered n d parts d')
    (hwithin : Draft.Within rule ruleName d d') : Entered rule ruleName parts d' := by
  constructor
  case decisions =>
    intro kind id as hmem
    obtain ⟨x, hx, heq, hrule⟩ :=
      hwithin.decisions.exists_mem h.decisions (List.mem_filterMap.mpr ⟨_, hmem, rfl⟩)
    obtain ⟨hid, hkind, hcount⟩ := by simpa [outline] using heq
    exact ⟨x, hx, hid, hkind, hcount, hrule⟩
  case predicates =>
    exact fun id hmem =>
      hwithin.predicates.exists_mem h.predicates (List.mem_filterMap.mpr ⟨_, hmem, rfl⟩)
  case actions =>
    exact fun id hmem =>
      hwithin.actions.exists_mem h.actions (List.mem_filterMap.mpr ⟨_, hmem, rfl⟩)

/-- All entries of `d` are in `d'`. -/
structure Draft.Kept (d d' : Draft) : Prop where
  decisions : d.decisions ⊆ d'.decisions
  predicates : d.predicates ⊆ d'.predicates
  actions : d.actions ⊆ d'.actions

theorem Draft.Kept.refl (d : Draft) : d.Kept d :=
  ⟨List.Subset.refl _, List.Subset.refl _, List.Subset.refl _⟩

theorem Draft.Kept.trans (h : d.Kept d') (h' : d'.Kept d'') : d.Kept d'' :=
  ⟨List.Subset.trans h.decisions h'.decisions, List.Subset.trans h.predicates h'.predicates,
    List.Subset.trans h.actions h'.actions⟩

theorem Draft.Within.kept (h : Draft.Within rule ruleName d d') : d.Kept d' :=
  ⟨h.decisions.subset, h.predicates.subset, h.actions.subset⟩

theorem Entered.mono {parts : List Element} (h : Entered rule ruleName parts d) (hkept : d.Kept d') :
    Entered rule ruleName parts d' where
  decisions kind id as hmem := by
    obtain ⟨x, hx, hentry⟩ := h.decisions kind id as hmem
    exact ⟨x, hkept.decisions hx, hentry⟩
  predicates id hmem := by
    obtain ⟨p, hp, hentry⟩ := h.predicates id hmem
    exact ⟨p, hkept.predicates hp, hentry⟩
  actions id hmem := by
    obtain ⟨x, hx, hentry⟩ := h.actions id hmem
    exact ⟨x, hkept.actions hx, hentry⟩

end

end Grammar

namespace GrammarDefinition
open Grammar

theorem adds_lowerRule (kind : GrammarKind) (tokens : TokenTable) (names : List String)
    (id : RuleId) (r : RuleDefinition) : Adds id r.name (lowerRule kind tokens names id r) := by
  let scope : Scope := ⟨kind, tokens, names, id, r.name, .ofName r.name⟩
  have hbody : Adds id r.name (lowerBody scope r.body) :=
    (adds_openDecision scope _ _).bind fun _ =>
      ((adds_lower scope).2.1 _).bind fun _ => .pure _
  refine hbody.bind fun block => ?_
  dsimp only
  split
  · exact (Adds.step fun _ => .note _).bind fun _ => .pure _
  · exact .pure _

/-- Each rule has entries for its own elements. -/
theorem entered_lowerRules (kind : GrammarKind) (tokens : TokenTable) (names : List String)
    (id : RuleId) (rs : List RuleDefinition) (d : Draft) :
    d.Kept ((lowerRules kind tokens names id rs).run d).2 ∧
      ∀ rule ∈ ((lowerRules kind tokens names id rs).run d).1,
        Entered rule.id rule.name rule.block.element.parts
          ((lowerRules kind tokens names id rs).run d).2 := by
  induction rs generalizing id d with
  | nil => exact ⟨.refl d, nofun⟩
  | cons r rs ih =>
    have hwithin := within_of_steps (adds_lowerRule kind tokens names id r d)
    obtain ⟨hlowered, hid⟩ := lowered_lowerRule kind tokens names id r d
    have hname := name_lowerRule kind tokens names id r d
    obtain ⟨hkept, hentered⟩ := ih (id + 1) ((lowerRule kind tokens names id r).run d).2
    rw [lowerRules, run_bind, run_bind, run_pure]
    refine ⟨hwithin.kept.trans hkept, List.forall_mem_cons.mpr ⟨?_, hentered⟩⟩
    -- The rules after this one leave its entries where they are.
    rw [hid, hname]
    exact (entered_of_lowered hlowered hwithin).mono hkept

/-- The rule of a literal has no numbered elements. -/
theorem entered_ofLiteral (rule : RuleId) (ruleName text : String) (d : Draft) :
    Entered rule ruleName (Block.ofLiteral text).element.parts d :=
  entered_of_lowered (n := 0) (lowered_chars_block text.toList) (.refl d)

end GrammarDefinition
end Lookahead
