import Lookahead.Grammar.Lowering
import Lookahead.Proofs.Grammar.WellFormed

/-! Lowering numbers what it meets.

`Lowered n d parts d'` says what becomes of a draft while parts of a rule are made:
their decisions, predicates and actions are added in the order of the parts, each under
the next free number, and calls stay below `n`. It holds of nothing, of one part and of one
piece after another, so it holds of every body (`lowered_lower`). -/
namespace Lookahead

/-- Running one step after another. -/
theorem run_bind {σ α β : Type} (x : StateM σ α) (f : α → StateM σ β) (s : σ) :
    (x >>= f).run s = (f (x.run s).1).run (x.run s).2 := rfl

theorem run_pure {σ α : Type} (a : α) (s : σ) : (pure a : StateM σ α).run s = (a, s) := rfl

namespace Grammar
open Element

/-- What is recorded of the block of a decision. -/
def outline (d : Decision) : DecisionId × BlockKind × Nat := (d.id, d.kind.blockKind, d.altCount)

/-- Parts are made, and the draft `d` becomes `d'`. -/
structure Lowered (ruleCount : Nat) (d : Draft) (parts : List Element) (d' : Draft) : Prop where
  decisions : d'.decisions.map outline = d.decisions.map outline ++ parts.filterMap outline?
  decisionIds : parts.filterMap decision? =
    List.range' d.decisions.length (parts.filterMap decision?).length
  predicates : d'.predicates.map (·.id) = d.predicates.map (·.id) ++ parts.filterMap predicate?
  predicateIds : parts.filterMap predicate? =
    List.range' d.predicates.length (parts.filterMap predicate?).length
  actions : d'.actions.map (·.id) = d.actions.map (·.id) ++ parts.filterMap action?
  actionIds : parts.filterMap action? =
    List.range' d.actions.length (parts.filterMap action?).length
  calls : ∀ rule, .call rule ∈ parts → rule < ruleCount
  shaped : ∀ e ∈ parts, e.Shaped
  numbered : ∀ e ∈ parts, e.Numbered
  plain : ∀ e ∈ parts, e.Plain

/-- An element without a number of its own. -/
def Unnumbered (e : Element) : Prop := e.outline? = none ∧ e.predicate? = none ∧ e.action? = none

theorem length_filterMap_decision? (ps : List Element) :
    (ps.filterMap decision?).length = (ps.filterMap outline?).length := by
  rw [show decision? = fun e => (outline? e).map (·.1) from rfl, ← List.map_filterMap,
    List.length_map]

theorem numbered_block (kind : BlockKind) (decision : Option DecisionId)
    (sequences : List (List Element)) :
    (Element.block kind decision (Alternative.numbered sequences)).Numbered := by
  rw [Numbered, Alternative.map_ordinal_numbered, Alternative.length_numbered]

namespace Lowered
variable {n : Nat} {d d' d'' : Draft} {ps qs : List Element}

theorem length_decisions (h : Lowered n d ps d') :
    d'.decisions.length = d.decisions.length + (ps.filterMap decision?).length := by
  rw [length_filterMap_decision?]
  simpa using congrArg List.length h.decisions

theorem length_predicates (h : Lowered n d ps d') :
    d'.predicates.length = d.predicates.length + (ps.filterMap predicate?).length := by
  simpa using congrArg List.length h.predicates

theorem length_actions (h : Lowered n d ps d') :
    d'.actions.length = d.actions.length + (ps.filterMap action?).length := by
  simpa using congrArg List.length h.actions

theorem append (hp : Lowered n d ps d') (hq : Lowered n d' qs d'') :
    Lowered n d (ps ++ qs) d'' where
  decisions := by simp [hq.decisions, hp.decisions]
  decisionIds := by
    rw [List.filterMap_append, List.length_append, ← List.range'_append_1, ← hp.decisionIds,
      ← hp.length_decisions, ← hq.decisionIds]
  predicates := by simp [hq.predicates, hp.predicates]
  predicateIds := by
    rw [List.filterMap_append, List.length_append, ← List.range'_append_1, ← hp.predicateIds,
      ← hp.length_predicates, ← hq.predicateIds]
  actions := by simp [hq.actions, hp.actions]
  actionIds := by
    rw [List.filterMap_append, List.length_append, ← List.range'_append_1, ← hp.actionIds,
      ← hp.length_actions, ← hq.actionIds]
  calls rule h := (List.mem_append.mp h).elim (hp.calls rule) (hq.calls rule)
  shaped e h := (List.mem_append.mp h).elim (hp.shaped e) (hq.shaped e)
  numbered e h := (List.mem_append.mp h).elim (hp.numbered e) (hq.numbered e)
  plain e h := (List.mem_append.mp h).elim (hp.plain e) (hq.plain e)

/-- Parts without numbers leave the draft as it is, errors aside. -/
theorem unnumbered (hdec : d'.decisions = d.decisions) (hpred : d'.predicates = d.predicates)
    (hact : d'.actions = d.actions) (hnum : ∀ e ∈ ps, Unnumbered e)
    (hcalls : ∀ rule, .call rule ∈ ps → rule < n) (hshaped : ∀ e ∈ ps, e.Shaped)
    (hnumbered : ∀ e ∈ ps, e.Numbered) (hplain : ∀ e ∈ ps, e.Plain) : Lowered n d ps d' := by
  have houtline : ps.filterMap outline? = [] :=
    List.filterMap_eq_nil_iff.mpr fun e he => (hnum e he).1
  have hdecision : ps.filterMap decision? = [] :=
    List.length_eq_zero_iff.mp (by rw [length_filterMap_decision?, houtline]; rfl)
  have hpredicate : ps.filterMap predicate? = [] :=
    List.filterMap_eq_nil_iff.mpr fun e he => (hnum e he).2.1
  have haction : ps.filterMap action? = [] :=
    List.filterMap_eq_nil_iff.mpr fun e he => (hnum e he).2.2
  exact ⟨by simp [houtline, hdec], by simp [hdecision], by simp [hpredicate, hpred],
    by simp [hpredicate], by simp [haction, hact], by simp [haction], hcalls, hshaped, hnumbered,
    hplain⟩

theorem nil : Lowered n d [] d :=
  unnumbered rfl rfl rfl nofun nofun nofun nofun nofun

/-- Nothing but an error is noted. -/
theorem note (e : GrammarError) : Lowered n d [] ((Draft.note e).run d).2 :=
  unnumbered rfl rfl rfl nofun nofun nofun nofun nofun

/-- One part with a number. -/
theorem one {e : Element}
    (hdec : d'.decisions.map outline = d.decisions.map outline ++ e.outline?.toList)
    (hdecId : ∀ id, e.decision? = some id → id = d.decisions.length)
    (hpred : d'.predicates.map (·.id) = d.predicates.map (·.id) ++ e.predicate?.toList)
    (hpredId : ∀ id, e.predicate? = some id → id = d.predicates.length)
    (hact : d'.actions.map (·.id) = d.actions.map (·.id) ++ e.action?.toList)
    (hactId : ∀ id, e.action? = some id → id = d.actions.length)
    (hcall : ∀ rule, e ≠ .call rule) (hshaped : e.Shaped) (hnumbered : e.Numbered)
    (hplain : e.Plain) : Lowered n d [e] d' := by
  have hsingle {α : Type} (f : Element → Option α) : [e].filterMap f = (f e).toList := by
    cases h : f e <;> simp [h]
  have hrange {o : Option Nat} {k : Nat} (h : ∀ id, o = some id → id = k) :
      o.toList = List.range' k o.toList.length := by
    cases o with
    | none => rfl
    | some id => simp [h id rfl]
  refine ⟨by rw [hsingle, hdec], by rw [hsingle]; exact hrange hdecId, by rw [hsingle, hpred],
    by rw [hsingle]; exact hrange hpredId, by rw [hsingle, hact],
    by rw [hsingle]; exact hrange hactId, fun rule h => ?_, fun f hf => ?_, fun f hf => ?_,
    fun f hf => ?_⟩
  · exact absurd (List.mem_singleton.mp h).symm (hcall rule)
  · exact List.mem_singleton.mp hf ▸ hshaped
  · exact List.mem_singleton.mp hf ▸ hnumbered
  · exact List.mem_singleton.mp hf ▸ hplain

/-- A block with a decision of its own, without what it contains. -/
theorem block (rule : RuleId) (kind : DecisionKind) (sequences : List (List Element))
    (h : sequences ≠ []) :
    Lowered n d [.block kind.blockKind (some d.decisions.length) (Alternative.numbered sequences)]
      ((Draft.decision rule kind (kind.blockKind.altCount sequences.length)).run d).2 := by
  have hne : Alternative.numbered sequences ≠ [] := by simpa [← List.length_eq_zero_iff] using h
  refine one ?_ (fun _ h => (Option.some.inj h).symm) (List.append_nil _).symm nofun
    (List.append_nil _).symm nofun nofun ?_ (numbered_block ..) trivial
  · rw [outline?, Alternative.length_numbered]
    exact List.map_append
  · cases kind <;> simpa [DecisionKind.blockKind, Shaped] using hne

/-- A block without a decision, without what it contains. -/
theorem undecided {sequences : List (List Element)} (h : sequences.length = 1) :
    Lowered n d [.block .single none (Alternative.numbered sequences)] d :=
  one (List.append_nil _).symm nofun (List.append_nil _).symm nofun (List.append_nil _).symm nofun
    nofun ((Alternative.length_numbered _).trans h) (numbered_block ..) trivial

theorem predicate (ruleName text : String) (mode : PredicateMode)
    (location : Option SourceLocation) :
    Lowered n d [.predicate d.predicates.length]
      ((Draft.predicate ruleName text mode location).run d).2 :=
  one (List.append_nil _).symm nofun List.map_append (fun _ h => (Option.some.inj h).symm)
    (List.append_nil _).symm nofun nofun trivial trivial trivial

theorem action (ruleName text : String) :
    Lowered n d [.action d.actions.length] ((Draft.action ruleName text).run d).2 :=
  one (List.append_nil _).symm nofun (List.append_nil _).symm nofun List.map_append
    (fun _ h => (Option.some.inj h).symm) nofun trivial trivial trivial

/-- Opening a decision and then making the alternatives. -/
theorem opened {s : Scope} {kind : BlockKind} {sequences : List (List Element)} {count : Nat}
    (hcount : count = sequences.length) (hsingle : kind = .single → 1 < count)
    (hne : sequences ≠ [])
    (h : Lowered n ((openDecision s kind count).run d).2 (sequences.flatMap partsOf) d') :
    Lowered n d
      (partsOf
        [.block kind ((openDecision s kind count).run d).1 (Alternative.numbered sequences)]) d' := by
  subst hcount
  obtain ⟨dk, hkind, hopen⟩ : ∃ dk : DecisionKind, dk.blockKind = kind ∧
      (openDecision s kind sequences.length).run d = (some d.decisions.length,
        ((Draft.decision s.rule dk (kind.altCount sequences.length)).run d).2) := by
    cases kind with
    | single =>
      refine ⟨.block, rfl, ?_⟩
      simp only [openDecision, hsingle rfl, if_true]
      rfl
    | optional => exact ⟨.optional, rfl, rfl⟩
    | star => exact ⟨.star, rfl, rfl⟩
    | plus => exact ⟨.plus, rfl, rfl⟩
  subst hkind
  rw [hopen] at h ⊢
  simp only [partsOf, List.append_nil, Element.parts, partsOfEach_numbered]
  exact append (block s.rule dk sequences hne) h

end Lowered

theorem plain_range (a b : Symbol) : (Element.symbols (.range a b)).Plain := Nat.le_refl 1

theorem plain_anySymbol (s : Scope) : (Element.symbols (match s.ruleKind with
    | .lexer => anyChar
    | .parser => anyToken s.tokens)).Plain := by
  cases s.ruleKind with
  | lexer => exact plain_range _ _
  | parser =>
    simp only [anyToken]
    split
    · exact Nat.zero_le 1
    · exact plain_range _ _

/-- A set of symbols is a part without a number. -/
theorem lowered_symbols {n : Nat} {d : Draft} {set : SymbolSet} (h : (Element.symbols set).Plain) :
    Lowered n d (partsOf [.symbols set]) d :=
  .one (List.append_nil _).symm nofun (List.append_nil _).symm nofun (List.append_nil _).symm nofun
    nofun trivial trivial h

theorem lowered_chars {n : Nat} {d : Draft} (cs : List Char) :
    Lowered n d (partsOf (cs.map fun c => .symbols (.single (.ofChar c)))) d := by
  induction cs with
  | nil => exact .nil
  | cons c cs ih => exact (lowered_symbols (plain_range _ _)).append ih

theorem lowered_literal (s : Scope) (text : String) (d : Draft) :
    Lowered s.ruleNames.length d (partsOf ((lowerLiteral s text).run d).1)
      ((lowerLiteral s text).run d).2 := by
  unfold lowerLiteral
  split
  · exact lowered_chars _
  · split
    · split
      · exact lowered_symbols (plain_range _ _)
      · exact .note _
    · exact .note _

theorem lowered_ref (s : Scope) (name : String) (d : Draft) :
    Lowered s.ruleNames.length d (partsOf ((lowerRef s name).run d).1) ((lowerRef s name).run d).2 := by
  unfold lowerRef
  split
  · split
    · exact lowered_symbols (plain_range _ _)
    · exact .note _
  · split
    · next rule hrule =>
      split
      · exact .note _
      · have hlt : rule < s.ruleNames.length := (List.findIdx?_eq_some_iff_getElem.mp hrule).1
        have hall {P : Element → Prop} (h : P (.call rule)) : ∀ e ∈ [Element.call rule], P e :=
          fun e he => List.mem_singleton.mp he ▸ h
        exact .unnumbered rfl rfl rfl (hall ⟨rfl, rfl, rfl⟩)
          (fun r hr => Element.call.inj (List.mem_singleton.mp hr) ▸ hlt) (hall trivial) (hall trivial)
          (hall trivial)
    · exact .note _

theorem length_lowerEach (s : Scope) (es : List Expr) (d : Draft) :
    ((lowerEach s es).run d).1.length = es.length := by
  induction es generalizing d with
  | nil => rfl
  | cons e es ih =>
    rw [lowerEach, run_bind, run_bind]
    exact congrArg (· + 1) (ih _)

/-- An alternative of a repeated body that does not choose. -/
theorem Lowered.each_one {n : Nat} {d d' : Draft} {es : List Element}
    (h : Lowered n d (partsOf es) d') : Lowered n d ([es].flatMap partsOf) d' := by
  simpa using h

/-- Whatever is lowered, it is numbered in order. -/
theorem lowered_lower (s : Scope) :
    (∀ e d, Lowered s.ruleNames.length d (partsOf ((lower s e).run d).1) ((lower s e).run d).2) ∧
    (∀ es d, Lowered s.ruleNames.length d (((lowerEach s es).run d).1.flatMap partsOf)
      ((lowerEach s es).run d).2) ∧
    ∀ es d, Lowered s.ruleNames.length d (partsOf ((lowerSeq s es).run d).1)
      ((lowerSeq s es).run d).2 := by
  apply lower.mutual_induct s
  case case1 =>
    intro items ih d
    rw [lower]
    exact ih d
  case case2 =>
    intro d
    exact .nil
  case case3 =>
    intro e ih d
    rw [lower]
    exact ih d
  case case4 =>
    intro e f es he hf hes d
    rw [lower]
    simp only [run_bind, run_pure]
    have h := (he ((openDecision s .single (es.length + 2)).run d).2).append
      ((hf _).append (hes _))
    refine .opened ?_ (fun _ => Nat.one_lt_succ_succ _) (List.cons_ne_nil _ _) h
    simp only [List.length_cons, length_lowerEach]
  case case5 =>
    intro times e es he hes d
    rw [lower]
    simp only [run_bind, run_pure]
    have h := (he ((openDecision s times.blockKind (es.length + 1)).run d).2).append (hes _)
    refine .opened ?_ (fun h => by cases times <;> exact nomatch h) (List.cons_ne_nil _ _) h
    simp only [List.length_cons, length_lowerEach]
  case case6 =>
    intro times body hbody ih d
    rw [lower]
    · exact .opened rfl (fun h => by cases times <;> exact nomatch h) (List.cons_ne_nil _ _)
        (ih _).each_one
    · exact hbody
  case case7 =>
    intro d
    exact .nil
  case case8 =>
    intro d
    exact lowered_symbols (plain_anySymbol s)
  case case9 =>
    intro a b hs d
    rw [lower, hs]
    exact lowered_symbols (plain_range _ _)
  case case10 =>
    intro a b hs d
    rw [lower, hs]
    exact .note _
  case case11 =>
    intro text d
    rw [lower]
    exact lowered_literal s text d
  case case12 =>
    intro name d
    rw [lower]
    exact lowered_ref s name d
  case case13 =>
    intro text mode location d
    rw [lower]
    exact .predicate ..
  case case14 =>
    intro text d
    rw [lower]
    exact .action ..
  case case15 =>
    intro d
    exact .nil
  case case16 =>
    intro e es he hes d
    rw [lowerEach, run_bind, run_bind, run_pure]
    exact (he d).append (hes _)
  case case17 =>
    intro d
    exact .nil
  case case18 =>
    intro e es he hes d
    rw [lowerSeq, run_bind, run_bind, run_pure, partsOf_append]
    exact (he d).append (hes _)

end Grammar
end Lookahead
