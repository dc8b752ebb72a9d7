import Lookahead.Proofs.Grammar.Dispatch
import Lookahead.Proofs.Network.Along
import Lookahead.Proofs.Network.Frames
import Lookahead.Proofs.Prediction.Shared

/-! Runs through the choice of the next token.

Each alternative of the choice calls a rule and has the nodes before and behind the call for
itself. A run in the rule has the node behind the call at the bottom of its stack, so runs of
two alternatives do not meet where a symbol is read. And since nothing calls the rule that
chooses, a run of an alternative reads what the called rule offers, and nothing else. -/
namespace Lookahead
open Network

namespace Grammar.Chooses
variable {g : Grammar} {id : RuleId} {d : DecisionId} {targets : List RuleId}

/-- The alternatives of the choice. -/
abbrev calls (targets : List RuleId) : List (Alternative Element) :=
  Alternative.numbered (targets.map fun r => [.call r])

theorem branchNodes_calls (target : NodeId) {as : List (Alternative Element)}
    (has : ∀ a ∈ as, ∃ r, a.elements = [.call r]) {next i : Nat} {node : NodeId}
    (h : (branchNodes target next as)[i]? = some node) : node = next + 2 * i := by
  induction as generalizing next i with
  | nil => exact nomatch h
  | cons a as ih =>
    obtain ⟨⟨r, hr⟩, has⟩ := List.forall_mem_cons.mp has
    cases i with
    | zero => exact (Option.some.inj h).symm
    | succ i =>
      rw [branchNodes, hr] at h
      have hnode : node = next + 2 + 2 * i := ih has h
      lia

theorem elements_calls {a : Alternative Element} (h : a ∈ calls targets) :
    ∃ r, a.elements = [.call r] := by
  obtain ⟨r, _, hr⟩ := List.mem_map.mp (Alternative.elements_mem h)
  exact ⟨r, hr.symm⟩

/-- An alternative of the choice lies between the node where it is entered and the one where the
choice ends. It has the node behind its call for itself. -/
structure Lies (g : Grammar) (id : RuleId) (entry target : RuleId) : Prop where
  spans : SpansSequence g (Inner g) entry (stop id) [.call target]
  call : ∀ x, x ∈ (ofGrammar g).edgesOf entry ↔ x = .call target (entry + 1)
  behind : ∀ x, x ∈ (ofGrammar g).edgesOf (entry + 1) ↔ x = .silent (stop id)

variable (h : g.Chooses id d targets) (hwf : g.WellFormed)
include h

theorem lt_length : id < g.rules.length := (List.getElem?_eq_some_iff.mp h.rule).1

include hwf

theorem length_entriesOf : ((ofGrammar g).entriesOf d).length = targets.length := by
  have hmem : .block .single (some d) (calls targets) ∈ g.parts := (lays_rule h.rule).mem_parts
  rw [Network.length_entriesOf hwf hmem]
  simp [BlockKind.altCount]

theorem exists_lies : ∃ next, ∀ (i : Nat) target, targets[i]? = some target →
    ((ofGrammar g).entriesOf d)[i]? = some (next + 2 * i) ∧ Lies g id (next + 2 * i) target := by
  have hlt := h.lt_length
  have hinner : ∀ n, n = start id ∨ 2 * g.rules.length ≤ n → Inner g n := by
    intro n hn rule hrule
    simp only [start, stop] at hn ⊢
    lia
  obtain ⟨next, hplaced⟩ : SpansElement g (Inner g) (start id) (stop id)
      (.block .single (some d) (calls targets)) := spans_rule_inside h.rule hinner
  rw [element] at hplaced
  obtain ⟨hbranches, hentries⟩ := spans_of_branches hwf hplaced.contains (fun _ _ h => h)
    (List.append_nil _).symm (hplaced.owns.mono fun n hn => .inr hn)
    (List.forall_mem_singleton.mpr hplaced.source_lt) hplaced.target_lt hplaced.may_new
  rw [List.append_nil] at hentries
  refine ⟨next, fun i target htarget => ?_⟩
  have ha : (calls targets)[i]? = some ⟨i + 1, [.call target]⟩ := by
    rw [Alternative.getElem?_numbered, List.getElem?_map, htarget]
    rfl
  obtain ⟨node, hnode, hspans⟩ := hbranches i _ ha
  obtain rfl := branchNodes_calls _ (fun _ => elements_calls) (hentries ▸ hnode)
  refine ⟨hnode, ?_⟩
  -- The node behind the call is the first new one of its sequence.
  obtain ⟨node, hnode', hcontains, _⟩ :=
    contains_branches (some d) [start id] (stop id) next ha
  obtain rfl := branchNodes_calls _ (fun _ => elements_calls) hnode'
  have hcall : .call target (next + 2 * i + 1) ∈ (ofGrammar g).edgesOf (next + 2 * i) :=
    mem_edgesOf.mpr (hplaced.contains.links _ (hcontains.links _ (.head _)))
  obtain ⟨behind, he, hrest⟩ := hspans.cons
  obtain ⟨edge, _, htarget', hedges⟩ := he.mem_edgesOf hwf (e := .call target) trivial
  obtain rfl := (hedges _).mp hcall
  obtain rfl := htarget'
  exact ⟨hspans, hedges, fun x => hrest.mem_edgesOf⟩

theorem isBottom : IsBottom g (stop id) where
  edges := (closed_ofGrammar hwf).stop _ id (stopOf?_eq_some.mpr ⟨h.lt_length, rfl⟩)
  follows rule hrule := by
    obtain rfl : id = rule := by
      simp only [stop] at hrule
      lia
    refine List.eq_nil_iff_forall_not_mem.mpr fun follow hfollow => ?_
    obtain ⟨_, node, hlink⟩ := mem_followsOf.mp hfollow
    exact h.uncalled ((within_pieceOf g).elements _ hlink _ rfl)

end Grammar.Chooses

open Grammar

section
variable {g : Grammar} {id : RuleId} {d : DecisionId} {targets : List RuleId} {t : Terrain}
  (h : g.Chooses id d targets) (hwf : g.WellFormed) (hnetwork : t.network = ofGrammar g)
include h hwf hnetwork

/-- From where an alternative of the choice is entered, a run is before the call, in it, behind it
or at the end. -/
theorem Run.in_call {entry : NodeId} {target : RuleId} (hlies : Chooses.Lies g id entry target)
    {ps : List Passage} {q : Position} (hrun : Run t ⟨entry, []⟩ ps q) :
    q = ⟨entry, []⟩ ∨ q = ⟨entry + 1, []⟩ ∨ q = ⟨stop id, []⟩ ∨
      ∃ stack, q.stack = stack ++ [entry + 1] := by
  have hstuck {node : NodeId} {x : Edge} (hx : x ∈ (ofGrammar g).edgesOf node) {rule : RuleId}
      (hstop : t.network.stopOf? node = some rule) : False := by
    rw [(closed_ofGrammar hwf).stop node rule (hnetwork ▸ hstop)] at hx
    exact nomatch hx
  induction hrun with
  | refl => exact .inl rfl
  | tail _ move ih =>
    rcases ih with rfl | rfl | rfl | ⟨stack, hstack⟩
    · have hedge {x : Edge} (hx : x ∈ t.network.edgesOf entry) : x = .call target (entry + 1) :=
        (hlies.call x).mp (hnetwork ▸ hx)
      cases move with
      | silent he | action he | symbol he _ | predicate he _ => exact nomatch hedge he
      | call he =>
        obtain ⟨_, rfl⟩ := Edge.call.inj (hedge he)
        exact .inr (.inr (.inr ⟨[], rfl⟩))
      | onward hstop _ => exact (hstuck ((hlies.call _).mpr rfl) hstop).elim
    · have hedge {x : Edge} (hx : x ∈ t.network.edgesOf (entry + 1)) : x = .silent (stop id) :=
        (hlies.behind x).mp (hnetwork ▸ hx)
      cases move with
      | silent he =>
        obtain rfl := Edge.silent.inj (hedge he)
        exact .inr (.inr (.inl rfl))
      | action he | symbol he _ | predicate he _ | call he => exact nomatch hedge he
      | onward hstop _ => exact (hstuck ((hlies.behind _).mpr rfl) hstop).elim
    · have hedges := (h.isBottom hwf).edges
      cases move with
      | silent he | action he | symbol he _ | predicate he _ | call he =>
        rw [hnetwork, hedges] at he
        exact nomatch he
      | onward hstop hf =>
        rw [hnetwork] at hstop hf
        rw [(h.isBottom hwf).follows _ (stopOf?_eq_some.mp hstop).2] at hf
        exact nomatch hf
    · cases move with
      | silent | action | symbol | predicate => exact .inr (.inr (.inr ⟨stack, hstack⟩))
      | call => exact .inr (.inr (.inr ⟨_ :: stack, congrArg (_ :: ·) hstack⟩))
      | back =>
        cases stack with
        | nil =>
          obtain ⟨rfl, rfl⟩ := List.cons.inj hstack
          exact .inr (.inl rfl)
        | cons _ stack => exact .inr (.inr (.inr ⟨stack, (List.cons.inj hstack).2⟩))
      | onward => exact absurd hstack (by simp)

/-- Runs of two alternatives of the choice do not meet where a symbol is read. -/
theorem Grammar.Chooses.eq_of_meet {alt alt' : Ordinal} (hmeet : Meet t d alt alt') : alt = alt' := by
  obtain ⟨next, hlies⟩ := h.exists_lies hwf
  obtain ⟨ps, qs, q, hrun, hrun', hmatches⟩ := hmeet
  have hcall {alt : Ordinal} {ps : List Passage} (hrun : LookaheadRun t d alt ps q) :
      ∃ i stack, alt = i + 1 ∧ q.stack = stack ++ [next + 2 * i + 1] := by
    obtain ⟨entry, hpos, hentry, hrun⟩ := hrun
    rw [hnetwork] at hentry
    have hlt := (List.getElem?_eq_some_iff.mp hentry).1
    rw [h.length_entriesOf hwf] at hlt
    obtain ⟨hentry', hlies⟩ := hlies _ _ (List.getElem?_eq_getElem hlt)
    obtain rfl := Option.some.inj (hentry'.symm.trans hentry)
    have hsilent {node : NodeId} (hnode : ∀ x ∈ (ofGrammar g).edgesOf node, x.matchesInput = false) :
        t.network.matchesInput node ≠ true := by
      rw [hnetwork, matchesInput, ne_eq, List.any_eq_true]
      rintro ⟨x, hx, hxm⟩
      rw [hnode x hx] at hxm
      exact nomatch hxm
    rcases Run.in_call h hwf hnetwork hlies hrun with rfl | rfl | rfl | ⟨stack, hstack⟩
    · exact absurd hmatches (hsilent fun x hx => by rw [(hlies.call x).mp hx]; rfl)
    · exact absurd hmatches (hsilent fun x hx => by rw [(hlies.behind x).mp hx]; rfl)
    · refine absurd hmatches (hsilent fun x hx => ?_)
      rw [(h.isBottom hwf).edges] at hx
      exact nomatch hx
    · exact ⟨alt - 1, stack, (Nat.sub_add_cancel hpos).symm, hstack⟩
  obtain ⟨i, stack, rfl, hstack⟩ := hcall hrun
  obtain ⟨j, stack', rfl, hstack'⟩ := hcall hrun'
  have hfollow : [next + 2 * i + 1] = [next + 2 * j + 1] :=
    (List.append_inj' (hstack.symm.trans hstack') rfl).2
  simp only [List.cons.injEq] at hfollow
  lia

/-- What an alternative of the choice reads on, the rule that it calls offers. -/
theorem Grammar.Chooses.offers_of_readsOn {i : Nat} {target : RuleId}
    (htarget : targets[i]? = some target) {w : List Symbol} (hreads : ReadsOn t d (i + 1) w) : g.Offers [.call target] w := by
  obtain ⟨next, hlies⟩ := h.exists_lies hwf
  obtain ⟨hentry, hlies⟩ := hlies i target htarget
  obtain ⟨ps, q, ⟨entry, _, hentry', hrun⟩, hlive, hw⟩ := hreads
  rw [hnetwork] at hentry'
  obtain rfl := Option.some.inj (hentry.symm.trans hentry')
  have hwaiting : Waiting g (stop id) (next + 2 * i) [] [.sequence [.call target]] :=
    .singleton (p := .sequence _) hlies.spans
  exact ReadsFrom.offers hwf (h.isBottom hwf) hnetwork ⟨ps, q, hrun, hlive, hw⟩
    ⟨_, hwaiting, .sequence .nil⟩

omit hwf

/-- Where the choice ends, the input may. -/
theorem Grammar.Chooses.live_stop : (⟨stop id, []⟩ : Position).Live t := by
  refine .inr ⟨id, ?_, ?_, rfl⟩
  · rw [hnetwork]
    have hmem : GrammarDefinition.tokensRule id d targets ∈ g.rules := List.mem_of_getElem? h.rule
    have haccepts : accepts g (GrammarDefinition.tokensRule id d targets) = true := by
      simp [accepts, GrammarDefinition.tokensRule, h.tokensRule?]
    exact List.mem_map_of_mem (f := (·.id)) (List.mem_filter.mpr ⟨hmem, haccepts⟩)
  · rw [hnetwork]
    exact stopOf?_eq_some.mpr ⟨h.lt_length, rfl⟩

theorem Grammar.Chooses.along_behind {entry : NodeId} {target : RuleId}
    (hlies : Chooses.Lies g id entry target) : Along g t ⟨entry + 1, []⟩ [] :=
  .step (run_silent hnetwork ((hlies.behind _).mpr rfl)) rfl (.live (h.live_stop hnetwork))

include hwf

/-- What a called rule may read, the alternative that calls it reads on. -/
theorem Grammar.Chooses.readsOn_of_admits (hopen : ∀ id, t.gateValue id ≠ some false) {i : Nat}
    {target : RuleId} (htarget : targets[i]? = some target) {fs : List Event}
    (hfs : g.Admits [.call target] fs) : ReadsOn t d (i + 1) (Event.symbols fs) := by
  obtain ⟨next, hlies⟩ := h.exists_lies hwf
  obtain ⟨hentry, hlies⟩ := hlies i target htarget
  obtain ⟨_, hplaced⟩ := hlies.spans
  have hlays : LaysAll g (next + 2 * i) (stop id) [.call target] := ⟨_, hplaced.contains⟩
  have halong : Along g t ⟨next + 2 * i, []⟩ ([.call target] ++ []) :=
    .sequence hnetwork hlays (.live (h.live_stop hnetwork))
  obtain ⟨ps, q, hrun, hlive, hw⟩ := hfs.readsFrom hnetwork hwf hopen halong
  exact ⟨ps, q, ⟨_, Nat.succ_pos i, by rw [hnetwork]; exact hentry, hrun⟩, hlive, hw⟩

/-- Where the chosen rule stops, the run comes to the end of the choice. -/
theorem Grammar.Chooses.along_stop {i : Nat} {target : RuleId} (htarget : targets[i]? = some target) :
    Along g t ⟨stop target, []⟩ [] := by
  obtain ⟨next, hlies⟩ := h.exists_lies hwf
  obtain ⟨_, hlies⟩ := hlies i target htarget
  exact .step (run_onward hnetwork hwf ((hlies.call _).mpr rfl)) rfl (h.along_behind hnetwork hlies)

end
end Lookahead
