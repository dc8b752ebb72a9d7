import Lookahead.Analysis.Basic
import Lookahead.Proofs.Construction.Walk
import Lookahead.Proofs.Grammar.Definition

/-! The automata of an analysed grammar are exact.

A word leads through the automaton of a decision as long as some lookahead run reads it, and
the configurations of the state that it leads to are the live ends of these runs. The guards
of an alternative hold there exactly where one of its runs is open. -/
namespace Lookahead
open Construction

/-- What the closure relies on holds in grammars that have been built. -/
theorem Analyzer.sound_terrain {d : GrammarDefinition} {a : Analyzer}
    (h : d.build = .ok a.grammar) : a.terrain.Sound := by
  have hwf := d.wellFormed_of_build h
  exact ⟨Network.closed_ofGrammar hwf, fun _ _ hp => hwf.predicate_id hp⟩

/-- The automaton that has been built for a decision. -/
def Analyzer.automatonOf (a : Analyzer) (d : Decision) (site : Site) : Automaton :=
  site.automaton (a.plan a.terrain d)

/-- Subset construction is exact: where no shorter word decides, a word leads to a state
exactly if it is empty or a live run reads it, and the configurations of the state are the
alternatives, nodes and stacks to which live runs come. -/
theorem walk_exact {definition : GrammarDefinition} {a : Analyzer}
    (hgrammar : definition.build = .ok a.grammar) {d : Decision} {site : Site}
    (hsite : outcome (a.plan a.terrain d) = (.ok (), site)) {w : List Symbol}
    (hundecided : ∀ u v id, w = u ++ v → v ≠ [] →
      (a.automatonOf d site).walk Automaton.start u = some id →
        ((a.automatonOf d site).state id).terminal = none) :
    (((a.automatonOf d site).walk Automaton.start w).isSome ↔
      w = [] ∨ ∃ alt ps q, LookaheadRun a.terrain d.id alt ps q ∧ Passage.symbols ps = w ∧
        q.Live a.terrain) ∧
    ∀ id, (a.automatonOf d site).walk Automaton.start w = some id →
      ∃ configs state, site.states[id]? = some (configs, state) ∧
        ∀ alt node stack,
          (∃ c ∈ configs, c.alt = alt ∧ c.node = node ∧ c.stack = stack) ↔
            (⟨node, stack⟩ : Position).Live a.terrain ∧
              ∃ ps, LookaheadRun a.terrain d.id alt ps ⟨node, stack⟩ ∧ Passage.symbols ps = w := by
  have sound := Analyzer.sound_terrain hgrammar
  constructor
  · constructor
    · intro h
      obtain ⟨id, hid⟩ := Option.isSome_iff_exists.mp h
      obtain ⟨configs, _, hne, hw⟩ := represents_of_walk sound hsite hid
      refine hne.imp_right fun hne => ?_
      obtain ⟨c, hc⟩ := List.exists_mem_of_ne_nil configs hne
      obtain ⟨hlive, ps, hrun, hsymbols⟩ := hw.exists_run hc
      exact ⟨c.alt, ps, c.position, hrun, hsymbols, hlive⟩
    · rintro (rfl | ⟨alt, ps, q, hrun, hsymbols, hlive⟩)
      · rfl
      · exact isSome_walk_of_run sound hsite hundecided hlive hrun hsymbols
  · intro id hid
    obtain ⟨configs, hknown, _, hw⟩ := represents_of_walk sound hsite hid
    obtain ⟨state, hstate⟩ := getElem?_of_known hknown
    refine ⟨configs, state, hstate, fun alt node stack => ?_⟩
    refine Iff.trans ?_ (hw.place alt ⟨node, stack⟩)
    rw [List.mem_map]
    refine exists_congr fun c => and_congr_right fun _ => ?_
    simp [Configuration.place, Configuration.position]

/-! ### A grammar on which the runs go on without end -/

theorem Construction.outcome_eq_ok {p : Plan} (h : (outcome p).1.isOk = true) :
    outcome p = (.ok (), (outcome p).2) := by
  rcases ho : outcome p with ⟨_ | _, site⟩
  · rw [ho] at h
    exact nomatch h
  · rfl

/-- Two alternatives that differ only after any number of `A`. One of them has a gate, the
other one a predicate. -/
def twoWays : GrammarDefinition where
  name := "TwoWays"
  kind := .parser
  rules := [⟨"s", .choice [
    .seq [.predicate "fast" .gated none, .repeated .star (.ref "A"), .ref "B"],
    .seq [.predicate "slow" .validating none, .repeated .star (.ref "A"), .ref "C"]], false⟩]
  tokens := []

def twoWaysAnalyzer : Analyzer := ⟨twoWays.grammar, .standard, none⟩

def twoWaysDecision : Decision := ⟨0, 0, .block, 2⟩

def twoWaysSite : Site :=
  (outcome (twoWaysAnalyzer.plan twoWaysAnalyzer.terrain twoWaysDecision)).2

theorem twoWays_builds : twoWays.build = .ok twoWaysAnalyzer.grammar :=
  GrammarDefinition.build_eq_ok (by decide +kernel)

theorem twoWays_outcome :
    outcome (twoWaysAnalyzer.plan twoWaysAnalyzer.terrain twoWaysDecision) =
      (.ok (), twoWaysSite) :=
  outcome_eq_ok (by decide +kernel)

theorem undecided_of_take {a : Automaton} {w : List Symbol}
    (h : ∀ n < w.length, ((a.walk Automaton.start (w.take n)).all
      fun id => (a.state id).terminal.isNone) = true) (u v : List Symbol) (id : StateId)
    (hw : w = u ++ v) (hv : v ≠ []) (hu : a.walk Automaton.start u = some id) :
    (a.state id).terminal = none := by
  have hlt : u.length < w.length := by
    rw [hw, List.length_append]
    exact Nat.lt_add_of_pos_right (List.length_pos_iff.mpr hv)
  have hn := h u.length hlt
  rw [hw, List.take_left, hu] at hn
  exact Option.isNone_iff_eq_none.mp hn

/-- `A A B` is read by a live run, and the state that it leads to decides. -/
theorem walk_exact_twoWays :
    (twoWaysAnalyzer.automatonOf twoWaysDecision twoWaysSite).walk Automaton.start [4, 4, 5] =
      some 1 ∧
    ∃ alt ps q, LookaheadRun twoWaysAnalyzer.terrain 0 alt ps q ∧
      Passage.symbols ps = [4, 4, 5] ∧ q.Live twoWaysAnalyzer.terrain := by
  have hwalk : (twoWaysAnalyzer.automatonOf twoWaysDecision twoWaysSite).walk Automaton.start
      [4, 4, 5] = some 1 := by decide +kernel
  have hexact := walk_exact twoWays_builds twoWays_outcome (w := [4, 4, 5])
    (undecided_of_take (by decide +kernel))
  refine ⟨hwalk, (hexact.1.mp ?_).resolve_left nofun⟩
  rw [hwalk]
  rfl

/-- Hoisted guards are exact: in the state that a word leads to, one of the conditions of an
alternative holds exactly if a run of the alternative reads the word, ends at one of its
configurations and passes before the first symbol only predicates that are true, gates
whose value is known beforehand aside. For the gates, only gates count. -/
theorem guards_exact {definition : GrammarDefinition} {a : Analyzer}
    (hgrammar : definition.build = .ok a.grammar) {d : Decision} {site : Site}
    (hsite : outcome (a.plan a.terrain d) = (.ok (), site)) {w : List Symbol} {id : StateId}
    (hwalk : (a.automatonOf d site).walk Automaton.start w = some id) :
    ∃ configs state, site.states[id]? = some (configs, state) ∧ ∀ alt v,
      ((guardTo (configs.map fun c => (c.alt, c.conditions.context)) alt).under v = true ↔
        ∃ c ∈ configs, c.alt = alt ∧ ∃ ps,
          LookaheadRun a.terrain d.id alt ps ⟨c.node, c.stack⟩ ∧ Passage.symbols ps = w ∧
          ∀ q ∈ Passage.leading ps, a.terrain.gateValue q = none → v q = true) ∧
      ((guardTo (configs.map fun c => (c.alt, c.conditions.gate)) alt).under v = true ↔
        ∃ c ∈ configs, c.alt = alt ∧ ∃ ps,
          LookaheadRun a.terrain d.id alt ps ⟨c.node, c.stack⟩ ∧ Passage.symbols ps = w ∧
          ∀ q ∈ Passage.leading ps, a.terrain.isGated q = true → a.terrain.gateValue q = none →
            v q = true) := by
  have sound := Analyzer.sound_terrain hgrammar
  obtain ⟨configs, hknown, _, hw⟩ := represents_of_walk sound hsite hwalk
  obtain ⟨state, hstate⟩ := getElem?_of_known hknown
  refine ⟨configs, state, hstate, fun alt v => ?_⟩
  have hguard (aspect : Aspect) :
      (guardTo (configs.map fun c => (c.alt, c.conditions.guard aspect)) alt).under v = true ↔
        ∃ c ∈ configs, c.alt = alt ∧ ∃ ps, LookaheadRun a.terrain d.id alt ps c.position ∧
          Passage.symbols ps = w ∧ Passage.Open a.terrain (aspect.counts a.terrain) v ps := by
    rw [under_guardTo]
    constructor
    · rintro ⟨g, hg, hv⟩
      obtain ⟨c, hc, hcg⟩ := List.mem_map.mp hg
      obtain ⟨rfl, rfl⟩ := Prod.mk.inj hcg
      exact ⟨c, hc, rfl, (hw.guard c hc aspect v).mp hv⟩
    · rintro ⟨c, hc, rfl, hrun⟩
      exact ⟨_, List.mem_map.mpr ⟨c, hc, rfl⟩, (hw.guard c hc aspect v).mpr hrun⟩
  constructor
  · refine (hguard .context).trans ?_
    simp [Passage.Open, Aspect.counts, Configuration.position]
  · refine (hguard .gate).trans ?_
    simp only [Passage.Open, Aspect.counts, Configuration.position]
    grind

/-- After `A A` the gate of the first alternative still holds exactly where its run does. -/
theorem guards_exact_twoWays :
    ∃ configs state, twoWaysSite.states[0]? = some (configs, state) ∧
      ∀ v, (guardTo (configs.map fun c => (c.alt, c.conditions.gate)) 1).under v = true ↔
        ∃ c ∈ configs, c.alt = 1 ∧ ∃ ps,
          LookaheadRun twoWaysAnalyzer.terrain 0 1 ps ⟨c.node, c.stack⟩ ∧
          Passage.symbols ps = [4, 4] ∧
          ∀ q ∈ Passage.leading ps, twoWaysAnalyzer.terrain.isGated q = true →
            twoWaysAnalyzer.terrain.gateValue q = none → v q = true := by
  have hwalk : (twoWaysAnalyzer.automatonOf twoWaysDecision twoWaysSite).walk Automaton.start
      [4, 4] = some 0 := by decide +kernel
  obtain ⟨configs, state, hstate, hguards⟩ := guards_exact twoWays_builds twoWays_outcome hwalk
  exact ⟨configs, state, hstate, fun v => (hguards 1 v).2⟩

end Lookahead
