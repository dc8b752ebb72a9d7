import Lookahead.Proofs.Analysis
import Lookahead.Proofs.Construction.WellFormed

/-! What an analysis reports.

The reports on a decision are the ambiguities that its construction has noted, and no other
decision adds to them (`reportsOn_eq`). A construction notes exactly the ambiguities that its
states come to hold, so the reports are a summary of the automata: nothing is reported twice,
and nothing that is stored goes unreported. -/
namespace Lookahead
open Construction

/-- What a report says of a decision: the alternative that is taken, and the candidates. -/
def Report.on? (id : DecisionId) : Report → Option (Ordinal × List Ordinal)
  | .ambiguity decision chosen candidates =>
    if decision = id then some (chosen, candidates) else none
  | .failure .. => none

/-- What is reported of a decision, in the order of the reports. -/
def reportsOn (id : DecisionId) (reports : List Report) : List (Ordinal × List Ordinal) :=
  reports.filterMap (Report.on? id)

/-- The reports say which ambiguities the states of an automaton hold. -/
structure Automaton.Reported (a : Automaton) (reported : List (Ordinal × List Ordinal)) : Prop where
  once : (reported.map (·.2)).Nodup
  exact : ∀ alternatives,
    alternatives ∈ reported.map (·.2) ↔ ∃ s ∈ a.states, s.Ambiguous alternatives
  lowest : ∀ chosen alternatives, (chosen, alternatives) ∈ reported →
    chosen ∈ alternatives ∧ ∀ alt ∈ alternatives, chosen ≤ alt
  /-- The alternative that is reported is the one that the automaton takes. -/
  taken : ∀ s ∈ a.states, ∀ chosen alternatives,
    s.accept = some (.ambiguous chosen alternatives) ∨
      s.terminal = some (.ambiguous chosen alternatives) → (chosen, alternatives) ∈ reported

/-- Lists of alternatives that ascend, each with the one that is taken. -/
def withLowest (noted : List (List Ordinal)) : List (Ordinal × List Ordinal) :=
  noted.map fun alternatives => (alternatives.headD 0, alternatives)

theorem map_snd_withLowest (noted : List (List Ordinal)) : (withLowest noted).map (·.2) = noted := by
  rw [withLowest, List.map_map]
  exact List.map_id' noted

namespace Analyzer
variable {a : Analyzer} {d : Decision}

/-- What the construction for a decision leaves behind. -/
def site (a : Analyzer) (d : Decision) : Site := (outcome (a.plan a.terrain d)).2

theorem reports_of_analyzeAll {ds : List Decision} {automata : List Automaton}
    {reports : List Report} (h : a.analyzeAll a.terrain ds = (.ok automata, reports)) :
    reports = ds.flatMap fun d => (a.site d).ambiguities.map (ambiguity d) := by
  induction ds generalizing automata reports with
  | nil => exact (Prod.mk.inj h).2.symm
  | cons d ds ih =>
    obtain ⟨site, rest, later, hsite, hlater, _, rfl⟩ := analyzeAll_cons h
    rw [List.flatMap_cons, ← ih hlater, Analyzer.site, hsite]

theorem reportsOn_ambiguity (id : DecisionId) (noted : List (List Ordinal)) :
    reportsOn id (noted.map (ambiguity d)) =
      if d.id = id then withLowest noted else [] := by
  rw [reportsOn, List.filterMap_map]
  split
  · next hid => simp [Function.comp_def, ambiguity, Report.on?, withLowest, hid]
  · next hid => simp [Function.comp_def, ambiguity, Report.on?, hid]

/-- Of the reports on all decisions, those on one of them. -/
theorem reportsOn_flatMap {ds : List Decision} (hnodup : (ds.map (·.id)).Nodup) (hd : d ∈ ds)
    (noted : Decision → List (List Ordinal)) :
    reportsOn d.id (ds.flatMap fun d => (noted d).map (ambiguity d)) =
      withLowest (noted d) := by
  have hflatMap (es : List Decision) :
      reportsOn d.id (es.flatMap fun e => (noted e).map (ambiguity e)) =
        es.flatMap fun e => reportsOn d.id ((noted e).map (ambiguity e)) :=
    List.filterMap_flatMap
  have hothers {es : List Decision} (hes : ∀ e ∈ es, e.id ≠ d.id) :
      es.flatMap (fun e => reportsOn d.id ((noted e).map (ambiguity e))) = [] :=
    List.flatMap_eq_nil_iff.mpr fun e he => by rw [reportsOn_ambiguity, if_neg (hes e he)]
  obtain ⟨before, later, rfl⟩ := List.append_of_mem hd
  rw [List.map_append, List.map_cons, List.nodup_middle, List.nodup_cons, List.mem_append,
    not_or] at hnodup
  obtain ⟨⟨hbefore, hlater⟩, _⟩ := hnodup
  rw [hflatMap, List.flatMap_append, List.flatMap_cons, reportsOn_ambiguity, if_pos rfl,
    hothers fun e he heq => hbefore (heq ▸ List.mem_map_of_mem he),
    hothers fun e he heq => hlater (heq ▸ List.mem_map_of_mem he), List.nil_append,
    List.append_nil]

end Analyzer

/-- The alternatives of a well-formed ambiguity ascend from the one that is taken. -/
theorem Resolution.WellFormed.lowest {count : Nat} {exit? : Option Ordinal} {chosen : Ordinal}
    {alternatives : List Ordinal} (h : WellFormed count exit? (.ambiguous chosen alternatives)) :
    alternatives.headD 0 = chosen ∧ chosen ∈ alternatives ∧
      ∀ alt ∈ alternatives, chosen ≤ alt := by
  cases h with
  | ambiguous _ alts =>
    refine ⟨rfl, .head _, List.forall_mem_cons.mpr ⟨Nat.le_refl _, fun alt halt => ?_⟩⟩
    exact Nat.le_of_lt (List.rel_of_pairwise_cons alts.1 halt)

namespace Construction
variable {p : Plan} {site : Site} {alternatives : List Ordinal}

theorem Site.ambiguous_iff (site : Site) (p : Plan) :
    site.Ambiguous alternatives ↔ ∃ s ∈ (site.automaton p).states, s.Ambiguous alternatives := by
  constructor
  · rintro ⟨id, s, hs, hambiguous⟩
    exact ⟨s.2, List.mem_map_of_mem (List.mem_of_getElem? hs), hambiguous⟩
  · rintro ⟨_, hs, hambiguous⟩
    obtain ⟨s, hmem, rfl⟩ := List.mem_map.mp hs
    obtain ⟨id, hid⟩ := List.getElem?_of_mem hmem
    exact ⟨id, s, hid, hambiguous⟩

/-- The ambiguities that a construction has noted are those that its automaton holds. -/
theorem reported_automaton (sound : p.terrain.Sound) (h : outcome p = (.ok (), site)) :
    (site.automaton p).Reported (withLowest site.ambiguities) := by
  obtain ⟨hbuilt, _⟩ := built_of_outcome h
  have hnoted (alternatives : List Ordinal) : alternatives ∈ site.ambiguities ↔
      ∃ s ∈ (site.automaton p).states, s.Ambiguous alternatives :=
    (hbuilt.ambiguities alternatives).trans (site.ambiguous_iff p)
  have hlowest {s : State} (hs : s ∈ (site.automaton p).states) {chosen : Ordinal}
      {alternatives : List Ordinal} (hr : s.accept = some (.ambiguous chosen alternatives) ∨
        s.terminal = some (.ambiguous chosen alternatives)) :=
    ((wellFormed_of_mem_states sound h hs).resolutions _ hr.symm).lowest
  constructor
  case once => exact (map_snd_withLowest _).symm ▸ hbuilt.ambiguitiesNodup
  case exact => exact (map_snd_withLowest _).symm ▸ hnoted
  case lowest =>
    intro chosen alternatives hmem
    obtain ⟨_, hnote, heq⟩ := List.mem_map.mp hmem
    obtain ⟨rfl, rfl⟩ := Prod.mk.inj heq
    obtain ⟨s, hs, chosen, hr⟩ := (hnoted _).mp hnote
    obtain ⟨hhead, hlow⟩ := hlowest hs hr
    exact hhead ▸ hlow
  case taken =>
    intro s hs chosen alternatives hr
    refine List.mem_map.mpr ⟨alternatives, (hnoted _).mpr ⟨s, hs, chosen, hr⟩, ?_⟩
    rw [(hlowest hs hr).1]

end Construction

/-- **The reports are the ambiguities of the automata.** A decision on which nothing is reported
has no state that holds an ambiguity. -/
theorem Analyzer.reported_analyze {definition : GrammarDefinition} {a : Analyzer}
    {analysis : Analysis} {reports : List Report} (hgrammar : definition.build = .ok a.grammar)
    (h : a.analyze = (.ok analysis, reports)) {d : Decision} (hd : d ∈ a.grammar.decisions) :
    ∃ automaton, analysis.automaton? d.id = some automaton ∧
      automaton.Reported (reportsOn d.id reports) ∧
      (reportsOn d.id reports = [] →
        ∀ s ∈ automaton.states, ∀ alternatives, ¬ s.Ambiguous alternatives) := by
  have hwf := definition.wellFormed_of_build hgrammar
  obtain ⟨id, hid⟩ := List.getElem?_of_mem hd
  obtain ⟨site, hsite, hautomaton, _⟩ := exists_automaton? h hid
  obtain rfl := hwf.decision_id hid
  have hreports : reportsOn d.id reports = withLowest site.ambiguities := by
    have hnodup : (a.grammar.decisions.map (·.id)).Nodup := hwf.decisionIds ▸ List.nodup_range
    rw [reports_of_analyzeAll (analyze_eq_ok h).1, reportsOn_flatMap hnodup hd, Analyzer.site,
      hsite]
  have hreported := reported_automaton (sound_terrain hgrammar) hsite
  rw [← hreports] at hreported
  refine ⟨_, hautomaton, hreported, fun hnone s hs alternatives hambiguous => ?_⟩
  have hmem := (hreported.exact alternatives).mpr ⟨s, hs, hambiguous⟩
  rw [hnone] at hmem
  exact nomatch hmem

/-! ### Two alternatives that are alike, beside a longer one -/

/-- After `A` two alternatives conflict, and after `B` they do where the input may end. -/
def clashes : GrammarDefinition where
  name := "Clashes"
  kind := .parser
  rules := [⟨"s", .choice [.choice [.ref "A", .ref "B"], .choice [.ref "A", .ref "B"],
    .seq [.ref "B", .ref "A"]], false⟩]
  tokens := []

def clashesAnalyzer : Analyzer := ⟨clashes.grammar, .standard, none⟩

/-- One ambiguity that two states hold is reported once, and nothing is reported on the choices
inside. -/
theorem Analyzer.reported_analyze_clashes :
    clashes.build = .ok clashesAnalyzer.grammar ∧ clashesAnalyzer.analyze.1.isOk = true ∧
      (∃ automaton, clashesAnalyzer.analysis.automaton? 0 = some automaton ∧
        automaton.Reported [(1, [1, 2])]) ∧
      ∃ automaton, clashesAnalyzer.analysis.automaton? 1 = some automaton ∧
        ∀ s ∈ automaton.states, ∀ alternatives, ¬ s.Ambiguous alternatives := by
  have hbuild : clashes.build = .ok clashesAnalyzer.grammar :=
    GrammarDefinition.build_eq_ok (by decide +kernel)
  have hok : clashesAnalyzer.analyze.1.isOk = true := by decide +kernel
  have houter : (⟨0, 0, .block, 3⟩ : Decision) ∈ clashesAnalyzer.grammar.decisions := by
    decide +kernel
  have hinner : (⟨1, 0, .block, 2⟩ : Decision) ∈ clashesAnalyzer.grammar.decisions := by
    decide +kernel
  have hreports : reportsOn 0 clashesAnalyzer.analyze.2 = [(1, [1, 2])] ∧
      reportsOn 1 clashesAnalyzer.analyze.2 = [] := by decide +kernel
  obtain ⟨outer, houter, hreported, _⟩ :=
    reported_analyze hbuild (analyze_eq_analysis hok) houter
  obtain ⟨inner, hinner, _, hsilent⟩ := reported_analyze hbuild (analyze_eq_analysis hok) hinner
  exact ⟨hbuild, hok, ⟨outer, houter, hreports.1 ▸ hreported⟩, inner, hinner, hsilent hreports.2⟩

end Lookahead
