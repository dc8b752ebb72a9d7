import Lookahead.Proofs.Construction.Exactness
import Mathlib.Data.List.Forall2

/-! What an analysis contains.

An analysis that does not fail has an automaton for each decision, at the number of the
decision: the one that its construction comes to. What is reported are the ambiguities that
the constructions have noted. -/
namespace Lookahead
open Construction

namespace Analyzer
variable {a : Analyzer}

/-- The automaton comes from a construction that has not failed and that reports nothing but
what is in `reports`. -/
def Constructed (a : Analyzer) (reports : List Report) (d : Decision) (automaton : Automaton) :
    Prop :=
  ∃ site, outcome (a.plan a.terrain d) = (.ok (), site) ∧ automaton = a.automatonOf d site ∧
    ∀ x ∈ site.ambiguities, ambiguity d x ∈ reports

theorem Constructed.mono {reports later : List Report} {d : Decision} {automaton : Automaton}
    (h : a.Constructed reports d automaton) (hle : ∀ r ∈ reports, r ∈ later) :
    a.Constructed later d automaton := by
  obtain ⟨site, hsite, hautomaton, hreports⟩ := h
  exact ⟨site, hsite, hautomaton, fun x hx => hle _ (hreports x hx)⟩

/-- An analysis of some decisions takes the first one first. -/
theorem analyzeAll_cons {d : Decision} {ds : List Decision} {automata : List Automaton}
    {reports : List Report} (h : a.analyzeAll a.terrain (d :: ds) = (.ok automata, reports)) :
    ∃ site rest later, outcome (a.plan a.terrain d) = (.ok (), site) ∧
      a.analyzeAll a.terrain ds = (.ok rest, later) ∧ automata = a.automatonOf d site :: rest ∧
      reports = site.ambiguities.map (ambiguity d) ++ later := by
  rw [analyzeAll, Construction.run] at h
  rcases hsite : outcome (a.plan a.terrain d) with ⟨_ | _, site⟩
  · rw [hsite] at h
    exact nomatch (Prod.mk.inj h).1
  · rw [hsite] at h
    rcases hlater : a.analyzeAll a.terrain ds with ⟨_ | rest, later⟩
    · rw [hlater] at h
      exact nomatch (Prod.mk.inj h).1
    · rw [hlater] at h
      obtain ⟨hautomata, hreports⟩ := Prod.mk.inj h
      exact ⟨site, rest, later, rfl, rfl, (Except.ok.inj hautomata).symm, hreports.symm⟩

theorem constructed_of_analyzeAll {ds : List Decision} {automata : List Automaton}
    {reports : List Report} (h : a.analyzeAll a.terrain ds = (.ok automata, reports)) :
    List.Forall₂ (a.Constructed reports) ds automata := by
  induction ds generalizing automata reports with
  | nil =>
    obtain ⟨hautomata, _⟩ := Prod.mk.inj h
    obtain rfl := Except.ok.inj hautomata
    exact .nil
  | cons d ds ih =>
    obtain ⟨site, rest, later, hsite, hlater, rfl, rfl⟩ := analyzeAll_cons h
    refine .cons ⟨site, hsite, rfl, fun x hx => ?_⟩ ?_
    · exact List.mem_append_left _ (List.mem_map_of_mem hx)
    · exact (ih hlater).imp fun _ _ h => h.mono fun r hr => List.mem_append_right _ hr

/-- The analysis of a grammar that has one. -/
def analysis (a : Analyzer) : Analysis :=
  a.analyze.1.toOption.getD ⟨a.grammar, [], []⟩

theorem analyze_eq_analysis (h : a.analyze.1.isOk = true) :
    a.analyze = (.ok a.analysis, a.analyze.2) := by
  unfold analysis
  rcases ha : a.analyze with ⟨_ | analysis, reports⟩
  · rw [ha] at h
    exact nomatch h
  · rfl

variable {analysis : Analysis} {reports : List Report}

theorem analyze_eq_ok (h : a.analyze = (.ok analysis, reports)) :
    a.analyzeAll a.terrain a.grammar.decisions = (.ok analysis.automata, reports) ∧
      analysis.grammar = a.grammar ∧ analysis.staticValues = a.staticValues := by
  rw [analyze] at h
  rcases hall : a.analyzeAll a.terrain a.grammar.decisions with ⟨_ | automata, reports'⟩
  · rw [hall] at h
    exact nomatch (Prod.mk.inj h).1
  · rw [hall] at h
    obtain ⟨hanalysis, rfl⟩ := Prod.mk.inj h
    obtain rfl := Except.ok.inj hanalysis
    exact ⟨rfl, rfl, rfl⟩

/-- Each decision of an analysed grammar has its automaton. -/
theorem exists_automaton? (h : a.analyze = (.ok analysis, reports)) {id : DecisionId}
    {d : Decision} (hd : a.grammar.decisions[id]? = some d) :
    ∃ site, outcome (a.plan a.terrain d) = (.ok (), site) ∧
      analysis.automaton? id = some (a.automatonOf d site) ∧
      ∀ x ∈ site.ambiguities, ambiguity d x ∈ reports := by
  have hall := constructed_of_analyzeAll (analyze_eq_ok h).1
  obtain ⟨hlt, hget⟩ := List.getElem?_eq_some_iff.mp hd
  have hlt' : id < analysis.automata.length := hall.length_eq ▸ hlt
  obtain ⟨site, hsite, hautomaton, hreports⟩ := hall.get hlt hlt'
  rw [List.get_eq_getElem, List.get_eq_getElem, hget] at hautomaton
  rw [List.get_eq_getElem, hget] at hsite hreports
  exact ⟨site, hsite, by rw [Analysis.automaton?, List.getElem?_eq_getElem hlt', hautomaton], hreports⟩

theorem exists_decision (h : a.analyze = (.ok analysis, reports)) {id : DecisionId}
    {automaton : Automaton} (hautomaton : analysis.automaton? id = some automaton) :
    ∃ d, a.grammar.decisions[id]? = some d := by
  have hlength := (constructed_of_analyzeAll (analyze_eq_ok h).1).length_eq
  have hlt : id < a.grammar.decisions.length := by
    rw [hlength]
    exact (List.getElem?_eq_some_iff.mp hautomaton).1
  exact ⟨_, List.getElem?_eq_getElem hlt⟩

/-- The automata of an analysis are built ones. -/
theorem exists_of_automaton? (h : a.analyze = (.ok analysis, reports)) {id : DecisionId}
    {automaton : Automaton} (hautomaton : analysis.automaton? id = some automaton) :
    ∃ d site, outcome (a.plan a.terrain d) = (.ok (), site) ∧ automaton = a.automatonOf d site := by
  obtain ⟨d, hd⟩ := exists_decision h hautomaton
  obtain ⟨site, hsite, heq, _⟩ := exists_automaton? h hd
  exact ⟨d, site, hsite, Option.some.inj (hautomaton.symm.trans heq)⟩

end Analyzer
end Lookahead
