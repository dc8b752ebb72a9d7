import Lookahead.Proofs.Analysis
import Lookahead.Proofs.Closure.Recursion
import Lookahead.Proofs.Construction.Limits

/-! Recursion that reads nothing is rejected.

The closure of the entries comes first, before any state is added. Where it fails, the
construction reports which recursion went too deep, however many states it may have, and
the first decision without an automaton ends the analysis. -/
namespace Lookahead
open Construction

namespace Construction
variable {p : Plan}

/-- A construction fails with the closure of the entries. -/
theorem run_eq_recursionOverflow {callee : RuleId}
    (h : Closure.ofEntries p.terrain (p.terrain.network.entriesOf p.decision.id) = .error callee) :
    run p = (.error (.recursionOverflow p.ruleName p.decision.id (p.ruleNames[callee]?.getD "")
      p.terrain.maxRecursionDepth), []) := by
  have hends : Ends (buildStates p) ⟨[], []⟩ (.error (.recursionOverflow p.ruleName p.decision.id
      (p.ruleNames[callee]?.getD "") p.terrain.maxRecursionDepth)) ⟨[], []⟩ := by
    rw [buildStates, h]
    exact ends_throw_bind.mpr ⟨rfl, rfl⟩
  have hout : outcome p = _ := hends
  rw [run, hout]
  rfl

end Construction

namespace Analyzer
variable {a : Analyzer}

/-- An analysis has an automaton for each of its decisions, or none at all. -/
theorem exists_error_of_analyzeAll {terrain : Terrain} {ds : List Decision} {d : Decision}
    (hd : d ∈ ds) {e : AnalysisError} (h : (Construction.run (a.plan terrain d)).1 = .error e) :
    ∃ e, (a.analyzeAll terrain ds).1 = .error e := by
  induction ds with
  | nil => cases hd
  | cons d' ds ih =>
    rw [analyzeAll]
    rcases hrun : Construction.run (a.plan terrain d') with ⟨e' | automaton, ambiguities⟩
    · exact ⟨e', rfl⟩
    · rcases List.mem_cons.mp hd with rfl | hd
      · rw [hrun] at h
        cases h
      · obtain ⟨e, he⟩ := ih hd
        refine ⟨e, ?_⟩
        show (a.analyzeAll terrain ds).1.map (automaton :: ·) = .error e
        rw [he]
        rfl

theorem exists_error_of_analyze {d : Decision} (hd : d ∈ a.grammar.decisions) {e : AnalysisError}
    (h : (Construction.run (a.plan a.terrain d)).1 = .error e) : ∃ e, a.analyze.1 = .error e := by
  obtain ⟨e, he⟩ := exists_error_of_analyzeAll hd h
  refine ⟨e, ?_⟩
  show (a.analyzeAll a.terrain a.grammar.decisions).1.map _ = .error e
  rw [he]
  rfl

/-- **Recursion that reads nothing is always rejected.** Where a run of an alternative that
reads nothing comes to a call, and from the called rule another one comes to the same call
without having returned, the decision has no automaton within any limits: the construction
reports a rule whose recursion goes too deep, and the analysis fails. -/
theorem rejects_recursion {definition : GrammarDefinition} {a : Analyzer}
    (hgrammar : definition.build = .ok a.grammar) {d : Decision} (hd : d ∈ a.grammar.decisions)
    {alt : Ordinal} {node : NodeId} {rule : RuleId} {follow : NodeId} {stack stack' : List NodeId}
    {ps qs : List Passage} (hrun : LookaheadRun a.terrain d.id alt ps ⟨node, stack⟩)
    (hps : Passage.symbols ps = []) (hcall : .call rule follow ∈ a.terrain.network.edgesOf node)
    (hback : RunAbove a.terrain (follow :: stack) ⟨Network.start rule, follow :: stack⟩ qs
      ⟨node, stack'⟩)
    (hqs : Passage.symbols qs = []) (config : AnalysisConfig) :
    let limited : Analyzer := { a with config := config }
    (∃ callee ∈ a.grammar.rules, (Construction.run (limited.plan limited.terrain d)).1 =
      .error (.recursionOverflow (a.grammar.ruleName d.rule) d.id callee.name
        config.maxRecursionDepth)) ∧
    ∃ e, limited.analyze.1 = .error e := by
  intro limited
  have sound : limited.terrain.Sound := limited.sound_terrain hgrammar
  obtain ⟨callee, hcallee, hentries⟩ := Closure.ofEntries_eq_error sound
    (hrun.withLimit config.maxRecursionDepth) hps hcall
    (hback.withLimit config.maxRecursionDepth) hqs
  have hresult := congrArg Prod.fst
    (run_eq_recursionOverflow (p := limited.plan limited.terrain d) hentries)
  obtain ⟨r, hr⟩ : ∃ r, a.grammar.rules[callee]? = some r :=
    ⟨_, List.getElem?_eq_getElem hcallee⟩
  have hname : (limited.plan limited.terrain d).ruleNames[callee]?.getD "" = r.name := by
    show ((a.grammar.rules.map (·.name))[callee]?).getD "" = r.name
    rw [List.getElem?_map, hr]
    rfl
  rw [hname] at hresult
  exact ⟨⟨r, List.mem_of_getElem? hr, hresult⟩, exists_error_of_analyze hd hresult⟩

/-! ### Recursion behind what may be left out -/

/-- A rule that calls itself where an optional `X` is left out. -/
def leftHidden : GrammarDefinition where
  name := "LeftHidden"
  kind := .parser
  rules := [⟨"e", .choice [
    .seq [.repeated .optional (.ref "X"), .ref "e", .ref "A"], .ref "B"], false⟩]
  tokens := []

def leftHiddenAnalyzer : Analyzer := ⟨leftHidden.grammar, .standard, none⟩

theorem leftHidden_builds : leftHidden.build = .ok leftHiddenAnalyzer.grammar :=
  GrammarDefinition.build_eq_ok (by decide +kernel)

/-- The rule is rejected where it may call itself a thousand times, as well as within the usual
limits. -/
theorem rejects_recursion_leftHidden :
    let limited : Analyzer := { leftHiddenAnalyzer with config := ⟨0, 1000, true⟩ }
    let d : Decision := ⟨0, 0, .block, 2⟩
    d ∈ leftHiddenAnalyzer.grammar.decisions ∧
      LookaheadRun leftHiddenAnalyzer.terrain 0 1 [] ⟨3, []⟩ ∧
      RunAbove leftHiddenAnalyzer.terrain [7] ⟨0, [7]⟩ [] ⟨3, [7]⟩ ∧
      (∃ callee ∈ leftHiddenAnalyzer.grammar.rules,
        (Construction.run (limited.plan limited.terrain d)).1 =
          .error (.recursionOverflow "e" 0 callee.name 1000)) ∧
      ∃ e, limited.analyze.1 = .error e := by
  intro limited d
  have hd : d ∈ leftHiddenAnalyzer.grammar.decisions := by decide +kernel
  -- The way to the call: into the first alternative, and past the optional `X`.
  have hinto (stack : List NodeId) : Move leftHiddenAnalyzer.terrain ⟨0, stack⟩ [] ⟨2, stack⟩ :=
    .silent (by decide +kernel)
  have hpast (stack : List NodeId) : Move leftHiddenAnalyzer.terrain ⟨2, stack⟩ [] ⟨6, stack⟩ :=
    .silent (by decide +kernel)
  have hbehind (stack : List NodeId) : Move leftHiddenAnalyzer.terrain ⟨6, stack⟩ [] ⟨3, stack⟩ :=
    .silent (by decide +kernel)
  have hrun : LookaheadRun leftHiddenAnalyzer.terrain 0 1 [] ⟨3, []⟩ :=
    ⟨2, by decide, by decide +kernel, (Run.single (hpast [])).trans (Run.single (hbehind []))⟩
  have hcall : .call 0 7 ∈ leftHiddenAnalyzer.terrain.network.edgesOf 3 := by decide +kernel
  have hback : RunAbove leftHiddenAnalyzer.terrain [7] ⟨0, [7]⟩ [] ⟨3, [7]⟩ :=
    ((RunAbove.refl.tail (hinto [7]) (List.suffix_refl _)).tail (hpast [7]) (List.suffix_refl _)).tail
      (hbehind [7]) (List.suffix_refl _)
  have hrejected := rejects_recursion leftHidden_builds hd hrun rfl hcall hback rfl ⟨0, 1000, true⟩
  exact ⟨hd, hrun, hback, hrejected⟩

end Analyzer
end Lookahead
