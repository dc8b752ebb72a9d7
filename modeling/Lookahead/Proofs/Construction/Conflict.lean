import Lookahead.Proofs.Construction.Arising
import Lookahead.Proofs.Construction.WellFormed

/-! Conflicts are final.

In a conflict every position belongs to two alternatives. How a run goes on depends on its
position only, so whatever one alternative reads from there on another one reads as well, and
wherever it comes to. What is read on from a conflict is again a conflict. -/
namespace Lookahead

namespace Configuration
variable {cs : List Configuration} {c d : Configuration}

theorem mem_meeting : d ∈ meeting cs c ↔ d ∈ cs ∧ d.position = c.position := by
  simp [meeting, position]

/-- In a conflict another alternative comes to each position. -/
theorem isConflict_iff :
    isConflict cs = true ↔ ∀ c ∈ cs, ∃ d ∈ cs, d.position = c.position ∧ d.alt ≠ c.alt := by
  simp only [isConflict, List.all_eq_true, decide_eq_true_eq]
  simp only [alternatives, one_lt_length_distinctRuns, List.mem_map, mem_meeting]
  refine forall₂_congr fun c hc => ⟨?_, ?_⟩
  · rintro ⟨_, ⟨d, hd, rfl⟩, _, ⟨e, he, rfl⟩, hne⟩
    by_cases heq : d.alt = c.alt
    · exact ⟨e, he.1, he.2, heq ▸ hne⟩
    · exact ⟨d, hd.1, hd.2, heq⟩
  · rintro ⟨d, hd, hposition, hne⟩
    exact ⟨c.alt, ⟨c, ⟨hc, rfl⟩, rfl⟩, d.alt, ⟨d, ⟨hd, hposition⟩, rfl⟩, hne⟩

end Configuration

namespace Construction
variable {p : Plan} {configs later : List Configuration} {w z : List Symbol}

/-- Reading on does not end a conflict. -/
theorem isConflict_of_represents {t : Terrain} {d : DecisionId} (hw : Represents t d w configs)
    (hlater : Represents t d (w ++ z) later) (hconflict : Configuration.isConflict configs = true) :
    Configuration.isConflict later = true := by
  refine Configuration.isConflict_iff.mpr fun c hc => ?_
  obtain ⟨hlive, ps, hrun, hsymbols⟩ := hlater.exists_run hc
  obtain ⟨qs, m, rs, hqs, hqsw, hm, hrs, hrsz, _⟩ := hrun.exists_cut hlive hsymbols
  obtain ⟨e, he, halt, rfl⟩ := hw.exists_configuration hm hqs hqsw
  obtain ⟨f, hf, hposition, hne⟩ := Configuration.isConflict_iff.mp hconflict e he
  -- The other alternative goes on as the first one does.
  obtain ⟨_, fs, ⟨entry, hpos, hentry, hrun'⟩, hfs⟩ := hw.exists_run hf
  rw [hposition] at hrun'
  obtain ⟨c', hc', halt', hposition'⟩ := hlater.exists_configuration hlive
    ⟨entry, hpos, hentry, hrun'.trans hrs⟩ (by rw [Passage.symbols_append, hfs, hrsz])
  exact ⟨c', hc', hposition', halt' ▸ halt ▸ hne⟩

end Construction

open Construction in
/-- **Stopping at a conflict loses nothing.** Whatever a live run reads from a configuration of a
conflict, and wherever it comes to, a live run of another alternative reads from one of its
configurations and comes to as well, and however far the analysis reads on, it finds only
conflicts. A state that is no conflict has a position that belongs to a single alternative. -/
theorem isConflict_exact {definition : GrammarDefinition} {a : Analyzer}
    (hgrammar : definition.build = .ok a.grammar) {d : Decision}
    {result : Except AnalysisError Unit} {site : Site}
    (hsite : outcome (a.plan a.terrain d) = (result, site)) {id : StateId}
    {configs : List Configuration} {state : State}
    (hstate : site.states[id]? = some (configs, state)) :
    (Configuration.isConflict configs = true →
      (∀ c ∈ configs, ∀ z q, q.Live a.terrain →
        (∃ ps, Run a.terrain c.position ps q ∧ Passage.symbols ps = z) →
          ∃ c' ∈ configs, c'.alt ≠ c.alt ∧
            ∃ ps, Run a.terrain c'.position ps q ∧ Passage.symbols ps = z) ∧
      ∀ z later, Reading (a.plan a.terrain d) configs z later →
        Configuration.isConflict later = true) ∧
    (Configuration.isConflict configs = false →
      ∃ c ∈ configs, ∀ c' ∈ configs, c'.node = c.node → c'.stack = c.stack → c'.alt = c.alt) := by
  have sound := Analyzer.sound_terrain hgrammar
  obtain ⟨w, harises⟩ := rooted_of_outcome hsite configs
    (List.mem_of_getElem? (Site.known_of_states hstate))
  have hw := harises.represents (p := a.plan a.terrain d) sound
  constructor
  · intro hconflict
    constructor
    · intro c hc z q hlive hrun
      obtain ⟨c', hc', hposition, hne⟩ := Configuration.isConflict_iff.mp hconflict c hc
      exact ⟨c', hc', hne, hposition ▸ hrun⟩
    · intro z later hreading
      exact isConflict_of_represents hw (hreading.represents sound hw) hconflict
  · intro hconflict
    have hnone := mt Configuration.isConflict_iff.mpr (Bool.eq_false_iff.mp hconflict)
    push Not at hnone
    obtain ⟨c, hc, hall⟩ := hnone
    refine ⟨c, hc, fun c' hc' hnode hstack => hall c' hc' ?_⟩
    rw [Configuration.position, hnode, hstack]
    rfl

/-- After `A A` the alternatives of the loop conflict. After one `A` they do not, as the exit of the
loop is the only one to be at the end of the rule. -/
theorem isConflict_exact_guardedLoop :
    (∃ configs state, guardedLoopSite.states[2]? = some (configs, state) ∧ configs ≠ [] ∧
      Configuration.isConflict configs = true ∧
      ∀ c ∈ configs, ∀ z q, q.Live guardedLoopAnalyzer.terrain →
        (∃ ps, Run guardedLoopAnalyzer.terrain c.position ps q ∧ Passage.symbols ps = z) →
          ∃ c' ∈ configs, c'.alt ≠ c.alt ∧
            ∃ ps, Run guardedLoopAnalyzer.terrain c'.position ps q ∧ Passage.symbols ps = z) ∧
    ∃ configs state, guardedLoopSite.states[1]? = some (configs, state) ∧
      ∃ c ∈ configs, ∀ c' ∈ configs, c'.node = c.node → c'.stack = c.stack → c'.alt = c.alt := by
  have hafterTwo : (guardedLoopSite.states[2]?.any fun s =>
      s.1 != [] && Configuration.isConflict s.1) = true := by decide +kernel
  have hafterOne : (guardedLoopSite.states[1]?.any fun s =>
      !Configuration.isConflict s.1) = true := by decide +kernel
  constructor
  · obtain ⟨⟨configs, state⟩, hstate, hconfigs⟩ := (Option.any_eq_true _ _).mp hafterTwo
    rw [Bool.and_eq_true, bne_iff_ne] at hconfigs
    have hexact := isConflict_exact guardedLoop_builds guardedLoop_outcome hstate
    exact ⟨configs, state, hstate, hconfigs.1, hconfigs.2, (hexact.1 hconfigs.2).1⟩
  · obtain ⟨⟨configs, state⟩, hstate, hconfigs⟩ := (Option.any_eq_true _ _).mp hafterOne
    have hexact := isConflict_exact guardedLoop_builds guardedLoop_outcome hstate
    exact ⟨configs, state, hstate, hexact.2 (by simpa using hconfigs)⟩

end Lookahead
