import Lookahead.Proofs.Closure.Termination
import Lookahead.Proofs.Construction.Arising
import Lookahead.Proofs.Construction.Exactness

/-! The analysis ends.

`Works` is the loop over the waiting states, without a bound on its rounds. Each state waits
once and there may only be so many of them, so the loop ends, and the rounds that `workAll`
allows for are enough: what an automaton or an error is built from is what the loop ends
with. The closures that a construction computes end as well, as configurations only ever hold
nodes of the network. -/
namespace Lookahead
namespace Construction

/-- The configurations of a state. -/
def Site.configsOf (site : Site) (id : StateId) : List Configuration :=
  (site.states[id]?.map (·.1)).getD []

/-- Working on the waiting states, and on those that they lead to, until none is left or one
fails. -/
inductive Works (p : Plan) : List StateId → Site → Except AnalysisError Unit → Site → Prop where
  | idle {site} : Works p [] site (.ok ()) site
  | fails {id waiting site e site'}
    (hwork : Ends (work p id (site.configsOf id)) site (.error e) site') :
    Works p (id :: waiting) site (.error e) site'
  | next {id waiting site state found site₁ result site'}
    (hwork : Ends (work p id (site.configsOf id)) site (.ok (state, found)) site₁)
    (rest : Works p (found ++ waiting) (site₁.record id state) result site') :
    Works p (id :: waiting) site result site'

/-- Adds the state that holds the closure of the entries. -/
def addStart (p : Plan) : Build StateId :=
  close p (Closure.ofEntries p.terrain (p.terrain.network.entriesOf p.decision.id)) >>= addState p

/-- The construction, where the loop has no bound on its rounds. -/
inductive Builds (p : Plan) : Except AnalysisError Unit → Site → Prop where
  | fails {e site} (hstart : Ends (addStart p) ⟨[], []⟩ (.error e) site) : Builds p (.error e) site
  | works {start site result site'} (hstart : Ends (addStart p) ⟨[], []⟩ (.ok start) site)
    (hworks : Works p [start] site result site') : Builds p result site'

variable {p : Plan} {site : Site} {id : StateId} {fuel : Nat} {waiting : List StateId}

/-- The loop ends, with what the rounds that are allowed for come to. -/
theorem Progressing.works (h : Progressing p fuel waiting site) :
    ∃ result site', Works p waiting site result site' ∧
      Ends (workAll p fuel waiting) site result site' := by
  induction fuel generalizing waiting site with
  | zero =>
    obtain rfl := h.waiting_eq_nil
    exact ⟨_, _, .idle, ends_pure.mpr ⟨rfl, rfl⟩⟩
  | succ fuel ih =>
    cases waiting with
    | nil => exact ⟨_, _, .idle, ends_pure.mpr ⟨rfl, rfl⟩⟩
    | cons id waiting =>
      obtain ⟨configs, hid⟩ := h.untouched id (.head _)
      have hconfigs : site.configsOf id = configs := by simp [Site.configsOf, hid]
      simp only [workAll, ends_get_bind]
      rcases hwork : (work p id (site.configsOf id)).run.run site with ⟨_ | ⟨state, found⟩, site₁⟩
      · exact ⟨_, _, .fails hwork, ends_bind.mpr (.inl ⟨_, hwork, rfl⟩)⟩
      · obtain ⟨result, site', hworks, hends⟩ := ih (h.step hid (hconfigs ▸ hwork))
        exact ⟨result, site', .next hwork hworks, ends_bind.mpr (.inr ⟨_, _, hwork, hends⟩)⟩

/-- **The construction ends** where its loop has no bound, with what it ends with where the loop
has one. -/
theorem exists_builds (p : Plan) :
    ∃ result site, Builds p result site ∧ outcome p = (result, site) := by
  have houtcome {result : Except AnalysisError Unit} {site : Site}
      (h : Ends (addStart p >>= fun start => workAll p p.maxStates [start]) ⟨[], []⟩ result site) :
      outcome p = (result, site) := by
    rw [addStart, bind_assoc] at h
    exact h
  rcases hstart : (addStart p).run.run ⟨[], []⟩ with ⟨e | start, site⟩
  · exact ⟨_, _, .fails hstart, houtcome (ends_bind.mpr (.inl ⟨e, hstart, rfl⟩))⟩
  · obtain ⟨configs, s₁, hclose, hadd⟩ := ends_bind_ok.mp hstart
    obtain ⟨_, rfl⟩ := ends_close hclose
    obtain ⟨hid, hlt, hsite⟩ := ends_addState hadd
    obtain ⟨result, site', hworks, hends⟩ := (progressing_start hlt configs).works
    rw [← hsite, show 0 = start from hid.symm] at hworks hends
    exact ⟨result, site', .works hstart hworks,
      houtcome (ends_bind.mpr (.inr ⟨_, _, hstart, hends⟩))⟩

/-- The closures that a construction computes are what their loops end with. -/
structure Closes (p : Plan) (site : Site) : Prop where
  entries :
    let ways := (p.terrain.network.entriesOf p.decision.id).mapIdx fun i node =>
      ⟨i + 1, node, [], .none⟩
    Closure.Settles p.terrain (Closure.hoist p.terrain) ways
      (Way.reach p.terrain (Closure.hoist p.terrain) p.terrain.predicates.length ways)
  steps : ∀ configs ∈ site.known, ∀ lo hi : Symbol,
    let ways := Configuration.read p.terrain lo hi configs
    Closure.Settles p.terrain (Closure.passLater p.terrain) ways
      (Way.reach p.terrain (Closure.passLater p.terrain) ways.length ways)

theorem closes_of_outcome (sound : p.terrain.Sound) {result : Except AnalysisError Unit}
    (h : outcome p = (result, site)) : Closes p site where
  entries := Closure.settles_entries sound p.decision.id
  steps configs hconfigs lo hi := by
    obtain ⟨w, harises⟩ := rooted_of_outcome h configs hconfigs
    have hinside := (harises.represents sound).inside sound.closed
    exact Closure.settles_steps sound (Closure.inside_of_mem_read sound.closed hinside lo hi)

end Construction

open Construction in
/-- **The analysis ends**, however grammars loop and recurse. A closure ends from any ways in the
network, whether it hoists or not, as there are finitely many ways to visit; and each decision has
an automaton or an error, which is what its construction comes to where nothing bounds the loop
over the states or those of the closures. -/
theorem Analyzer.analysis_ends {definition : GrammarDefinition} {a : Analyzer}
    (hgrammar : definition.build = .ok a.grammar) :
    (∀ pass, pass = Closure.hoist a.terrain ∨ pass = Closure.passLater a.terrain →
      ∀ ways : List (Way Conditions), (∀ w ∈ ways, w.position.Inside a.terrain.network) →
        ∃ (seeds : Finset (Way Conditions)) (result : Except RuleId (List (Way Conditions))),
          (∀ w, Reachable (Way.moves a.terrain pass) ways w → w ∈ seeds) ∧
            Closure.Settles a.terrain pass ways result ∧
            Explored (Way.moves a.terrain pass) ways result) ∧
    ∀ d : Decision, ∃ result site, Builds (a.plan a.terrain d) result site ∧
      Closes (a.plan a.terrain d) site ∧
      run (a.plan a.terrain d) =
        (result.map fun _ => site.automaton (a.plan a.terrain d), site.ambiguities) := by
  have sound := Analyzer.sound_terrain hgrammar
  constructor
  · intro pass hpass ways hinside
    exact Closure.exists_settles sound hpass hinside
  · intro d
    obtain ⟨result, site, hbuilds, houtcome⟩ := exists_builds (a.plan a.terrain d)
    refine ⟨result, site, hbuilds, closes_of_outcome sound houtcome, ?_⟩
    simp only [run, houtcome]

/-! ### A grammar that loops over nothing and recurses -/

/-- A loop that may read nothing but tests a predicate in each round, one over a gate alone, and a
rule that ends by calling itself. -/
def tangled : GrammarDefinition where
  name := "Tangled"
  kind := .parser
  rules := [
    ⟨"s", .choice [
      .seq [.repeated .star (.seq [.predicate "slow" .validating none,
        .repeated .optional (.ref "A")]), .ref "B"],
      .seq [.repeated .star (.predicate "fast" .gated none), .repeated .optional (.ref "t"),
        .ref "C"]], false⟩,
    ⟨"t", .seq [.ref "A", .repeated .optional (.ref "t")], false⟩]
  tokens := []

def tangledAnalyzer : Analyzer := ⟨tangled.grammar, .standard, none⟩

theorem tangled_builds : tangled.build = .ok tangledAnalyzer.grammar := by
  have hok : tangled.build.isOk = true := by decide +kernel
  rw [tangledAnalyzer, GrammarDefinition.build_eq_ok hok]

def tangledPlan (d : Decision) : Construction.Plan := tangledAnalyzer.plan tangledAnalyzer.terrain d

open Construction in
/-- The choice between the two ways fails, as the recursion goes too deep; the first loop has an
automaton. -/
theorem Analyzer.analysis_ends_tangled :
    (∃ e site, Builds (tangledPlan ⟨0, 0, .block, 2⟩) (.error e) site) ∧
    (∃ site, Builds (tangledPlan ⟨1, 0, .star, 2⟩) (.ok ()) site) ∧
    ∃ result, Closure.Settles tangledAnalyzer.terrain (Closure.hoist tangledAnalyzer.terrain)
      [⟨1, 4, [], .none⟩, ⟨2, 15, [], ⟨.never, .always⟩⟩] result := by
  obtain ⟨hcloses, hbuilds⟩ := Analyzer.analysis_ends tangled_builds
  refine ⟨?_, ?_, ?_⟩
  · have hfails : (run (tangledPlan ⟨0, 0, .block, 2⟩)).1.isOk = false := by decide +kernel
    obtain ⟨result, site, hresult, _, hrun⟩ := hbuilds ⟨0, 0, .block, 2⟩
    cases result with
    | error e => exact ⟨e, site, hresult⟩
    | ok =>
      rw [tangledPlan, hrun] at hfails
      cases hfails
  · have hends : (run (tangledPlan ⟨1, 0, .star, 2⟩)).1.isOk = true := by decide +kernel
    obtain ⟨result, site, hresult, _, hrun⟩ := hbuilds ⟨1, 0, .star, 2⟩
    cases result with
    | error e =>
      rw [tangledPlan, hrun] at hends
      cases hends
    | ok => exact ⟨site, hresult⟩
  · have hinside : ∀ w ∈ [(⟨1, 4, [], .none⟩ : Way Conditions), ⟨2, 15, [], ⟨.never, .always⟩⟩],
        w.node < tangledAnalyzer.terrain.network.size ∧
          ∀ m ∈ w.stack, m < tangledAnalyzer.terrain.network.size := by decide +kernel
    obtain ⟨_, result, _, hsettles, _⟩ := hcloses _ (.inl rfl) _ hinside
    exact ⟨result, hsettles⟩

end Lookahead
