import Lookahead.Proofs.Closure.Limits
import Lookahead.Proofs.Construction.WellFormed

/-! Limits choose between one automaton and an error.

The construction looks at its limits only to give up: at a call that is open too often, and
where one more state is one too many. `EndsWithin` compares what a part of a construction
does with what the same part does within other limits: the same, unless it adds more states
than these allow. Each part adds its states to those before it, so the first state too many
decides what becomes of the rest. -/
namespace Lookahead
namespace Construction

/-- The same plan within other limits. -/
def Plan.within (p : Plan) (depth states : Nat) : Plan :=
  { p with terrain := p.terrain.withLimit depth, maxStates := states }

@[simp] theorem Plan.maxStates_within (p : Plan) (depth states : Nat) :
    (p.within depth states).maxStates = states := rfl

/-- What is reported where one state is too many. -/
def Plan.nonConvergence (p : Plan) : AnalysisError :=
  .nonConvergence p.ruleName p.decision.id p.maxStates

variable {α β : Type} {p : Plan} {site site' : Site} {configs : List Configuration}
  {depth states : Nat}

/-- An action comes from `site` to `site'`, or gives up within this plan if that has more
states than allowed. -/
def EndsWithin (p : Plan) (m : Build α) (site : Site) (a : α) (site' : Site) : Prop :=
  site.states.length ≤ p.maxStates →
    if site'.states.length ≤ p.maxStates then Ends m site (.ok a) site'
    else ∃ site'', Ends m site (.error p.nonConvergence) site''

/-- An action that adds no state needs no limit. -/
theorem EndsWithin.of_ends {m : Build α} {a : α} (h : Ends m site (.ok a) site')
    (hlength : site'.states.length = site.states.length) : EndsWithin p m site a site' := by
  intro hle
  rwa [if_pos (hlength ▸ hle)]

theorem EndsWithin.bind {m : Build α} {f : α → Build β} {a : α} {b : β} {site₁ : Site}
    (h : EndsWithin p m site a site₁) (hf : EndsWithin p (f a) site₁ b site')
    (hgrows : site₁.states.length ≤ site'.states.length) : EndsWithin p (m >>= f) site b site' := by
  intro hle
  have hm := h hle
  by_cases hmiddle : site₁.states.length ≤ p.maxStates
  · rw [if_pos hmiddle] at hm
    have hrest := hf hmiddle
    split
    · next hend =>
      rw [if_pos hend] at hrest
      exact ends_bind_ok.mpr ⟨a, site₁, hm, hrest⟩
    · next hend =>
      rw [if_neg hend] at hrest
      obtain ⟨site'', hrest⟩ := hrest
      exact ⟨site'', ends_bind.mpr (.inr ⟨a, site₁, hm, hrest⟩)⟩
  · rw [if_neg hmiddle] at hm
    obtain ⟨site'', hm⟩ := hm
    rw [if_neg (fun hend => hmiddle (Nat.le_trans hgrows hend))]
    exact ⟨site'', ends_bind.mpr (.inl ⟨_, hm, rfl⟩)⟩

theorem EndsWithin.pure (p : Plan) (a : α) (site : Site) : EndsWithin p (pure a) site a site :=
  .of_ends (ends_pure.mpr ⟨rfl, rfl⟩) rfl

theorem endsWithin_get {f : Site → Build α} {a : α} :
    EndsWithin p (get >>= f) site a site' ↔ EndsWithin p (f site) site a site' := Iff.rfl

/-- What follows without adding a state decides nothing. -/
theorem EndsWithin.map {m : Build α} {f : α → β} {a : α} (h : EndsWithin p m site a site') :
    EndsWithin p (m >>= fun a => Pure.pure (f a)) site (f a) site' :=
  h.bind (.pure p (f a) site') (Nat.le_refl _)

/-! ### The parts of the construction -/

theorem endsWithin_close {result : Except RuleId (List Configuration)} (h : result = .ok configs)
    (site : Site) : EndsWithin p (close p result) site configs site := by
  rw [h]
  exact .pure p configs site

theorem endsWithin_addState (p : Plan) (configs : List Configuration) (site : Site) :
    EndsWithin p (addState p configs) site site.states.length (site.withNew [configs]) := by
  intro hle
  have hlength : (site.withNew [configs]).states.length = site.states.length + 1 := by
    simp [Site.withNew]
  rw [hlength, addState]
  split
  · next hlt =>
    rw [ends_get_bind, if_neg (Nat.not_le_of_lt hlt)]
    exact ends_set_bind.mpr (ends_pure.mpr ⟨rfl, rfl⟩)
  · next hlt =>
    rw [Nat.not_le, Nat.lt_succ_iff] at hlt
    refine ⟨site, ?_⟩
    rw [ends_get_bind, if_pos hlt]
    exact ends_throw_bind.mpr ⟨rfl, rfl⟩

section
variable {id : StateId} {isNew : Bool}

theorem endsWithin_stateFor (h : Ends (stateFor p configs) site (.ok (id, isNew)) site') :
    EndsWithin (p.within depth states) (stateFor (p.within depth states) configs) site
      (id, isNew) site' := by
  simp only [stateFor, ends_get_bind] at h
  rw [stateFor, endsWithin_get]
  cases hfind : site.states.findIdx? (·.1 == configs) with
  | some id' =>
    rw [hfind] at h
    obtain ⟨hr, rfl⟩ := ends_pure_ok.mp h
    rw [hr]
    exact .pure _ _ _
  | none =>
    rw [hfind] at h
    obtain ⟨id', site₁, hadd, hpure⟩ := ends_bind_ok.mp h
    obtain ⟨hr, rfl⟩ := ends_pure_ok.mp hpure
    obtain ⟨rfl, _, rfl⟩ := ends_addState hadd
    rw [hr]
    exact (endsWithin_addState _ _ _).map

end

theorem endsWithin_resolve {r : Option Resolution} (h : Ends (resolve p configs) site (.ok r) site') :
    EndsWithin (p.within depth states) (resolve (p.within depth states) configs) site r site' := by
  obtain ⟨_, later, rfl, _⟩ := ends_resolve h
  exact .of_ends h rfl

theorem endsWithin_resolveAtEnd {r : Option Resolution}
    (h : Ends (resolveAtEnd p configs) site (.ok r) site') :
    EndsWithin (p.within depth states) (resolveAtEnd (p.within depth states) configs) site r
      site' := by
  obtain ⟨_, later, rfl, _⟩ := ends_resolveAtEnd h
  exact .of_ends h rfl

theorem Grows.length_le {found found' : List StateId} (h : Grows p site found site' found') :
    site.states.length ≤ site'.states.length := by
  rw [← site.length_known, ← site'.length_known]
  exact h.known_prefix.length_le

section
variable (sound : p.terrain.Sound) (hdepth : p.terrain.maxRecursionDepth ≤ depth)
  (hinside : ∀ c ∈ configs, c.position.Inside p.terrain.network)
  {ts ts' : List Transition} {found found' : List StateId}
include sound hdepth hinside

theorem endsWithin_follow {range : SymbolRange}
    (h : Ends (follow p configs range ts found) site (.ok (ts', found')) site') :
    EndsWithin (p.within depth states) (follow (p.within depth states) configs range ts found) site
      (ts', found') site' := by
  obtain ⟨reached, s₁, hclose, hrest⟩ := ends_bind_ok.mp h
  obtain ⟨hreached, rfl⟩ := ends_close hclose
  have hsteps := Closure.ofSteps_withLimit sound hdepth
    (Closure.inside_of_mem_read sound.closed hinside range.lo range.hi) hreached
  refine (endsWithin_close hsteps _).bind ?_ (ends_follow h).1.length_le
  split at hrest
  · next hempty =>
    obtain ⟨hr, rfl⟩ := ends_pure_ok.mp hrest
    rw [if_pos hempty, hr]
    exact .pure _ _ _
  · next hempty =>
    obtain ⟨⟨target, isNew⟩, s₂, hstate, hpure⟩ := ends_bind_ok.mp hrest
    obtain ⟨hr, rfl⟩ := ends_pure_ok.mp hpure
    rw [if_neg hempty, hr]
    exact (endsWithin_stateFor hstate).map

theorem endsWithin_followAll {ranges : List SymbolRange}
    (h : Ends (followAll p configs ranges ts found) site (.ok (ts', found')) site') :
    EndsWithin (p.within depth states) (followAll (p.within depth states) configs ranges ts found)
      site (ts', found') site' := by
  induction ranges generalizing ts found site with
  | nil =>
    obtain ⟨hr, rfl⟩ := ends_pure_ok.mp h
    rw [hr]
    exact .pure _ _ _
  | cons range ranges ih =>
    obtain ⟨⟨ts₁, found₁⟩, s₁, hfollow, hrest⟩ := ends_bind_ok.mp h
    exact (endsWithin_follow sound hdepth hinside hfollow).bind (ih hrest)
      (ends_followAll hrest).1.length_le

theorem endsWithin_work {id : StateId} {state : State}
    (h : Ends (work p id configs) site (.ok (state, found)) site') :
    EndsWithin (p.within depth states) (work (p.within depth states) id configs) site
      (state, found) site' := by
  match halts : Configuration.alternatives configs with
  | [] =>
    rw [work_of_none p id halts] at h
    obtain ⟨hr, rfl⟩ := ends_pure_ok.mp h
    rw [work_of_none _ id halts, hr]
    exact .pure _ _ _
  | [alt] =>
    rw [work_of_one p id halts] at h
    obtain ⟨hr, rfl⟩ := ends_pure_ok.mp h
    rw [work_of_one _ id halts, hr]
    exact .pure _ _ _
  | alt :: alt' :: alts =>
    cases hconflict : Configuration.isConflict configs with
    | true =>
      rw [work_of_conflict p id halts hconflict] at h
      obtain ⟨r, s₁, hresolve, hpure⟩ := ends_bind_ok.mp h
      obtain ⟨hr, rfl⟩ := ends_pure_ok.mp hpure
      rw [work_of_conflict _ id halts hconflict, hr]
      exact (endsWithin_resolve hresolve).map
    | false =>
      rw [work_of_looking p id halts hconflict] at h
      obtain ⟨accept, s₁, hresolve, hrest⟩ := ends_bind_ok.mp h
      obtain ⟨⟨ts, found'⟩, s₂, hfollow, hpure⟩ := ends_bind_ok.mp hrest
      obtain ⟨hr, rfl⟩ := ends_pure_ok.mp hpure
      rw [work_of_looking _ id halts hconflict, hr]
      exact (endsWithin_resolveAtEnd hresolve).bind
        (endsWithin_followAll sound hdepth hinside hfollow).map (ends_followAll hfollow).1.length_le

end

/-! ### The whole construction -/

theorem ends_work_length {id : StateId} {state : State} {found : List StateId}
    (h : Ends (work p id configs) site (.ok (state, found)) site') :
    site'.states.length = site.states.length + found.length := by
  obtain ⟨noted, hstates, _, ⟨added, rfl, rfl, _⟩, _⟩ := ends_work h
  simp [Site.withNew, hstates]

/-- The loop, where `fuel'` allows for all states that there may be. -/
theorem endsWithin_workAll (sound : p.terrain.Sound)
    (hdepth : p.terrain.maxRecursionDepth ≤ depth) {fuel fuel' : Nat} {waiting : List StateId}
    (hprogress : Progressing p fuel waiting site)
    (hfuel : states + waiting.length ≤ fuel' + site.states.length)
    (h : Ends (workAll p fuel waiting) site (.ok ()) site')
    (hinside : ∀ configs ∈ site'.known, ∀ c ∈ configs, c.position.Inside p.terrain.network) :
    EndsWithin (p.within depth states) (workAll (p.within depth states) fuel' waiting) site ()
      site' := by
  induction fuel generalizing waiting site fuel' with
  | zero =>
    obtain ⟨_, rfl⟩ := ends_pure.mp h
    obtain rfl := hprogress.waiting_eq_nil
    cases fuel' <;> exact .pure _ _ _
  | succ fuel ih =>
    cases waiting with
    | nil =>
      obtain ⟨_, rfl⟩ := ends_pure.mp h
      cases fuel' <;> exact .pure _ _ _
    | cons id waiting =>
      rw [List.length_cons] at hfuel
      cases fuel' with
      | zero =>
        intro hle
        rw [Plan.maxStates_within] at hle
        omega
      | succ fuel' =>
        have hprefix := (ends_workAll hprogress h).2
        obtain ⟨configs, state, found, s₁, hid, hwork, hrest⟩ := ends_workAll_cons hprogress h
        have hprogress' := hprogress.step hid hwork
        have hlength := ends_work_length hwork
        have hlength' : (s₁.record id state).states.length = s₁.states.length := by
          rw [Site.record, List.length_modify]
        have hfuel' : states + (found ++ waiting).length ≤
            fuel' + (s₁.record id state).states.length := by
          rw [hlength', hlength, List.length_append]
          omega
        have hmem : configs ∈ site'.known :=
          hprefix.subset (List.mem_of_getElem? (Site.known_of_states hid))
        have hlast : s₁.states.length ≤ site'.states.length := by
          rw [← hlength', ← Site.length_known, ← Site.length_known]
          exact (ends_workAll hprogress' hrest).2.length_le
        rw [workAll, endsWithin_get, hid]
        exact (endsWithin_work sound hdepth (hinside configs hmem) hwork).bind
          (fun hle => ih hprogress' hfuel' hrest (hlength' ▸ hle)) hlast

/-- Within other limits a construction that does not fail comes to the same, or to one state
too many. -/
theorem outcome_within (sound : p.terrain.Sound) (hdepth : p.terrain.maxRecursionDepth ≤ depth)
    (states : Nat) (h : outcome p = (.ok (), site)) :
    if site.states.length ≤ states then outcome (p.within depth states) = (.ok (), site)
    else (outcome (p.within depth states)).1 = .error (p.within depth states).nonConvergence := by
  obtain ⟨configs, hentries, hlt, hwork⟩ := workAll_of_outcome h
  have hstart := progressing_start hlt configs
  have hinside : ∀ configs ∈ site.known, ∀ c ∈ configs, c.position.Inside p.terrain.network := by
    intro configs hconfigs c hc
    obtain ⟨id, hid⟩ := List.mem_iff_getElem?.mp hconfigs
    obtain ⟨w, hw⟩ := exists_represents sound h hid
    exact hw.inside sound.closed c hc
  have hall : EndsWithin (p.within depth states) (buildStates (p.within depth states)) ⟨[], []⟩ ()
      site := by
    refine (endsWithin_close (Closure.ofEntries_withLimit sound hdepth hentries) _).bind ?_
      (Nat.zero_le _)
    refine (endsWithin_addState _ _ _).bind ?_ ?_
    · exact endsWithin_workAll sound hdepth hstart (Nat.le_refl _) hwork hinside
    · rw [← Site.length_known, ← Site.length_known]
      exact (ends_workAll hstart hwork).2.length_le
  have hend := hall (Nat.zero_le _)
  rw [Plan.maxStates_within] at hend
  split
  · next hle => rwa [if_pos hle] at hend
  · next hle =>
    rw [if_neg hle] at hend
    obtain ⟨site', hend⟩ := hend
    exact congrArg Prod.fst hend

theorem run_eq_ok_iff {automaton : Automaton} {ambiguities : List (List Ordinal)} :
    run p = (.ok automaton, ambiguities) ↔
      ∃ site, outcome p = (.ok (), site) ∧ site.automaton p = automaton ∧
        site.ambiguities = ambiguities := by
  rw [run]
  rcases outcome p with ⟨_ | _, site⟩
  · simp [Except.map]
  · simp [Except.map]

/-- Within limits that allow for its states, a construction that does not fail comes to the
same automaton and notes the same ambiguities. Within fewer states it gives up. -/
theorem run_within (sound : p.terrain.Sound) (hdepth : p.terrain.maxRecursionDepth ≤ depth)
    {automaton : Automaton} {ambiguities : List (List Ordinal)}
    (h : run p = (.ok automaton, ambiguities)) :
    (automaton.states.length ≤ states →
      run (p.within depth states) = (.ok automaton, ambiguities)) ∧
    (states < automaton.states.length →
      (run (p.within depth states)).1 = .error (p.within depth states).nonConvergence) := by
  obtain ⟨site, hsite, rfl, rfl⟩ := run_eq_ok_iff.mp h
  have hcount : (site.automaton p).states.length = site.states.length := List.length_map _
  have hwithin := outcome_within sound hdepth states hsite
  rw [hcount]
  refine ⟨fun hle => ?_, fun hlt => ?_⟩
  · rw [if_pos hle] at hwithin
    exact run_eq_ok_iff.mpr ⟨site, hwithin, rfl, rfl⟩
  · rw [if_neg (Nat.not_le_of_lt hlt)] at hwithin
    simp only [run, hwithin]
    rfl

/-- Constructions within any limits that succeed come to the same. -/
theorem run_within_eq_of_ok (sound : p.terrain.Sound) {automaton automaton' : Automaton}
    {ambiguities : List (List Ordinal)} (h : run p = (.ok automaton, ambiguities))
    (h' : (run (p.within depth states)).1 = .ok automaton') :
    run (p.within depth states) = (.ok automaton, ambiguities) := by
  have hsecond : run (p.within depth states) = (.ok automaton', (run (p.within depth states)).2) :=
    Prod.ext h' rfl
  -- There are limits that allow for both.
  let most := max automaton.states.length automaton'.states.length
  have hboth : run (p.within (max p.terrain.maxRecursionDepth depth) most) =
      (.ok automaton, ambiguities) :=
    (run_within sound (Nat.le_max_left ..) h).1 (Nat.le_max_left ..)
  have hboth' : run ((p.within depth states).within (max p.terrain.maxRecursionDepth depth) most) =
      (.ok automaton', (run (p.within depth states)).2) :=
    (run_within (sound.withLimit depth) (Nat.le_max_right ..) hsecond).1 (Nat.le_max_right ..)
  exact hsecond.trans (hboth'.symm.trans hboth)

end Construction

namespace Analyzer
open Construction

/-- Another configuration means other limits. -/
theorem plan_withConfig (a : Analyzer) (config : AnalysisConfig) (d : Decision) :
    let limited : Analyzer := { a with config := config }
    limited.plan limited.terrain d =
      (a.plan a.terrain d).within config.maxRecursionDepth config.maxStates := rfl

/-- **Limits choose between one fixed automaton and an error.** Where a construction within
some limits has an automaton, one that allows for at least the same recursion comes to the
same automaton and ambiguities if it allows for the states of this automaton, and reports
that it allows for too few states otherwise. Within whatever limits the construction
succeeds, it comes to the same. -/
theorem run_limits {definition : GrammarDefinition} {a : Analyzer}
    (hgrammar : definition.build = .ok a.grammar) {d : Decision} {automaton : Automaton}
    {ambiguities : List (List Ordinal)}
    (h : Construction.run (a.plan a.terrain d) = (.ok automaton, ambiguities))
    (config : AnalysisConfig) :
    let limited : Analyzer := { a with config := config }
    let result := Construction.run (limited.plan limited.terrain d)
    (a.config.maxRecursionDepth ≤ config.maxRecursionDepth →
      (automaton.states.length ≤ config.maxStates → result = (.ok automaton, ambiguities)) ∧
      (config.maxStates < automaton.states.length → result.1 =
        .error (.nonConvergence (a.grammar.ruleName d.rule) d.id config.maxStates))) ∧
    ∀ automaton', result.1 = .ok automaton' → result = (.ok automaton, ambiguities) := by
  have sound : (a.plan a.terrain d).terrain.Sound := a.sound_terrain hgrammar
  intro limited result
  have hresult : result = Construction.run
      ((a.plan a.terrain d).within config.maxRecursionDepth config.maxStates) :=
    congrArg Construction.run (a.plan_withConfig config d)
  rw [hresult]
  exact ⟨fun hdepth => run_within sound hdepth h, fun _ => run_within_eq_of_ok sound h⟩

/-- The automaton of the grammar with two ways has three states: two are not enough, and with
more recursion allowed it stays the same. -/
theorem run_limits_twoWays :
    let run (config : AnalysisConfig) : Except AnalysisError Automaton × List (List Ordinal) :=
      let limited : Analyzer := { twoWaysAnalyzer with config := config }
      Construction.run (limited.plan limited.terrain twoWaysDecision)
    run .standard =
        (.ok (twoWaysAnalyzer.automatonOf twoWaysDecision twoWaysSite), twoWaysSite.ambiguities) ∧
      run ⟨3, 7, false⟩ = run .standard ∧
      (run ⟨2, 4, false⟩).1 = .error (.nonConvergence "s" 0 2) := by
  intro run
  have hstandard : run .standard =
      (.ok (twoWaysAnalyzer.automatonOf twoWaysDecision twoWaysSite), twoWaysSite.ambiguities) :=
    run_eq_ok_iff.mpr ⟨twoWaysSite, twoWays_outcome, rfl, rfl⟩
  have hcount : (twoWaysAnalyzer.automatonOf twoWaysDecision twoWaysSite).states.length = 3 := by
    decide +kernel
  refine ⟨hstandard, ?_, ?_⟩
  · have hmore := run_limits twoWays_builds hstandard ⟨3, 7, false⟩
    exact ((hmore.1 (by decide)).1 (Nat.le_of_eq hcount)).trans hstandard.symm
  · have hfewer := run_limits twoWays_builds hstandard ⟨2, 4, false⟩
    refine ((hfewer.1 (Nat.le_refl _)).2 ?_).trans ?_
    · rw [hcount]
      decide
    · rfl

end Analyzer
end Lookahead
