import Lookahead.Proofs.Construction.Exactness
import Lookahead.Proofs.Construction.Reachable
import Lookahead.Proofs.Network.Laid
import Lookahead.Proofs.Prediction
import Lookahead.Proofs.Prediction.Foreseen

/-! Built automata are well formed.

What a prediction relies on holds of every state that the construction makes: transitions
ascend and lead to states, a resolution names alternatives of the decision, and a guard is
something that is left to ask. A guard that stands in the automaton is not a constant:
constants are dropped where guards are put down, and the condition of configurations
that a run leads to holds at least where every predicate is true. -/
namespace Lookahead

/-- The guard has something to ask. -/
def Guard.Proper (g : Guard) : Prop := g ≠ .never ∧ g ≠ .always

/-- The alternatives ascend, and they are among the first `count`. -/
def Ordinals (count : Nat) (alts : List Ordinal) : Prop :=
  alts.Pairwise (· < ·) ∧ ∀ alt ∈ alts, 1 ≤ alt ∧ alt ≤ count

/-- A resolution between the alternatives of a decision that has `count` of them, of which
`exit?` leaves the block. -/
inductive Resolution.WellFormed (count : Nat) (exit? : Option Ordinal) : Resolution → Prop where
  | unique {alt : Ordinal} (alts : Ordinals count [alt]) : WellFormed count exit? (.unique alt)
  | ambiguous {chosen : Ordinal} {others : List Ordinal} (several : others ≠ [])
    (alts : Ordinals count (chosen :: others)) :
    WellFormed count exit? (.ambiguous chosen (chosen :: others))
  | predicated {candidates : List Candidate} (alts : Ordinals count (candidates.map (·.alt)))
    (guarded : ∃ c ∈ candidates, c.guard.isSome = true)
    (proper : ∀ c ∈ candidates, ∀ g ∈ c.guard, g.Proper)
    (exits : ∀ c ∈ candidates, c.exit = true ↔ exit? = some c.alt) :
    WellFormed count exit? (.predicated candidates)

/-- A state of an automaton with `size` states. -/
structure State.WellFormed (size count : Nat) (exit? : Option Ordinal) (s : State) : Prop where
  targets : ∀ t ∈ s.transitions, t.target < size
  bounds : ∀ t ∈ s.transitions, t.lo ≤ t.hi
  ascending : s.transitions.Pairwise fun t u => t.hi < u.lo
  /-- Transitions that touch are not one that has been split. -/
  apart : s.transitions.Pairwise fun t u =>
    t.hi.toNat + 1 = u.lo.toNat → t.target ≠ u.target ∨ t.gate ≠ u.gate
  /-- The search finds the transition that is on a symbol. -/
  edges : ∀ x t, s.edge? x = some t ↔ t ∈ s.transitions ∧ t.lo ≤ x ∧ x ≤ t.hi
  gates : ∀ t ∈ s.transitions, ∀ g ∈ t.gate, g.Proper
  terminal : s.terminal.isSome = true → s.transitions = [] ∧ s.accept = none
  resolutions : ∀ r, s.terminal = some r ∨ s.accept = some r → r.WellFormed count exit?

/-- An automaton with at most `maxStates` states. -/
structure Automaton.WellFormed (a : Automaton) (maxStates : Nat) (exit? : Option Ordinal) :
    Prop where
  nonempty : 1 ≤ a.states.length
  count : a.states.length ≤ maxStates
  states : ∀ s ∈ a.states, s.WellFormed a.states.length a.altCount exit?
  reachable : ∀ id < a.states.length, ∃ w, a.walk Automaton.start w = some id

/-! ### Resolutions -/

section Ways
variable {d : Decision} {ways : List (Ordinal × Guard)} {count : Nat}

theorem Candidate.pairwise_ofWays (d : Decision) (ways : List (Ordinal × Guard)) :
    ((Candidate.ofWays d ways).map (·.alt)).Pairwise (· < ·) := by
  have halts := distinctRuns_pairwise_lt (sortBy_pairwise_le (ways.map (·.1)))
  unfold Candidate.ofWays
  rw [List.map_map]
  refine List.Pairwise.sublist (List.filter_sublist.map _) ?_
  rw [List.map_map]
  exact (List.map_id' _).symm ▸ halts

theorem Resolution.wellFormed_ofWays {r : Resolution} (h : ofWays d ways = some r)
    (hways : ∀ alt ∈ ways.map (·.1), 1 ≤ alt ∧ alt ≤ count) : r.WellFormed count d.exit? := by
  have halts : Ordinals count ((Candidate.ofWays d ways).map (·.alt)) := by
    refine ⟨Candidate.pairwise_ofWays d ways, fun alt halt => ?_⟩
    obtain ⟨c, hc, rfl⟩ := List.mem_map.mp halt
    exact hways _ (Candidate.mem_ofWays.mp hc).1
  cases r with
  | unique alt =>
    rw [← alternatives_ofWays h] at halts
    exact .unique halts
  | ambiguous chosen alternatives =>
    rw [← alternatives_ofWays h] at halts
    unfold ofWays at h
    split at h
    · exact nomatch h
    · exact nomatch Option.some.inj h
    · next first rest hfirst hc =>
      split at h
      · next hall =>
        obtain ⟨rfl, rfl⟩ := Resolution.ambiguous.inj (Option.some.inj h)
        refine .ambiguous (fun hnil => ?_) halts
        -- A single candidate without a guard would have been unique.
        obtain rfl := List.map_eq_nil_iff.mp hnil
        have hnone : first.guard = none := by simpa using hall
        exact hfirst first.alt first.exit (by rw [← hnone]) rfl
      · exact nomatch Option.some.inj h
  | predicated candidates =>
    obtain ⟨rfl, c, hc, hguard⟩ := exists_guard_of_predicated h
    refine .predicated halts ⟨c, hc, Option.isSome_iff_ne_none.mpr hguard⟩ (fun c hc g hg => ?_)
      fun c hc => ?_
    · obtain ⟨_, hnever, hguard, _⟩ := Candidate.mem_ofWays.mp hc
      rw [hg] at hguard
      split at hguard
      · exact nomatch hguard
      · next halways =>
        obtain rfl := Option.some.inj hguard
        exact ⟨hnever, fun heq => halways (Guard.isAlways_iff.mpr heq)⟩
    · rw [(Candidate.mem_ofWays.mp hc).2.2.2, beq_iff_eq]

end Ways

/-! ### States -/

namespace Construction
variable {p : Plan} {site : Site} {configs : List Configuration} {state : State} {w : List Symbol}
  {id : StateId}

/-- A run leads to the configurations of each state. -/
theorem exists_represents (sound : p.terrain.Sound) (h : outcome p = (.ok (), site))
    (hid : site.known[id]? = some configs) : ∃ w, Represents p.terrain p.decision.id w configs := by
  have hlt : id < site.states.length := by
    rw [← site.length_known]
    exact (List.getElem?_eq_some_iff.mp hid).1
  obtain ⟨w, hwalk⟩ := exists_walk h hlt
  obtain ⟨configs', hknown, _, hw⟩ := represents_of_walk sound h hwalk
  obtain rfl := Option.some.inj (hid.symm.trans hknown)
  exact ⟨w, hw⟩

theorem ordinal_of_mem (hw : Represents p.terrain p.decision.id w configs) {alt : Ordinal}
    (halt : alt ∈ configs.map (·.alt)) :
    1 ≤ alt ∧ alt ≤ (p.terrain.network.entriesOf p.decision.id).length := by
  obtain ⟨c, hc, rfl⟩ := List.mem_map.mp halt
  obtain ⟨_, _, ⟨_, hpos, hentry, _⟩, _⟩ := hw.exists_run hc
  have hlt := (List.getElem?_eq_some_iff.mp hentry).1
  exact ⟨hpos, by lia⟩

/-- Where every predicate is true, the way to a configuration is open. -/
theorem under_gate_of_represents (hw : Represents p.terrain p.decision.id w configs)
    {c : Configuration} (hc : c ∈ configs) : c.conditions.gate.under (fun _ => true) = true := by
  obtain ⟨_, ps, hrun, hsymbols⟩ := hw.exists_run hc
  exact (hw.guard c hc .gate _).mpr ⟨ps, hrun, hsymbols, fun _ _ _ _ => rfl⟩

theorem proper_of_gateOf (hw : Represents p.terrain p.decision.id w configs) (hne : configs ≠ [])
    {g : Guard} (h : Configuration.gateOf configs = some g) : g.Proper := by
  unfold Configuration.gateOf at h
  dsimp only at h
  split at h
  · exact nomatch h
  · next halways =>
    obtain rfl := Option.some.inj h
    refine ⟨fun hnever => ?_, fun heq => halways (Guard.isAlways_iff.mpr heq)⟩
    obtain ⟨c, hc⟩ := List.exists_mem_of_ne_nil configs hne
    have hopen := (Guard.under_foldl_or .never (configs.map (·.conditions.gate))).mpr
      (.inr ⟨_, List.mem_map_of_mem hc, under_gate_of_represents hw hc⟩)
    rw [hnever] at hopen
    exact nomatch hopen

theorem wellFormed_onlyOne (hw : Represents p.terrain p.decision.id w configs) {alt : Ordinal}
    (halts : Configuration.alternatives configs = [alt]) :
    (onlyOne p id alt configs).WellFormed (p.terrain.network.entriesOf p.decision.id).length
      p.decision.exit? := by
  have hmem : alt ∈ configs.map (·.alt) := by
    rw [← mem_distinctRuns]
    exact (congrArg (alt ∈ ·) halts).mpr (List.mem_singleton_self alt)
  have hordinals : Ordinals (p.terrain.network.entriesOf p.decision.id).length [alt] :=
    ⟨List.pairwise_singleton .., by simpa using ordinal_of_mem hw hmem⟩
  have hne : configs ≠ [] := List.ne_nil_of_mem (List.exists_of_mem_map hmem).choose_spec.1
  unfold onlyOne
  split
  · next g hg =>
    split
    · refine .predicated hordinals ⟨_, List.mem_singleton_self _, rfl⟩ (fun c hc g' hg' => ?_)
        fun c hc => ?_
      · obtain rfl := List.mem_singleton.mp hc
        obtain rfl := Option.some.inj hg'
        exact proper_of_gateOf hw hne hg
      · obtain rfl := List.mem_singleton.mp hc
        simp
    · exact .unique hordinals
  · exact .unique hordinals

theorem wellFormed_resolution (hw : Represents p.terrain p.decision.id w configs)
    {ends : List Configuration} (hends : ends ⊆ configs) {r : Resolution}
    (h : resolution p ends = some r) :
    r.WellFormed (p.terrain.network.entriesOf p.decision.id).length p.decision.exit? := by
  refine Resolution.wellFormed_ofWays h fun alt halt => ordinal_of_mem hw ?_
  rw [List.map_map] at halt
  exact List.map_subset _ hends halt

/-- Each state of a built automaton is well formed. -/
theorem wellFormed_state (sound : p.terrain.Sound) (h : outcome p = (.ok (), site))
    (hid : site.states[id]? = some (configs, state)) :
    state.WellFormed site.states.length (p.terrain.network.entriesOf p.decision.id).length
      p.decision.exit? := by
  obtain ⟨hbuilt, _⟩ := built_of_outcome h
  have hmade := hbuilt.made id configs state hid
  obtain ⟨w, hw⟩ := exists_represents sound h (Site.known_of_states hid)
  obtain ⟨ts, htidy, hts⟩ := hmade.exists_tidy
  refine ⟨fun t ht => ?_, fun t ht => ?_, ?_, ?_, fun x t => ?_, fun t ht g hg => ?_,
    fun hsome => ?_, fun r hr => ?_⟩
  · obtain ⟨_, _, htarget, _⟩ := exists_reached_of_mem hbuilt hid ht
    rw [← site.length_known]
    exact (List.getElem?_eq_some_iff.mp htarget).1
  · exact htidy.bounds t (List.mem_reverse.mp (hts ▸ ht))
  · rw [hts, List.pairwise_reverse]
    exact htidy.above.imp fun habove => UInt32.lt_iff_toNat_lt.mpr habove.1
  · rw [hts, List.pairwise_reverse]
    exact htidy.above.imp fun habove htouch => not_and_or.mp fun ⟨htarget, hgate⟩ =>
      habove.2 htouch htarget hgate
  · rw [edge?_eq_some_iff htidy hts, hts, List.mem_reverse]
    exact Iff.rfl
  · obtain ⟨reached, hne, htarget, hgate⟩ := exists_reached_of_mem hbuilt hid ht
    obtain ⟨_, hreached⟩ := exists_represents sound h htarget
    exact proper_of_gateOf hreached hne (hgate.symm.trans hg)
  · cases hmade with
    | dead | only | conflict => exact ⟨rfl, rfl⟩
    | looking => cases hsome
  · cases hmade with
    | dead => rcases hr with hr | hr <;> cases hr
    | only halts =>
      rcases hr with hr | hr
      · obtain rfl := Option.some.inj hr
        exact wellFormed_onlyOne hw halts
      · cases hr
    | conflict =>
      rcases hr with hr | hr
      · exact wellFormed_resolution hw (fun _ hc => hc) hr
      · cases hr
    | looking =>
      rcases hr with hr | hr
      · cases hr
      · have hr : resolutionAtEnd p configs = some r := hr
        unfold resolutionAtEnd at hr
        dsimp only at hr
        split at hr
        · cases hr
        · exact wellFormed_resolution hw List.filter_sublist.subset hr

theorem wellFormed_of_mem_states (sound : p.terrain.Sound) (h : outcome p = (.ok (), site))
    (hs : state ∈ (site.automaton p).states) :
    state.WellFormed (site.automaton p).states.length
      (p.terrain.network.entriesOf p.decision.id).length p.decision.exit? := by
  obtain ⟨⟨configs, state⟩, hmem, rfl⟩ := List.mem_map.mp hs
  obtain ⟨id, hid⟩ := List.getElem?_of_mem hmem
  rw [show (site.automaton p).states.length = site.states.length from List.length_map ..]
  exact wellFormed_state sound h hid

/-- Predictions of built automata are foreseen. -/
theorem sound_automaton (sound : p.terrain.Sound) (h : outcome p = (.ok (), site)) :
    (site.automaton p).Sound where
  bounds _ hs := (wellFormed_of_mem_states sound h hs).bounds
  ascending _ hs := (wellFormed_of_mem_states sound h hs).ascending
  targets _ hs := (wellFormed_of_mem_states sound h hs).targets

/-- A conflict ends the prediction. -/
theorem isSome_terminal_of_conflict (sound : p.terrain.Sound) (h : outcome p = (.ok (), site))
    (hid : site.states[id]? = some (configs, state)) (hne : configs ≠ [])
    (hconflict : Configuration.isConflict configs = true) : state.terminal.isSome = true := by
  obtain ⟨hbuilt, _⟩ := built_of_outcome h
  obtain ⟨w, hw⟩ := exists_represents sound h (Site.known_of_states hid)
  cases hbuilt.made id configs state hid with
  | dead halts => exact absurd (alternatives_eq_nil_iff.mp halts) hne
  | only => rfl
  | conflict => exact isSome_resolution hw (List.Subset.refl _) hne
  | looking _ hlooking => exact absurd (hconflict.symm.trans hlooking) Bool.noConfusion

/-- What has been built is well formed. -/
theorem wellFormed_automaton (sound : p.terrain.Sound) (h : outcome p = (.ok (), site))
    (hcount : (p.terrain.network.entriesOf p.decision.id).length = p.decision.altCount) :
    (site.automaton p).WellFormed p.maxStates p.decision.exit? := by
  obtain ⟨hbuilt, configs, hstart, _⟩ := built_of_outcome h
  have hlength : (site.automaton p).states.length = site.states.length := List.length_map ..
  refine ⟨?_, ?_, fun s hs => ?_, fun id hid => exists_walk h (hlength ▸ hid)⟩
  · have := (List.getElem?_eq_some_iff.mp hstart).1
    rw [site.length_known] at this
    omega
  · rw [hlength]
    exact hbuilt.count
  · rw [show (site.automaton p).altCount = _ from hcount.symm]
    exact wellFormed_of_mem_states sound h hs

end Construction

/-! ### Analysed grammars -/

/-- A decision has as many entries as alternatives. -/
theorem Grammar.WellFormed.length_entriesOf {g : Grammar} (hwf : g.WellFormed) {d : Decision}
    (hd : d ∈ g.decisions) : ((Network.ofGrammar g).entriesOf d.id).length = d.altCount := by
  obtain ⟨kind, as, he, _, hcount⟩ := hwf.exists_block hd
  rw [Network.length_entriesOf hwf he, hcount]

open Construction in
/-- **Built automata are well formed.** A conflict ends the prediction, and a prediction comes
only to alternatives of the decision. -/
theorem automatonOf_wellFormed {definition : GrammarDefinition} {a : Analyzer}
    (hgrammar : definition.build = .ok a.grammar) {d : Decision} (hd : d ∈ a.grammar.decisions)
    {site : Site} (hsite : outcome (a.plan a.terrain d) = (.ok (), site)) :
    (a.automatonOf d site).WellFormed a.config.maxStates d.exit? ∧
      (∀ id configs state, site.states[id]? = some (configs, state) → configs ≠ [] →
        Configuration.isConflict configs = true →
          (a.automatonOf d site).state id = state ∧ state.terminal.isSome = true) ∧
      ∀ {σ α : Type} [Symbolic α] (test : Predicate → StateM σ Bool) (input : Stream α) (s : σ) alt,
        (((a.automatonOf d site).predict test input).run s).1.result = .ok alt →
          1 ≤ alt ∧ alt ≤ d.altCount := by
  have sound := Analyzer.sound_terrain hgrammar
  have hcount : (a.terrain.network.entriesOf d.id).length = d.altCount :=
    (definition.wellFormed_of_build hgrammar).length_entriesOf hd
  refine ⟨wellFormed_automaton sound hsite hcount, fun id configs state hid hne hconflict => ?_,
    fun test input s alt hpredict => ?_⟩
  · exact ⟨state_automaton hid, isSome_terminal_of_conflict sound hsite hid hne hconflict⟩
  · rw [← hcount]
    exact predict_mem_range sound hsite hpredict

/-! ### A loop whose alternatives conflict -/

/-- A loop over `A` in two ways, one behind a gate and one behind a predicate, with an `A`
after the loop. -/
def guardedLoop : GrammarDefinition where
  name := "GuardedLoop"
  kind := .parser
  rules := [⟨"s", .seq [.repeated .star (.choice [
    .seq [.predicate "fast" .gated none, .ref "A"],
    .seq [.predicate "slow" .validating none, .ref "A"]]), .ref "A"], false⟩]
  tokens := []

def guardedLoopAnalyzer : Analyzer := ⟨guardedLoop.grammar, .standard, none⟩

def guardedLoopDecision : Decision := ⟨0, 0, .star, 3⟩

def guardedLoopSite : Construction.Site :=
  (Construction.outcome
    (guardedLoopAnalyzer.plan guardedLoopAnalyzer.terrain guardedLoopDecision)).2

theorem guardedLoop_builds : guardedLoop.build = .ok guardedLoopAnalyzer.grammar :=
  GrammarDefinition.build_eq_ok (by decide +kernel)

theorem guardedLoop_outcome :
    Construction.outcome
        (guardedLoopAnalyzer.plan guardedLoopAnalyzer.terrain guardedLoopDecision) =
      (.ok (), guardedLoopSite) :=
  Construction.outcome_eq_ok (by decide +kernel)

/-- After `A A` the alternatives of the loop conflict, and the state decides between them. -/
theorem automatonOf_wellFormed_guardedLoop :
    let a := guardedLoopAnalyzer.automatonOf guardedLoopDecision guardedLoopSite
    guardedLoopDecision ∈ guardedLoopAnalyzer.grammar.decisions ∧ a.WellFormed 4096 (some 3) ∧
      a.walk Automaton.start [4, 4] = some 2 ∧ (a.state 2).terminal.isSome = true ∧
      ∀ (test : Predicate → StateM Nat Bool) (input : Stream Token) (s : Nat) alt,
        ((a.predict test input).run s).1.result = .ok alt → 1 ≤ alt ∧ alt ≤ 3 := by
  intro a
  have hmem : guardedLoopDecision ∈ guardedLoopAnalyzer.grammar.decisions := by decide +kernel
  obtain ⟨hwf, hconflict, hpredict⟩ :=
    automatonOf_wellFormed guardedLoop_builds hmem guardedLoop_outcome
  have hstate : (guardedLoopSite.states[2]?.any fun s =>
      s.1 != [] && Configuration.isConflict s.1) = true := by decide +kernel
  refine ⟨hmem, hwf, by decide +kernel, ?_, hpredict⟩
  cases hs : guardedLoopSite.states[2]? with
  | none => simp [hs] at hstate
  | some s =>
    rw [hs, Option.any_some, Bool.and_eq_true, bne_iff_ne] at hstate
    obtain ⟨hid, hsome⟩ := hconflict 2 s.1 s.2 hs hstate.1 hstate.2
    exact hid ▸ hsome

end Lookahead
