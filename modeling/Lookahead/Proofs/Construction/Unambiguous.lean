import Lookahead.Proofs.Prediction

/-! Predictions that lookahead alone decides.

Where there are no predicates, no configuration has a condition, so states with several
alternatives look further or note an ambiguity. If none has been noted, an alternative that has
a run through all of the symbols ahead, up to where the input may end, is the one that is
predicted. -/
namespace Lookahead

theorem Guard.foldl_or_always {gs : List Guard} (h : ∀ g ∈ gs, g = .always) :
    gs.foldl Guard.or .always = .always := by
  induction gs with
  | nil => rfl
  | cons g gs ih =>
    obtain rfl := h g (.head _)
    exact ih fun g hg => h g (.tail _ hg)

/-- A disjunction of conditions that always hold always holds. -/
theorem Guard.foldl_or_never {gs : List Guard} (h : ∀ g ∈ gs, g = .always) (hne : gs ≠ []) :
    gs.foldl Guard.or .never = .always := by
  cases gs with
  | nil => exact absurd rfl hne
  | cons g gs =>
    obtain rfl := h g (.head _)
    exact foldl_or_always fun g hg => h g (.tail _ hg)

/-- No configuration has a condition. -/
def Configuration.Unconditional (configs : List Configuration) : Prop :=
  ∀ c ∈ configs, c.conditions = .none

/-- Where the gates of all configurations are open, there is no gate. -/
theorem Configuration.gateOf_eq_none {configs : List Configuration}
    (h : ∀ c ∈ configs, c.conditions.gate = .always) (hne : configs ≠ []) :
    gateOf configs = none := by
  have hgate : ((configs.map (·.conditions.gate)).foldl Guard.or .never) = .always := by
    refine Guard.foldl_or_never (fun g hg => ?_) (by rwa [ne_eq, List.map_eq_nil_iff])
    obtain ⟨c, hc, rfl⟩ := List.mem_map.mp hg
    exact h c hc
  rw [gateOf, hgate]
  rfl

theorem Configuration.Unconditional.gateOf {configs : List Configuration}
    (h : Unconditional configs) (hne : configs ≠ []) : gateOf configs = none :=
  gateOf_eq_none (fun c hc => by rw [h c hc]; rfl) hne

namespace Construction
variable {p : Plan} {site : Site} {configs : List Configuration} {state : State}

theorem conditionsOf_eq_none {t : Terrain} (h : t.predicates = []) (ids : List PredicateId) :
    Closure.conditionsOf t ids = .none := by
  have hguard (ids : List PredicateId) : Closure.guardOf t ids = .always := by
    have hnone : ids.filterMap (fun id => t.predicates[id]?) = [] := by
      rw [List.filterMap_eq_nil_iff, h]
      exact fun _ _ => rfl
    rw [Closure.guardOf, Closure.leaves, hnone]
    rfl
  rw [Closure.conditionsOf, hguard, hguard]
  rfl

/-- Without gates no way has one. -/
theorem gate_conditionsOf {t : Terrain} (h : ∀ q ∈ t.predicates, q.isGated = false)
    (ids : List PredicateId) : (Closure.conditionsOf t ids).gate = .always := by
  have hnone : ids.filter t.isGated = [] := by
    refine List.filter_eq_nil_iff.mpr fun id _ hid => ?_
    cases hq : t.predicates[id]? with
    | none => simp [Terrain.isGated, hq] at hid
    | some q => simp [Terrain.isGated, hq, h q (List.mem_of_getElem? hq)] at hid
  show Closure.guardOf t (ids.filter t.isGated) = .always
  rw [hnone]
  rfl

/-- Transitions have no gates where no predicate is one. -/
theorem gate_eq_none_of_ungated (sound : p.terrain.Sound) (h : outcome p = (.ok (), site))
    (hungated : ∀ q ∈ p.terrain.predicates, q.isGated = false) {w : List Symbol} {id : StateId}
    {x : Symbol} {t : Transition} (hwalk : (site.automaton p).walk Automaton.start w = some id)
    (hstate : site.states[id]? = some (configs, state)) (ht : state.edge? x = some t) :
    (site.automaton p).walk Automaton.start (w ++ [x]) = some t.target ∧ t.gate = none := by
  have hnext : (site.automaton p).walk Automaton.start (w ++ [x]) = some t.target := by
    rw [Automaton.walk_snoc, hwalk, Option.bind_some, state_automaton hstate, State.next?, ht]
    rfl
  obtain ⟨_, _, _, reached, _, hne, hknown, hgate⟩ :=
    reached_of_edge? (built_of_outcome h).1 hstate ht
  have hor (c d : Conditions) (hc : c.gate = .always) (hd : d.gate = .always) :
      (c.or d).gate = .always := by
    rw [Conditions.or, hc, hd]
    rfl
  obtain ⟨_, hknown', _, hreached⟩ :=
    conditions_of_walk sound h hor (gate_conditionsOf hungated) hnext
  obtain rfl := Option.some.inj (hknown.symm.trans hknown')
  exact ⟨hnext, hgate.trans (Configuration.gateOf_eq_none hreached hne)⟩

/-- Without predicates, words lead to states without conditions. -/
theorem unconditional_of_walk (sound : p.terrain.Sound) (h : outcome p = (.ok (), site))
    (hpredicates : p.terrain.predicates = []) {w : List Symbol} {id : StateId}
    (hwalk : (site.automaton p).walk Automaton.start w = some id) :
    ∃ configs, site.known[id]? = some configs ∧ Represents p.terrain p.decision.id w configs ∧
      Configuration.Unconditional configs := by
  have hor (c d : Conditions) (hc : c = .none) (hd : d = .none) : c.or d = .none := by
    subst hc hd
    rfl
  exact conditions_of_walk sound h hor (conditionsOf_eq_none hpredicates) hwalk

/-- Without conditions a resolution leaves no alternative out and asks for no guard. -/
theorem resolution_alternatives (h : Configuration.Unconditional configs) {r : Resolution}
    (hr : resolution p configs = some r) :
    (∀ c ∈ configs, c.alt ∈ r.alternatives) ∧ ∀ candidates, r ≠ .predicated candidates := by
  have hways : ∀ way ∈ configs.map (fun c => (c.alt, c.conditions.context)), way.2 = .always := by
    intro way hway
    obtain ⟨d, hd, rfl⟩ := List.mem_map.mp hway
    show d.conditions.context = .always
    rw [h d hd]
    rfl
  have hguard {alt : Ordinal}
      (halt : alt ∈ (configs.map fun c => (c.alt, c.conditions.context)).map (·.1)) :
      guardTo (configs.map fun c => (c.alt, c.conditions.context)) alt = .always := by
    obtain ⟨way, hway, rfl⟩ := List.mem_map.mp halt
    refine Guard.foldl_or_never (fun g hg => ?_) ?_
    · obtain ⟨way', hway', rfl⟩ := List.mem_map.mp hg
      exact hways way' (List.mem_filter.mp hway').1
    · refine List.ne_nil_of_mem (List.mem_map_of_mem (List.mem_filter.mpr ⟨hway, ?_⟩))
      exact beq_self_eq_true way.1
  refine ⟨fun c hc => ?_, fun candidates hpredicated => ?_⟩
  · have hway : c.alt ∈ (configs.map fun c => (c.alt, c.conditions.context)).map (·.1) :=
      List.mem_map_of_mem (List.mem_map_of_mem hc)
    rw [Resolution.alternatives_ofWays hr]
    exact List.mem_map.mpr ⟨⟨c.alt, none, p.decision.exit? == some c.alt⟩, Candidate.mem_ofWays.mpr
      ⟨hway, by rw [hguard hway]; exact Guard.noConfusion, by rw [hguard hway]; rfl, rfl⟩, rfl⟩
  · subst hpredicated
    obtain ⟨rfl, d, hd, hdguard⟩ := Resolution.exists_guard_of_predicated hr
    obtain ⟨hdalt, _, hnone, _⟩ := Candidate.mem_ofWays.mp hd
    rw [hguard hdalt] at hnone
    exact absurd hnone hdguard

/-- Without conditions a resolution is for the only alternative or an ambiguity. -/
theorem resolution_unconditional (h : Configuration.Unconditional configs)
    (hunambiguous : ∀ chosen alternatives,
      resolution p configs ≠ some (.ambiguous chosen alternatives))
    {c : Configuration} (hc : c ∈ configs) : resolution p configs = some (.unique c.alt) := by
  have hway : (c.alt, c.conditions.context) ∈ configs.map fun c => (c.alt, c.conditions.context) :=
    List.mem_map_of_mem hc
  obtain ⟨r, hr⟩ := Option.isSome_iff_exists.mp
    (Resolution.isSome_ofWays (d := p.decision) (v := fun _ => true) hway (by rw [h c hc]; rfl))
  obtain ⟨halternatives, hpredicated⟩ := resolution_alternatives h hr
  cases r with
  | unique alt =>
    obtain rfl := List.mem_singleton.mp (halternatives c hc)
    exact hr
  | ambiguous chosen alternatives => exact absurd hr (hunambiguous chosen alternatives)
  | predicated candidates => exact absurd rfl (hpredicated candidates)

section
variable {known : List (List Configuration)} {id : StateId} {c : Configuration}

/-- A state that decides, decides for the alternative of any of its configurations. -/
theorem Made.terminal_eq (h : Made p known id configs state)
    (hconfigs : Configuration.Unconditional configs)
    (hunambiguous : ∀ alternatives, ¬ state.Ambiguous alternatives) (hc : c ∈ configs)
    {r : Resolution} (hr : state.terminal = some r) : r = .unique c.alt := by
  cases h with
  | dead | looking => exact nomatch hr
  | @only alt halts =>
    obtain rfl := Option.some.inj hr
    have halt : c.alt ∈ Configuration.alternatives configs :=
      mem_distinctRuns.mpr (List.mem_map_of_mem hc)
    rw [halts] at halt
    rw [List.mem_singleton.mp halt, onlyOne, hconfigs.gateOf (List.ne_nil_of_mem hc)]
  | conflict =>
    have hresolution := resolution_unconditional (p := p) hconfigs
      (fun chosen alternatives h => hunambiguous alternatives ⟨chosen, .inr h⟩) hc
    exact Option.some.inj (hr.symm.trans hresolution)

/-- A state that does not decide accepts where one of its configurations does. -/
theorem Made.accept_eq (h : Made p known id configs state)
    (hconfigs : Configuration.Unconditional configs)
    (hunambiguous : ∀ alternatives, ¬ state.Ambiguous alternatives) (hc : c ∈ configs)
    (hterminal : state.terminal = none) (haccept : c.accept = true) :
    state.accept = some (.unique c.alt) := by
  cases h with
  | dead halts => exact absurd (alternatives_eq_nil_iff.mp halts) (List.ne_nil_of_mem hc)
  | only => exact nomatch hterminal
  | conflict =>
    have hresolution := resolution_unconditional (p := p) hconfigs
      (fun chosen alternatives h => hunambiguous alternatives ⟨chosen, .inr h⟩) hc
    exact nomatch hterminal.symm.trans hresolution
  | looking =>
    have hmem : c ∈ configs.filter (·.accept) := List.mem_filter.mpr ⟨hc, haccept⟩
    have hends := resolutionAtEnd_eq (p := p) hc haccept
    refine hends.trans (resolution_unconditional (fun d hd => ?_) (fun chosen alternatives h => ?_) hmem)
    · exact hconfigs d (List.mem_filter.mp hd).1
    · exact hunambiguous alternatives ⟨chosen, .inl (hends.trans h)⟩

end

section
variable (sound : p.terrain.Sound) (h : outcome p = (.ok (), site))
  (hpredicates : p.terrain.predicates = [])
include sound h hpredicates

/-- Transitions have no gates. -/
theorem gate_eq_none {w : List Symbol} {id : StateId} {x : Symbol} {t : Transition}
    (hwalk : (site.automaton p).walk Automaton.start w = some id)
    (hstate : site.states[id]? = some (configs, state)) (ht : state.edge? x = some t) :
    (site.automaton p).walk Automaton.start (w ++ [x]) = some t.target ∧ t.gate = none :=
  gate_eq_none_of_ungated sound h (by rw [hpredicates]; exact nofun) hwalk hstate ht

variable (hunambiguous : site.ambiguities = [])
include hunambiguous

/-- Where a live run of an alternative has read a word, a configuration of the state that the
word leads to has its alternative and position. -/
theorem exists_configuration_of_run {w : List Symbol} {id : StateId}
    (hwalk : (site.automaton p).walk Automaton.start w = some id) {alt : Ordinal}
    {ps : List Passage} {q : Position} (hrun : LookaheadRun p.terrain p.decision.id alt ps q)
    (hlive : q.Live p.terrain) (hsymbols : Passage.symbols ps = w) :
    ∃ configs state, site.states[id]? = some (configs, state) ∧
      Made p site.known id configs state ∧ Represents p.terrain p.decision.id w configs ∧
      Configuration.Unconditional configs ∧ (∀ alternatives, ¬ state.Ambiguous alternatives) ∧
      ∃ c ∈ configs, c.alt = alt ∧ c.position = q := by
  have hbuilt := (built_of_outcome h).1
  obtain ⟨configs, hknown, hw, hconfigs⟩ := unconditional_of_walk sound h hpredicates hwalk
  obtain ⟨state, hstate⟩ := getElem?_of_known hknown
  refine ⟨configs, state, hstate, hbuilt.made id configs state hstate, hw, hconfigs,
    fun alternatives hambiguous => ?_, hw.exists_configuration hlive hrun hsymbols⟩
  have hnoted := (hbuilt.ambiguities alternatives).mpr ⟨id, _, hstate, hambiguous⟩
  rw [hunambiguous] at hnoted
  exact nomatch hnoted

/-- The alternative of a run through all symbols ahead is predicted. -/
theorem predictFrom_eq {σ α : Type} [Symbolic α] {alt : Ordinal} {ps : List Passage} {q : Position}
    (hrun : LookaheadRun p.terrain p.decision.id alt ps q) (haccepting : q.Accepting p.terrain)
    {test : Predicate → StateM σ Bool} {inquiry : Inquiry σ} {w : List Symbol} {ahead : List α}
    {id : StateId} {index : Nat} (hwalk : (site.automaton p).walk Automaton.start w = some id)
    (hsymbols : Passage.symbols ps = w ++ ahead.map Symbolic.symbol) :
    ((site.automaton p).predictFrom test id index ahead).run inquiry =
      (⟨.ok alt, none⟩, inquiry) := by
  induction ahead generalizing w id index with
  | nil =>
    rw [List.map_nil, List.append_nil] at hsymbols
    obtain ⟨configs, state, hstate, hmade, hw, hconfigs, hnone, c, hc, rfl, hposition⟩ :=
      exists_configuration_of_run sound h hpredicates hunambiguous hwalk hrun (.inr haccepting) hsymbols
    simp only [Automaton.predictFrom, state_automaton hstate]
    cases hterminal : state.terminal with
    | some r =>
      rw [hmade.terminal_eq hconfigs hnone hc hterminal]
      rfl
    | none =>
      have haccept := (hw.accept c hc).mpr (hposition ▸ haccepting)
      simp only [Automaton.settleHere, hmade.accept_eq hconfigs hnone hc hterminal haccept]
      rfl
  | cons item ahead ih =>
    obtain ⟨qs, q', hrun', hqs, hlive⟩ := hrun.exists_prefix (.inr haccepting) hsymbols
    obtain ⟨configs, state, hstate, hmade, hw, hconfigs, hnone, c, hc, rfl, _⟩ :=
      exists_configuration_of_run sound h hpredicates hunambiguous hwalk hrun' hlive hqs
    simp only [Automaton.predictFrom, state_automaton hstate]
    cases hterminal : state.terminal with
    | some r =>
      rw [hmade.terminal_eq hconfigs hnone hc hterminal]
      rfl
    | none =>
      rw [List.map_cons, ← List.singleton_append, ← List.append_assoc] at hsymbols
      obtain ⟨_, _, hnext, hsnoc, hlive'⟩ := hrun.exists_prefix (.inr haccepting) hsymbols
      obtain ⟨t, ht⟩ := exists_edge?_of_run sound (built_of_outcome h).1 hstate hterminal hw hlive'
        hnext hsnoc
      obtain ⟨hwalk', hgate⟩ := gate_eq_none sound h hpredicates hwalk hstate ht
      simp only [ht, Inquiry.isOpen, hgate, pure_bind, if_true]
      exact ih hwalk' hsymbols

/-- Without predicates and ambiguities, the alternative whose run reads all that is ahead is
predicted, and the host is not asked. -/
theorem predict_eq {σ α : Type} [Symbolic α] {alt : Ordinal} {ps : List Passage} {q : Position}
    (hrun : LookaheadRun p.terrain p.decision.id alt ps q) (haccepting : q.Accepting p.terrain)
    {input : Stream α} (hsymbols : Passage.symbols ps = input.ahead.map Symbolic.symbol)
    (test : Predicate → StateM σ Bool) (host : σ) :
    ((site.automaton p).predict test input).run host = (⟨.ok alt, none⟩, host) := by
  have hpredict : ((site.automaton p).predictFrom test Automaton.start input.index
      input.ahead).run ⟨host, []⟩ = (⟨.ok alt, none⟩, ⟨host, []⟩) :=
    predictFrom_eq sound h hpredicates hunambiguous hrun haccepting (w := []) rfl hsymbols
  exact congrArg (fun answer => (answer.1, answer.2.host)) hpredict

end
end Construction
end Lookahead
