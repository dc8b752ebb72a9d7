import Lookahead.Proofs.Closure.Exact
import Lookahead.Proofs.Construction.Made
import Lookahead.Proofs.Construction.Transitions
import Lookahead.Proofs.Resolving

/-! Walking a built automaton.

A state that a word leads to represents the word: its configurations are the live ends of
the runs that read it. The step from a word to one with one more symbol is the closure of
what the configurations read, on the range that has the symbol. -/
namespace Lookahead

/-- Where a word leads, gates aside. -/
def Automaton.walk (a : Automaton) (id : StateId) : List Symbol → Option StateId
  | [] => some id
  | x :: xs => ((a.state id).next? x).bind fun id => a.walk id xs

theorem Automaton.walk_append (a : Automaton) (id : StateId) (u v : List Symbol) :
    a.walk id (u ++ v) = (a.walk id u).bind fun id => a.walk id v := by
  induction u generalizing id with
  | nil => rfl
  | cons x u ih =>
    simp only [List.cons_append, walk]
    cases (a.state id).next? x with
    | none => rfl
    | some id => exact ih id

theorem Automaton.walk_snoc (a : Automaton) (id : StateId) (w : List Symbol) (x : Symbol) :
    a.walk id (w ++ [x]) = (a.walk id w).bind fun id => (a.state id).next? x := by
  rw [walk_append]
  congr 1
  funext id
  simp only [walk]
  cases (a.state id).next? x <;> rfl

namespace Construction
variable {p : Plan} {site : Site} {configs : List Configuration} {state : State}

theorem alternatives_eq_nil_iff : Configuration.alternatives configs = [] ↔ configs = [] := by
  constructor
  · intro h
    cases configs with
    | nil => rfl
    | cons c configs =>
      have hmem : c.alt ∈ Configuration.alternatives (c :: configs) :=
        mem_distinctRuns.mpr (.head _)
      rw [h] at hmem
      exact nomatch hmem
  · rintro rfl
    rfl

/-! ### One symbol -/

theorem mem_symbolSets {set : SymbolSet} : set ∈ symbolSets p configs ↔
    ∃ c ∈ configs, ∃ target, .symbols set target ∈ p.terrain.network.edgesOf c.node := by
  simp only [symbolSets, List.mem_flatMap, List.mem_filterMap]
  refine exists_congr fun c => and_congr_right fun _ => ?_
  constructor
  · rintro ⟨e, he, hset⟩
    split at hset
    · obtain rfl := Option.some.inj hset
      exact ⟨_, he⟩
    · exact nomatch hset
  · rintro ⟨target, he⟩
    exact ⟨_, he, rfl⟩

/-- A range that the configurations read is inside or outside each set that they read. -/
theorem covers_iff_of_mem_partition {range : SymbolRange} {x : Symbol}
    (hrange : range ∈ SymbolSet.partition (symbolSets p configs)) (hx : x ∈ range) :
    ∀ c ∈ configs, ∀ set target, .symbols set target ∈ p.terrain.network.edgesOf c.node →
      (set.covers range.lo range.hi = true ↔ x ∈ set) :=
  fun c hc _ target he => SymbolSet.covers_iff_mem hrange (mem_symbolSets.mpr ⟨c, hc, target, he⟩) hx

section Looking
variable {known : List (List Configuration)} {ranges : List SymbolRange}
  {new : List (List Transition)}

theorem exists_range_of_mem_flatten (hnew : List.Forall₂ (OnRange p known configs) ranges new)
    {t : Transition} (ht : t ∈ new.flatten) :
    ∃ range ∈ ranges, ∃ ts, OnRange p known configs range ts ∧ t ∈ ts := by
  induction hnew with
  | nil => exact nomatch ht
  | cons hrange _ ih =>
    rcases List.mem_append.mp ht with ht | ht
    · exact ⟨_, .head _, _, hrange, ht⟩
    · obtain ⟨range, hmem, h⟩ := ih ht
      exact ⟨range, .tail _ hmem, h⟩

theorem exists_onRange (hnew : List.Forall₂ (OnRange p known configs) ranges new)
    {range : SymbolRange} (hrange : range ∈ ranges) :
    ∃ ts, OnRange p known configs range ts ∧ ∀ t ∈ ts, t ∈ new.flatten := by
  induction hnew with
  | nil => exact nomatch hrange
  | cons hfirst _ ih =>
    rcases List.mem_cons.mp hrange with rfl | hrange
    · exact ⟨_, hfirst, fun t ht => List.mem_append_left _ ht⟩
    · obtain ⟨ts, hts, hall⟩ := ih hrange
      exact ⟨ts, hts, fun t ht => List.mem_append_right _ (hall t ht)⟩

theorem OnRange.bounds {range : SymbolRange} {ts : List Transition}
    (h : OnRange p known configs range ts) {t : Transition} (ht : t ∈ ts) :
    t.lo = range.lo ∧ t.hi = range.hi := by
  obtain ⟨_, _, ⟨_, rfl⟩ | ⟨_, _, _, rfl⟩⟩ := h
  · exact nomatch ht
  · rw [List.mem_singleton.mp ht]
    exact ⟨rfl, rfl⟩

/-- On ascending ranges the transitions ascend. -/
theorem pairwise_flatten (hnew : List.Forall₂ (OnRange p known configs) ranges new)
    (hranges : ranges.Pairwise fun r s => r.hi.toNat < s.lo.toNat) :
    new.flatten.Pairwise fun t u => t.hi.toNat < u.lo.toNat := by
  induction hnew with
  | nil => exact .nil
  | cons hfirst hrest ih =>
    obtain ⟨hlater, hranges⟩ := List.pairwise_cons.mp hranges
    refine List.pairwise_append.mpr ⟨?_, ih hranges, fun t ht u hu => ?_⟩
    · obtain ⟨_, _, ⟨_, rfl⟩ | ⟨_, _, _, rfl⟩⟩ := hfirst
      · exact .nil
      · exact List.pairwise_singleton ..
    · obtain ⟨range, hrange, ts, hts, hu⟩ := exists_range_of_mem_flatten hrest hu
      rw [(hfirst.bounds ht).2, (hts.bounds hu).1]
      exact hlater range hrange

theorem tidy_looking {sets : List SymbolSet}
    (hnew : List.Forall₂ (OnRange p known configs) (SymbolSet.partition sets) new) :
    Tidy (joinAll new.flatten []) ∧ ∀ x target gate,
      LeadsTo (joinAll new.flatten []) x target gate ↔ LeadsTo new.flatten x target gate := by
  have hbounds : ∀ t ∈ new.flatten, t.lo.toNat ≤ t.hi.toNat := fun t ht => by
    obtain ⟨range, hrange, ts, hts, ht⟩ := exists_range_of_mem_flatten hnew ht
    rw [(hts.bounds ht).1, (hts.bounds ht).2]
    exact SymbolSet.lo_le_hi_of_mem_partition hrange
  have hnil : Tidy [] := ⟨nofun, .nil⟩
  have h := tidy_joinAll (pairwise_flatten hnew (SymbolSet.partition_pairwise sets)) hbounds hnil
    fun _ _ _ hu => nomatch hu
  rwa [List.append_nil] at h

/-- Where a state leads on a symbol is what the closure reaches on its range. -/
theorem exists_of_edge? {sets : List SymbolSet}
    (hnew : List.Forall₂ (OnRange p known configs) (SymbolSet.partition sets) new)
    (hstate : state.transitions = (joinAll new.flatten []).reverse) {x : Symbol} {t : Transition}
    (h : state.edge? x = some t) :
    ∃ range ∈ SymbolSet.partition sets, x ∈ range ∧ ∃ reached,
      Closure.ofSteps p.terrain (Configuration.read p.terrain range.lo range.hi configs) =
        .ok reached ∧ reached ≠ [] ∧ known[t.target]? = some reached ∧
      t.gate = Configuration.gateOf reached := by
  obtain ⟨htidy, hleads⟩ := tidy_looking hnew
  obtain ⟨ht, hx⟩ := (edge?_eq_some_iff htidy hstate).mp h
  obtain ⟨u, hu, hux, htarget, hgate⟩ := (hleads x t.target t.gate).mp ⟨t, ht, hx, rfl, rfl⟩
  obtain ⟨range, hrange, ts, hts, hu⟩ := exists_range_of_mem_flatten hnew hu
  obtain ⟨reached, hreached, ⟨_, rfl⟩ | ⟨hne, target, hknown, rfl⟩⟩ := hts
  · exact nomatch hu
  · obtain rfl := List.mem_singleton.mp hu
    exact ⟨range, hrange, SymbolRange.mem_iff.mpr hux, reached, hreached, hne, htarget ▸ hknown,
      hgate.symm⟩

/-- The closure does not fail on any range, and what it reaches is where the state leads. -/
theorem exists_edge? (state : State) {sets : List SymbolSet}
    (hnew : List.Forall₂ (OnRange p known configs) (SymbolSet.partition sets) new)
    (hstate : state.transitions = (joinAll new.flatten []).reverse) {x : Symbol}
    {range : SymbolRange} (hrange : range ∈ SymbolSet.partition sets) (hx : x ∈ range) :
    ∃ reached,
      Closure.ofSteps p.terrain (Configuration.read p.terrain range.lo range.hi configs) =
        .ok reached ∧ (reached ≠ [] → ∃ t, state.edge? x = some t ∧
          known[t.target]? = some reached ∧ t.gate = Configuration.gateOf reached) := by
  obtain ⟨htidy, hleads⟩ := tidy_looking hnew
  obtain ⟨ts, ⟨reached, hreached, hts⟩, hflatten⟩ := exists_onRange hnew hrange
  refine ⟨reached, hreached, fun hne => ?_⟩
  rcases hts with ⟨hnil, _⟩ | ⟨_, target, hknown, rfl⟩
  · exact absurd hnil hne
  · obtain ⟨t, ht, htx, rfl, hgate⟩ := (hleads x target _).mpr
      ⟨_, hflatten _ (.head _), SymbolRange.mem_iff.mp hx, rfl, rfl⟩
    exact ⟨t, (edge?_eq_some_iff htidy hstate).mpr ⟨ht, htx⟩, hknown, hgate⟩

end Looking

/-! ### Words -/

/-- A made state leads on only where it looks further. -/
theorem Made.looking_of_edge? {known : List (List Configuration)} {id : StateId}
    (h : Made p known id configs state) {x : Symbol} {t : Transition} (ht : state.edge? x = some t) :
    ∃ new, List.Forall₂ (OnRange p known configs) (SymbolSet.partition (symbolSets p configs)) new ∧
      state.transitions = (joinAll new.flatten []).reverse ∧ state.terminal = none := by
  cases h with
  | dead | only | conflict => exact nomatch ht
  | looking _ _ hnew => exact ⟨_, hnew, rfl, rfl⟩

theorem getElem?_of_known {id : StateId} (h : site.known[id]? = some configs) :
    ∃ state, site.states[id]? = some (configs, state) := by
  rw [Site.known, List.getElem?_map, Option.map_eq_some_iff] at h
  obtain ⟨s, hs, rfl⟩ := h
  exact ⟨s.2, hs⟩

theorem state_automaton {id : StateId} (h : site.states[id]? = some (configs, state)) :
    (site.automaton p).state id = state := by
  rw [Automaton.state, Site.automaton, List.getElem?_map, h]
  rfl

theorem exists_edge?_of_next? {x : Symbol} {target : StateId} (h : state.next? x = some target) :
    ∃ t, state.edge? x = some t ∧ t.target = target :=
  Option.map_eq_some_iff.mp h

/-- The state that a symbol leads to has the configurations that are reached by reading it. -/
theorem reached_of_edge? (hbuilt : Built p site) {id : StateId}
    (hid : site.states[id]? = some (configs, state)) {x : Symbol} {t : Transition}
    (h : state.edge? x = some t) :
    ∃ range ∈ SymbolSet.partition (symbolSets p configs), x ∈ range ∧ ∃ reached,
      Closure.ofSteps p.terrain (Configuration.read p.terrain range.lo range.hi configs) =
        .ok reached ∧ reached ≠ [] ∧ site.known[t.target]? = some reached ∧
      t.gate = Configuration.gateOf reached := by
  obtain ⟨new, hnew, hstate, _⟩ := (hbuilt.made id configs state hid).looking_of_edge? h
  exact exists_of_edge? hnew hstate h

/-- What holds of the configurations at the start and is kept where symbols are read, holds
of those of the state that a word leads to. -/
theorem known_of_walk (h : outcome p = (.ok (), site))
    {P : List Symbol → List Configuration → Prop}
    (hstart : ∀ configs, Closure.ofEntries p.terrain
      (p.terrain.network.entriesOf p.decision.id) = .ok configs → P [] configs)
    (hstep : ∀ w configs reached range x, P w configs →
      range ∈ SymbolSet.partition (symbolSets p configs) → x ∈ range →
      Closure.ofSteps p.terrain (Configuration.read p.terrain range.lo range.hi configs) =
        .ok reached → reached ≠ [] → P (w ++ [x]) reached)
    {w : List Symbol} {id : StateId}
    (hwalk : (site.automaton p).walk Automaton.start w = some id) :
    ∃ configs, site.known[id]? = some configs ∧ P w configs := by
  obtain ⟨hbuilt, start, hknown, hentries⟩ := built_of_outcome h
  induction w using List.reverseRecOn generalizing id with
  | nil =>
    obtain rfl := Option.some.inj hwalk
    exact ⟨start, hknown, hstart start hentries⟩
  | append_singleton w x ih =>
    rw [Automaton.walk_snoc, Option.bind_eq_some_iff] at hwalk
    obtain ⟨id', hwalk', hnext⟩ := hwalk
    obtain ⟨configs, hconfigs, hw⟩ := ih hwalk'
    obtain ⟨state, hstate⟩ := getElem?_of_known hconfigs
    rw [state_automaton hstate] at hnext
    obtain ⟨t, ht, rfl⟩ := exists_edge?_of_next? hnext
    obtain ⟨range, hrange, hx, reached, hreached, hne, htarget, _⟩ := reached_of_edge? hbuilt hstate ht
    exact ⟨reached, htarget, hstep w configs reached range x hw hrange hx hreached hne⟩

/-- The state that a word leads to represents it. -/
theorem represents_of_walk (sound : p.terrain.Sound) (h : outcome p = (.ok (), site))
    {w : List Symbol} {id : StateId} (hwalk : (site.automaton p).walk Automaton.start w = some id) :
    ∃ configs, site.known[id]? = some configs ∧ (w = [] ∨ configs ≠ []) ∧
      Represents p.terrain p.decision.id w configs := by
  refine known_of_walk h (P := fun w configs =>
    (w = [] ∨ configs ≠ []) ∧ Represents p.terrain p.decision.id w configs) ?_ ?_ hwalk
  · exact fun configs hentries => ⟨.inl rfl, Closure.represents_ofEntries sound hentries⟩
  · rintro w configs reached range x ⟨_, hw⟩ hrange hx hreached hne
    exact ⟨.inr hne, Closure.represents_ofSteps sound hw
      (covers_iff_of_mem_partition hrange hx) hreached⟩

/-- What holds of the conditions that runs collect before the first symbol, and is kept by
disjunction and where symbols are read, holds of the conditions in the state that a word leads
to. -/
theorem forall_conditions_of_walk (sound : p.terrain.Sound) (h : outcome p = (.ok (), site))
    {P : List Symbol → Ordinal × Position → Conditions → Prop}
    (hor : ∀ w x c d, P w x c → P w x d → P w x (c.or d))
    (hpassed : ∀ alt ps q ids, LookaheadRun p.terrain p.decision.id alt ps q →
      Passage.symbols ps = [] → Way.carry (Closure.collectPredicate p.terrain) ps [] = some ids →
        P [] (alt, q) (Closure.conditionsOf p.terrain ids))
    (hread : ∀ w alt x q q' ps r c, P w (alt, q) c → Move p.terrain q [.symbol x] q' →
      Run p.terrain q' ps r → Passage.symbols ps = [] → P (w ++ [x]) (alt, r) c)
    {w : List Symbol} {id : StateId} (hwalk : (site.automaton p).walk Automaton.start w = some id) :
    ∃ configs, site.known[id]? = some configs ∧ Represents p.terrain p.decision.id w configs ∧
      ∀ c ∈ configs, P w c.place c.conditions := by
  refine known_of_walk h (P := fun w configs =>
    Represents p.terrain p.decision.id w configs ∧ ∀ c ∈ configs, P w c.place c.conditions)
    ?_ ?_ hwalk
  · exact fun configs hentries => ⟨Closure.represents_ofEntries sound hentries,
      Closure.forall_ofEntries (hor []) sound hentries hpassed⟩
  · rintro w configs reached range x ⟨hw, hconfigs⟩ hrange hx hreached _
    have hcovers := covers_iff_of_mem_partition hrange hx
    exact ⟨Closure.represents_ofSteps sound hw hcovers hreached,
      Closure.forall_ofSteps (hor _) sound hw hcovers hreached fun c hc q ps r hmove hrun hps =>
        hread w c.alt x c.position q ps r c.conditions (hconfigs c hc) hmove hrun hps⟩

/-- What holds of the conditions of all ways at the start, and is kept by disjunction, holds
of the conditions in each state. -/
theorem conditions_of_walk (sound : p.terrain.Sound) (h : outcome p = (.ok (), site))
    {P : Conditions → Prop} (hor : ∀ c d, P c → P d → P (c.or d))
    (hpassed : ∀ ids, P (Closure.conditionsOf p.terrain ids)) {w : List Symbol} {id : StateId}
    (hwalk : (site.automaton p).walk Automaton.start w = some id) :
    ∃ configs, site.known[id]? = some configs ∧ Represents p.terrain p.decision.id w configs ∧
      ∀ c ∈ configs, P c.conditions :=
  forall_conditions_of_walk sound h (P := fun _ _ => P) (fun _ _ => hor)
    (fun _ _ _ ids _ _ _ => hpassed ids) (fun _ _ _ _ _ _ _ _ hc _ _ _ => hc) hwalk

/-- Some of the configurations that represent a word decide something. -/
theorem isSome_resolution {t : Terrain} {d : DecisionId} {w : List Symbol}
    (hw : Represents t d w configs) {cs : List Configuration} (hsub : cs ⊆ configs)
    (hne : cs ≠ []) : (resolution p cs).isSome := by
  obtain ⟨c, hc⟩ := List.exists_mem_of_ne_nil cs hne
  obtain ⟨_, ps, hrun, hsymbols⟩ := hw.exists_run (hsub hc)
  have hv := (hw.guard c (hsub hc) .context fun _ => true).mpr
    ⟨ps, hrun, hsymbols, fun _ _ _ _ => rfl⟩
  exact Resolution.isSome_ofWays (List.mem_map.mpr ⟨c, hc, rfl⟩) hv

/-- Where a state decides nothing, no configuration of it accepts. -/
theorem Made.accept_eq_false {known : List (List Configuration)} {id : StateId} {t : Terrain}
    {d : DecisionId} {w : List Symbol} (h : Made p known id configs state)
    (hw : Represents t d w configs) (hterminal : state.terminal = none)
    (haccept : state.accept = none) {c : Configuration} (hc : c ∈ configs) : c.accept = false := by
  refine Bool.eq_false_iff.mpr fun hends => ?_
  cases h with
  | dead halts => exact List.ne_nil_of_mem hc (alternatives_eq_nil_iff.mp halts)
  | only => exact nomatch hterminal
  | conflict =>
    have hsome := isSome_resolution (p := p) hw (List.Subset.refl _) (List.ne_nil_of_mem hc)
    rw [show resolution p configs = none from hterminal] at hsome
    exact nomatch hsome
  | looking =>
    have hsome := isSome_resolution (p := p) hw (List.filter_subset_self _)
      (List.ne_nil_of_mem (List.mem_filter.mpr ⟨hc, hends⟩))
    rw [← resolutionAtEnd_eq hc hends, show resolutionAtEnd p configs = none from haccept] at hsome
    exact nomatch hsome

/-- Where a state does not decide, it leads on along each run of the word that it
represents. -/
theorem exists_edge?_of_run (sound : p.terrain.Sound) (hbuilt : Built p site) {id : StateId}
    (hid : site.states[id]? = some (configs, state)) (hterminal : state.terminal = none)
    {w : List Symbol} (hw : Represents p.terrain p.decision.id w configs) {x : Symbol}
    {alt : Ordinal} {ps : List Passage} {q : Position} (hlive : q.Live p.terrain)
    (hrun : LookaheadRun p.terrain p.decision.id alt ps q)
    (hsymbols : Passage.symbols ps = w ++ [x]) : ∃ t, state.edge? x = some t := by
  have hsnoc := (exists_lookaheadRun_snoc_iff (P := fun _ => True)).mp
    ⟨ps, hrun, hsymbols, trivial⟩
  obtain ⟨r, r', ⟨qs, hrun', hsymbols', _⟩, hmove, _⟩ := hsnoc
  obtain ⟨c, hc, _, rfl⟩ :=
    hw.exists_configuration (Position.live_of_move_symbol hmove) hrun' hsymbols'
  have hne : configs ≠ [] := List.ne_nil_of_mem hc
  cases hbuilt.made id configs state hid with
  | dead halts => exact absurd (alternatives_eq_nil_iff.mp halts) hne
  | only => exact nomatch hterminal
  | conflict =>
    have hsome := isSome_resolution (p := p) hw (List.Subset.refl _) hne
    have hnone : resolution p configs = none := hterminal
    rw [hnone] at hsome
    exact nomatch hsome
  | @looking new _ _ hnew =>
    obtain ⟨set, target, he, hx, _⟩ := move_symbol_iff.mp hmove
    obtain ⟨range, hrange, hxr⟩ := SymbolSet.exists_mem_partition_iff.mpr
      ⟨set, mem_symbolSets.mpr ⟨c, hc, target, he⟩, hx⟩
    obtain ⟨reached, hreached, hedge⟩ := exists_edge?
      ⟨(joinAll new.flatten []).reverse, resolutionAtEnd p configs, none⟩ hnew rfl hrange hxr
    have hrep := Closure.represents_ofSteps sound hw (covers_iff_of_mem_partition hrange hxr) hreached
    obtain ⟨c', hc', _⟩ := hrep.exists_configuration hlive hrun hsymbols
    obtain ⟨t, ht, _⟩ := hedge (List.ne_nil_of_mem hc')
    exact ⟨t, ht⟩

/-- A word that a run reads leads to a state, unless it leads to a decision earlier. -/
theorem isSome_walk_of_run (sound : p.terrain.Sound) (h : outcome p = (.ok (), site))
    {w : List Symbol} (hterminal : ∀ u v id, w = u ++ v → v ≠ [] →
      (site.automaton p).walk Automaton.start u = some id →
        ((site.automaton p).state id).terminal = none)
    {alt : Ordinal} {ps : List Passage} {q : Position} (hlive : q.Live p.terrain)
    (hrun : LookaheadRun p.terrain p.decision.id alt ps q) (hsymbols : Passage.symbols ps = w) :
    ((site.automaton p).walk Automaton.start w).isSome := by
  obtain ⟨hbuilt, _⟩ := built_of_outcome h
  induction w using List.reverseRecOn generalizing ps q with
  | nil => rfl
  | append_singleton w x ih =>
    have hsnoc := (exists_lookaheadRun_snoc_iff (P := fun _ => True)).mp
      ⟨ps, hrun, hsymbols, trivial⟩
    obtain ⟨r, r', ⟨qs, hrun', hsymbols', _⟩, hmove, _⟩ := hsnoc
    have hwalk := ih (fun u v id huv hv hu => hterminal u (v ++ [x]) id (by rw [huv, List.append_assoc])
      (by simp) hu) (Position.live_of_move_symbol hmove) hrun' hsymbols'
    obtain ⟨id, hid⟩ := Option.isSome_iff_exists.mp hwalk
    obtain ⟨configs, hconfigs, _, hw⟩ := represents_of_walk sound h hid
    obtain ⟨state, hstate⟩ := getElem?_of_known hconfigs
    have hnone := hterminal w [x] id rfl (by simp) hid
    rw [state_automaton hstate] at hnone
    obtain ⟨t, ht⟩ := exists_edge?_of_run sound hbuilt hstate hnone hw hlive hrun hsymbols
    rw [Automaton.walk_snoc, hid, Option.bind_some, state_automaton hstate, State.next?, ht]
    rfl

end Construction
end Lookahead
