import Lookahead.Proofs.Construction.Walk
import Lookahead.Proofs.Guard.Predicates

/-! Where the predicates in a state come from.

Conditions of several ways are joined, brought into canonical form and kept where symbols are
read, and states share them. Still each predicate that is left in the conditions of a
configuration is one that some run to it passes before the first symbol (`traced_of_walk`). The
guards of resolutions and gates are put together from these conditions, so the same is true of
their predicates. -/
namespace Lookahead

theorem Guard.mem_predicates_or {g h : Guard} {q : Predicate} (hq : q ∈ (g.or h).predicates) :
    q ∈ g.predicates ∨ q ∈ h.predicates := by
  obtain ⟨k, hk, hqk⟩ := Junction.exists_of_mem_predicates_of hq
  rcases List.mem_pair.mp hk with rfl | rfl
  · exact .inl hqk
  · exact .inr hqk

theorem Conditions.mem_predicates_or {c d : Conditions} {aspect : Aspect} {q : Predicate}
    (hq : q ∈ ((c.or d).guard aspect).predicates) :
    q ∈ (c.guard aspect).predicates ∨ q ∈ (d.guard aspect).predicates := by
  cases aspect with
  | context => exact Guard.mem_predicates_or hq
  | gate => exact Guard.mem_predicates_or hq

/-- The predicates of a resolution are those of the guards of its candidates. -/
def Resolution.predicates : Resolution → List Predicate
  | unique _ | ambiguous _ _ => []
  | predicated candidates => Guard.predicatesOf (candidates.filterMap (·.guard))

theorem Resolution.mem_predicates_predicated {cs : List Candidate} {q : Predicate} :
    q ∈ (predicated cs).predicates ↔ ∃ c ∈ cs, ∃ g, c.guard = some g ∧ q ∈ g.predicates := by
  simp only [predicates, Guard.mem_predicatesOf, List.mem_filterMap]
  constructor
  · rintro ⟨g, ⟨c, hc, hg⟩, hq⟩
    exact ⟨c, hc, g, hg, hq⟩
  · rintro ⟨c, hc, g, hg, hq⟩
    exact ⟨g, ⟨c, hc, hg⟩, hq⟩

/-- A resolution has no predicates besides those of the ways. -/
theorem Resolution.exists_of_mem_predicates {d : Decision} {ways : List (Ordinal × Guard)}
    {r : Resolution} (hr : ofWays d ways = some r) {q : Predicate} (hq : q ∈ r.predicates) :
    ∃ way ∈ ways, q ∈ way.2.predicates := by
  cases r with
  | unique | ambiguous => exact nomatch hq
  | predicated cs =>
    obtain ⟨c, hc, g, hg, hq⟩ := mem_predicates_predicated.mp hq
    rw [(exists_guard_of_predicated hr).1] at hc
    obtain ⟨_, _, hguard, _⟩ := Candidate.mem_ofWays.mp hc
    rw [hg] at hguard
    split at hguard
    · exact nomatch hguard
    · rw [Option.some.inj hguard] at hq
      rcases Guard.exists_of_mem_predicates_foldl_or hq with hq | ⟨h, hh, hq⟩
      · simp [Guard.predicates] at hq
      · obtain ⟨way, hway, rfl⟩ := List.mem_map.mp hh
        exact ⟨way, (List.mem_filter.mp hway).1, hq⟩

/-- The gate of configurations has no predicates besides theirs. -/
theorem Configuration.exists_of_mem_predicates_gateOf {configs : List Configuration} {g : Guard}
    (hg : gateOf configs = some g) {q : Predicate} (hq : q ∈ g.predicates) :
    ∃ c ∈ configs, q ∈ c.conditions.gate.predicates := by
  unfold gateOf at hg
  dsimp only at hg
  split at hg
  · exact nomatch hg
  · obtain rfl := Option.some.inj hg
    rcases Guard.exists_of_mem_predicates_foldl_or hq with hq | ⟨h, hh, hq⟩
    · simp [Guard.predicates] at hq
    · obtain ⟨c, hc, rfl⟩ := List.mem_map.mp hh
      exact ⟨c, hc, hq⟩

/-! ### Runs that pass a predicate -/

section
variable {t : Terrain} {d : DecisionId} {w : List Symbol}

/-- A run of the alternative reads the word, comes to the position, and passes the predicate of
the grammar before the first symbol. -/
def Passed (t : Terrain) (d : DecisionId) (w : List Symbol) (x : Ordinal × Position)
    (q : Predicate) : Prop :=
  t.predicates[q.id]? = some q ∧ ∃ ps, LookaheadRun t d x.1 ps x.2 ∧ Passage.symbols ps = w ∧
    q.id ∈ Passage.leading ps

/-- Such a run of some alternative ends live. -/
def PassedLive (t : Terrain) (d : DecisionId) (w : List Symbol) (q : Predicate) : Prop :=
  ∃ x, x.2.Live t ∧ Passed t d w x q

/-- Such runs to one place pass all predicates of the conditions. -/
def Traced (t : Terrain) (d : DecisionId) (w : List Symbol) (x : Ordinal × Position)
    (c : Conditions) : Prop :=
  ∀ aspect, ∀ q ∈ (c.guard aspect).predicates, Passed t d w x q

theorem Traced.or {x : Ordinal × Position} {c c' : Conditions} (h : Traced t d w x c)
    (h' : Traced t d w x c') : Traced t d w x (c.or c') := by
  intro aspect q hq
  rcases Conditions.mem_predicates_or hq with hq | hq
  · exact h aspect q hq
  · exact h' aspect q hq

theorem Closure.exists_of_mem_predicates_guardOf {ids : List PredicateId} {q : Predicate}
    (hq : q ∈ (guardOf t ids).predicates) : ∃ id ∈ ids, t.predicates[id]? = some q := by
  obtain ⟨g, hg, hq⟩ := Junction.exists_of_mem_predicates_of hq
  obtain ⟨r, hr, rfl⟩ := List.mem_map.mp hg
  obtain ⟨id, hid, hr⟩ := List.mem_filterMap.mp hr
  rw [Guard.predicates, List.mem_singleton] at hq
  exact ⟨id, hid, hq ▸ hr⟩

/-- The conditions of a way that passes some predicates are about these. -/
theorem Closure.of_mem_predicates_conditionsOf (sound : t.Sound) {ids : List PredicateId}
    {aspect : Aspect} {q : Predicate}
    (hq : q ∈ ((conditionsOf t ids).guard aspect).predicates) :
    q.id ∈ ids ∧ t.predicates[q.id]? = some q := by
  have hguard {ids' : List PredicateId} (hsub : ids' ⊆ ids)
      (hq : q ∈ (guardOf t ids').predicates) : q.id ∈ ids ∧ t.predicates[q.id]? = some q := by
    obtain ⟨id, hid, hq⟩ := exists_of_mem_predicates_guardOf hq
    obtain rfl := sound.numbered id q hq
    exact ⟨hsub hid, hq⟩
  cases aspect with
  | context => exact hguard (List.Subset.refl _) hq
  | gate => exact hguard (fun _ hid => (List.mem_filter.mp hid).1) hq

/-- Before the first symbol the conditions of a way are about what it passes. -/
theorem traced_conditionsOf (sound : t.Sound) {alt : Ordinal} {ps : List Passage} {q : Position}
    {ids : List PredicateId} (hrun : LookaheadRun t d alt ps q) (hsymbols : Passage.symbols ps = [])
    (hids : Way.carry (Closure.collectPredicate t) ps [] = some ids) :
    Traced t d [] (alt, q) (Closure.conditionsOf t ids) := by
  intro aspect r hr
  obtain ⟨hid, hgrammar⟩ := Closure.of_mem_predicates_conditionsOf sound hr
  have hmem := (Closure.mem_of_carry_collectPredicate hsymbols hids r.id).mp hid
  exact ⟨hgrammar, ps, hrun, hsymbols, (hmem.resolve_left nofun).1⟩

/-- After a symbol they are what they were before it. -/
theorem Traced.read {alt : Ordinal} {x : Symbol} {q q' r : Position} {ps : List Passage}
    {c : Conditions} (h : Traced t d w (alt, q) c) (hmove : Move t q [.symbol x] q')
    (hrun : Run t q' ps r) (hsymbols : Passage.symbols ps = []) :
    Traced t d (w ++ [x]) (alt, r) c := by
  intro aspect p hp
  obtain ⟨hgrammar, hpassed⟩ := h aspect p hp
  exact ⟨hgrammar, (exists_lookaheadRun_snoc_iff (P := (p.id ∈ ·))).mpr
    ⟨q, q', hpassed, hmove, ps, hrun, hsymbols⟩⟩

end

namespace Construction
variable {p : Plan} {site : Site} {configs : List Configuration} {state : State} {w : List Symbol}
  {id : StateId} {q : Predicate}

/-- In the state that a word leads to, the predicates of all conditions are passed by runs that
read the word. -/
theorem traced_of_walk (sound : p.terrain.Sound) (h : outcome p = (.ok (), site))
    (hwalk : (site.automaton p).walk Automaton.start w = some id) :
    ∃ configs, site.known[id]? = some configs ∧ Represents p.terrain p.decision.id w configs ∧
      ∀ c ∈ configs, Traced p.terrain p.decision.id w c.place c.conditions :=
  forall_conditions_of_walk sound h (fun _ _ _ _ => .or)
    (fun _ _ _ _ hrun hsymbols hids => traced_conditionsOf sound hrun hsymbols hids)
    (fun _ _ _ _ _ _ _ _ hc hmove hrun hsymbols => hc.read hmove hrun hsymbols) hwalk

/-- A state resolves by predicates of the conditions of its configurations. -/
theorem Made.exists_of_mem_predicates {known : List (List Configuration)}
    (hmade : Made p known id configs state) {r : Resolution}
    (hr : state.terminal = some r ∨ state.accept = some r) (hq : q ∈ r.predicates) :
    ∃ c ∈ configs, ∃ aspect, q ∈ (c.conditions.guard aspect).predicates := by
  have hresolution {ends : List Configuration} (hends : ends ⊆ configs)
      (hr : resolution p ends = some r) :
      ∃ c ∈ configs, ∃ aspect, q ∈ (c.conditions.guard aspect).predicates := by
    obtain ⟨way, hway, hq⟩ := Resolution.exists_of_mem_predicates hr hq
    obtain ⟨c, hc, rfl⟩ := List.mem_map.mp hway
    exact ⟨c, hends hc, .context, hq⟩
  cases hmade with
  | dead => exact hr.elim nofun nofun
  | only =>
    obtain rfl := Option.some.inj (hr.resolve_right nofun)
    unfold onlyOne at hq
    split at hq
    · next g hgate =>
      split at hq
      · obtain ⟨c, hc, g', hg', hq⟩ := Resolution.mem_predicates_predicated.mp hq
        obtain rfl := List.mem_singleton.mp hc
        obtain rfl := Option.some.inj hg'
        obtain ⟨c, hc, hq⟩ := Configuration.exists_of_mem_predicates_gateOf hgate hq
        exact ⟨c, hc, .gate, hq⟩
      · exact nomatch hq
    · exact nomatch hq
  | conflict => exact hresolution (List.Subset.refl _) (hr.resolve_right nofun)
  | looking =>
    have hr : resolutionAtEnd p configs = some r := hr.resolve_left nofun
    unfold resolutionAtEnd at hr
    dsimp only at hr
    split at hr
    · exact nomatch hr
    · exact hresolution (fun _ hc => (List.mem_filter.mp hc).1) hr

/-- The state that a word leads to resolves by predicates that are passed by live runs which
read the word. -/
theorem passedLive_of_resolution (sound : p.terrain.Sound) (h : outcome p = (.ok (), site))
    (hwalk : (site.automaton p).walk Automaton.start w = some id) {r : Resolution}
    (hr : ((site.automaton p).state id).terminal = some r ∨
      ((site.automaton p).state id).accept = some r)
    (hq : q ∈ r.predicates) : PassedLive p.terrain p.decision.id w q := by
  obtain ⟨configs, hknown, hw, htraced⟩ := traced_of_walk sound h hwalk
  obtain ⟨state, hstate⟩ := getElem?_of_known hknown
  rw [state_automaton hstate] at hr
  obtain ⟨c, hc, aspect, hq⟩ :=
    ((built_of_outcome h).1.made id configs state hstate).exists_of_mem_predicates hr hq
  exact ⟨c.place, (hw.exists_run hc).1, htraced c hc aspect q hq⟩

/-- The gate on the way to the next state is about predicates that are passed by live runs which
read the next symbol as well. -/
theorem passedLive_of_gate (sound : p.terrain.Sound) (h : outcome p = (.ok (), site))
    (hwalk : (site.automaton p).walk Automaton.start w = some id) {x : Symbol} {t : Transition}
    (ht : ((site.automaton p).state id).edge? x = some t) {g : Guard} (hg : t.gate = some g)
    (hq : q ∈ g.predicates) : PassedLive p.terrain p.decision.id (w ++ [x]) q := by
  obtain ⟨configs, hknown, _, _⟩ := traced_of_walk sound h hwalk
  obtain ⟨state, hstate⟩ := getElem?_of_known hknown
  have hnext : (site.automaton p).walk Automaton.start (w ++ [x]) = some t.target := by
    rw [Automaton.walk_snoc, hwalk, Option.bind_some, State.next?, ht]
    rfl
  obtain ⟨reached, hreached, hw, htraced⟩ := traced_of_walk sound h hnext
  rw [state_automaton hstate] at ht
  obtain ⟨_, _, _, reached', _, _, hreached', hgate⟩ :=
    reached_of_edge? (built_of_outcome h).1 hstate ht
  obtain rfl := Option.some.inj (hreached.symm.trans hreached')
  obtain ⟨c, hc, hq⟩ := Configuration.exists_of_mem_predicates_gateOf (hgate.symm.trans hg) hq
  exact ⟨c.place, (hw.exists_run hc).1, htraced c hc .gate q hq⟩

end Construction
end Lookahead
