import Lookahead.Proofs.Construction.Traced
import Lookahead.Proofs.Construction.WellFormed
import Lookahead.Proofs.Prediction.MemoFree

/-! What predictions of built automata come to.

A prediction ends in the state that represents the word of its trail. Guards there are about
predicates of the grammar, so their values under a valuation of numbers and under one of
predicates agree, and an alternative that comes out is one for which a way was open. -/
namespace Lookahead

/-- The guard is about predicates of a grammar. -/
def Guard.About (t : Terrain) (g : Guard) : Prop := ∀ q ∈ g.predicates, t.predicates[q.id]? = some q

/-- The value that `v` gives to the predicate with a number. -/
def Terrain.valueOf (t : Terrain) (v : Predicate → Bool) (id : PredicateId) : Bool :=
  t.predicates[id]?.any v

section
variable {t : Terrain} {v : Predicate → Bool} {g : Guard}

theorem Guard.About.holds_eq (h : g.About t) : g.holds v = g.under (t.valueOf v) :=
  Guard.holds_congr g fun q hq => by simp [Terrain.valueOf, h q hq]

theorem Guard.about_foldl_or {gs : List Guard} (h : ∀ g ∈ gs, g.About t) :
    (gs.foldl Guard.or .never).About t := by
  intro q hq
  rcases Guard.exists_of_mem_predicates_foldl_or hq with hq | ⟨g, hg, hq⟩
  · simp [Guard.predicates] at hq
  · exact h g hg q hq

/-- Both conditions are about predicates of a grammar. -/
def Conditions.About (t : Terrain) (c : Conditions) : Prop := c.context.About t ∧ c.gate.About t

/-- What can be traced to runs is about predicates of the grammar. -/
theorem Traced.about {d : DecisionId} {w : List Symbol} {x : Ordinal × Position} {c : Conditions}
    (h : Traced t d w x c) : c.About t :=
  ⟨fun q hq => (h .context q hq).1, fun q hq => (h .gate q hq).1⟩

end

/-! ### Resolutions -/

/-- What candidates come to is one that a guard speaks for, or the first one without a guard,
if no guard speaks for any. -/
theorem Automaton.settled_predicated_cases {a : Automaton} {v : Predicate → Bool}
    {cs : List Candidate} {alt : Ordinal} (h : (a.settled v (.predicated cs)).result = .ok alt) :
    (∃ c ∈ cs, c.alt = alt ∧ c.speaks v = true) ∨
      (∀ c ∈ cs, c.speaks v = false) ∧ ∃ c, cs.find? (·.guard.isNone) = some c ∧ c.alt = alt := by
  simp only [settled, ← Candidate.find?_inTestingOrder] at h
  cases hspoken : (Candidate.inTestingOrder cs).find? (·.speaks v) with
  | some c =>
    simp only [hspoken, Option.map_some, decided, Except.ok.injEq] at h
    exact .inl ⟨c, Candidate.mem_inTestingOrder.mp (List.mem_of_find?_eq_some hspoken), h,
      List.find?_some hspoken⟩
  | none =>
    simp only [hspoken, Option.map_none, decided] at h
    refine .inr ⟨fun c hc => ?_, ?_⟩
    · simpa using List.find?_eq_none.mp hspoken c (Candidate.mem_inTestingOrder.mpr hc)
    · cases hdefault : cs.find? (·.guard.isNone) with
      | none => simp [hdefault] at h
      | some c => exact ⟨c, rfl, by simpa [hdefault] using h⟩

namespace Resolution
variable {d : Decision} {ways : List (Ordinal × Guard)} {r : Resolution} {a : Automaton}
  {v : Predicate → Bool} {alt : Ordinal}

/-- What a resolution is settled for is a candidate whose guard holds, if it has one. -/
theorem exists_candidate_of_settled (hr : ofWays d ways = some r)
    (h : (a.settled v r).result = .ok alt) :
    ∃ c ∈ Candidate.ofWays d ways, c.alt = alt ∧ ∀ g, c.guard = some g → g.holds v = true := by
  cases r with
  | unique alt' =>
    obtain rfl := Except.ok.inj h
    unfold ofWays at hr
    split at hr
    · exact nomatch hr
    · next alt exit hc =>
      obtain rfl := Resolution.unique.inj (Option.some.inj hr)
      exact ⟨⟨alt, none, exit⟩, by simp [hc], rfl, nofun⟩
    · split at hr <;> exact nomatch Option.some.inj hr
  | ambiguous alt' alternatives =>
    obtain rfl := Except.ok.inj h
    unfold ofWays at hr
    split at hr
    · exact nomatch hr
    · exact nomatch Option.some.inj hr
    · next first rest _ hc =>
      split at hr
      · next hall =>
        obtain ⟨rfl, -⟩ := Resolution.ambiguous.inj (Option.some.inj hr)
        have hnone : first.guard = none := by simpa using (List.all_eq_true.mp hall first (.head _))
        exact ⟨first, by simp [hc], rfl, by simp [hnone]⟩
      · exact nomatch Option.some.inj hr
  | predicated cs =>
    obtain rfl := (exists_guard_of_predicated hr).1
    rcases Automaton.settled_predicated_cases h with ⟨c, hc, halt, hspeaks⟩ | ⟨_, c, hc, halt⟩
    · refine ⟨c, hc, halt, fun g hg => ?_⟩
      simpa [Candidate.speaks, hg] using hspeaks
    · have hnone : c.guard = none := by simpa using List.find?_some hc
      exact ⟨c, List.mem_of_find?_eq_some hc, halt, by simp [hnone]⟩

/-- One of the ways to what a resolution is settled for is open. -/
theorem under_guardTo_of_settled {t : Terrain} (hways : ∀ way ∈ ways, way.2.About t)
    (hr : ofWays d ways = some r) (h : (a.settled v r).result = .ok alt) :
    (guardTo ways alt).under (t.valueOf v) = true := by
  obtain ⟨c, hc, rfl, hholds⟩ := exists_candidate_of_settled hr h
  obtain ⟨_, _, hguard, _⟩ := Candidate.mem_ofWays.mp hc
  have habout : (guardTo ways c.alt).About t := Guard.about_foldl_or fun g hg => by
    obtain ⟨way, hway, rfl⟩ := List.mem_map.mp hg
    exact hways way (List.mem_filter.mp hway).1
  by_cases halways : (guardTo ways c.alt).isAlways = true
  · rw [Guard.isAlways_iff.mp halways, Guard.under_always]
  · rw [if_neg halways] at hguard
    rw [← habout.holds_eq]
    exact hholds _ hguard

end Resolution

/-! ### The state that a prediction ends in -/

namespace Automaton
variable {a : Automaton} {v : Predicate → Bool}

/-- A trail leads where the symbols that it is on lead. -/
theorem Sound.walk_trail (sound : a.Sound) (id : StateId) (w : List Symbol) :
    a.walk id (w.take (a.trail v id w).length) = some (destination id (a.trail v id w)) := by
  induction w generalizing id with
  | nil => simp [walk, destination]
  | cons x w ih =>
    rcases trail_cons_cases a v id x w with hnil | ⟨t, _, ht, _, hcons⟩
    · simp [hnil, walk, destination]
    · rw [hcons, List.length_cons, List.take_succ_cons, walk, State.next?, sound.edge?_eq_covering?,
        ht]
      exact ih t.target

end Automaton

namespace Construction
variable {p : Plan} {site : Site} {alt : Ordinal} {v : Predicate → Bool}

/-- A transition of a built automaton has the gate of the configurations that it leads to. -/
theorem gate_of_mem_transitions (hbuilt : Built p site) {id : StateId} {t : Transition}
    (ht : t ∈ ((site.automaton p).state id).transitions) {configs : List Configuration}
    (hknown : site.known[t.target]? = some configs) : t.gate = Configuration.gateOf configs := by
  cases hid : site.states[id]? with
  | none =>
    rw [Automaton.state, Site.automaton, List.getElem?_map, hid] at ht
    cases ht
  | some s =>
    obtain ⟨known, state⟩ := s
    rw [state_automaton hid] at ht
    obtain ⟨reached, _, hreached, hgate⟩ := exists_reached_of_mem hbuilt hid ht
    obtain rfl := Option.some.inj (hknown.symm.trans hreached)
    exact hgate

/-- The configurations of the state that a trail leads to are the live ends of the runs that
read its symbols, their conditions are about predicates of the grammar, and where a trail
has led on, it came through their gate. -/
theorem exists_state_of_trail (sound : p.terrain.Sound) (h : outcome p = (.ok (), site))
    (v : Predicate → Bool) (w : List Symbol) :
    let ts := (site.automaton p).trail v Automaton.start w
    let id := Automaton.destination Automaton.start ts
    ∃ configs state, site.states[id]? = some (configs, state) ∧
      Represents p.terrain p.decision.id (w.take ts.length) configs ∧
      (∀ c ∈ configs, c.conditions.About p.terrain) ∧
      (id ≠ Automaton.start → ∀ g, Configuration.gateOf configs = some g → g.holds v = true) := by
  intro ts id
  obtain ⟨configs, hknown, hw, htraced⟩ :=
    traced_of_walk sound h ((sound_automaton sound h).walk_trail Automaton.start w)
  obtain ⟨state, hstate⟩ := getElem?_of_known hknown
  refine ⟨configs, state, hstate, hw, fun c hc => (htraced c hc).about, fun hne g hg => ?_⟩
  have hts : ts ≠ [] := fun hnil => hne (by simp [id, hnil, Automaton.destination])
  obtain ⟨t, ht, hdestination⟩ := Automaton.exists_destination_eq Automaton.start hts
  obtain ⟨hopen, _, hmem⟩ := Automaton.exists_of_mem_trail ht
  have hgate : t.gate = some g :=
    (gate_of_mem_transitions (built_of_outcome h).1 hmem (hdestination ▸ hknown)).trans hg
  simpa [Transition.opens, hgate] using hopen

end Construction
end Lookahead
