import Lookahead.Proofs.Construction.Walk
import Lookahead.Recognition.Prediction

/-! What predictions come to.

A prediction follows the symbols ahead through the automaton until a state decides, and it
comes to an alternative of that state's resolution. In a built automaton this alternative
has a lookahead run, so it is one of the decision. -/
namespace Lookahead

/-- The alternatives that a resolution may be settled for. -/
def Resolution.outcomes : Resolution → List Ordinal
  | unique alt => [alt]
  | ambiguous chosen _ => [chosen]
  | predicated candidates => candidates.map (·.alt)

/-- One of the resolutions of the state may be settled for the alternative. -/
def State.Offers (s : State) (alt : Ordinal) : Prop :=
  ∃ r, (s.terminal = some r ∨ s.accept = some r) ∧ alt ∈ r.outcomes

section
variable {σ : Type} {test : Predicate → StateM σ Bool} {inquiry : Inquiry σ} {alt : Ordinal}

theorem Inquiry.exists_of_firstTrue {cs : List Candidate}
    (h : ((firstTrue test cs).run inquiry).1 = some alt) : ∃ c ∈ cs, c.alt = alt := by
  induction cs generalizing inquiry with
  | nil => exact nomatch h
  | cons c cs ih =>
    rw [firstTrue] at h
    split at h
    · obtain ⟨d, hd, hdalt⟩ := ih h
      exact ⟨d, .tail _ hd, hdalt⟩
    · rw [StateT.run_bind] at h
      rcases hholds : (holds test _).run inquiry with ⟨value, inquiry'⟩
      rw [hholds] at h
      cases value with
      | true => exact ⟨c, .head _, Option.some.inj h⟩
      | false =>
        obtain ⟨d, hd, hdalt⟩ := ih h
        exact ⟨d, .tail _ hd, hdalt⟩

theorem Candidate.mem_inTestingOrder {c : Candidate} {cs : List Candidate} :
    c ∈ inTestingOrder cs ↔ c ∈ cs := by
  rw [inTestingOrder, List.mem_append, List.mem_filter, List.mem_filter]
  cases c.exit <;> simp

namespace Automaton
variable {a : Automaton}

theorem mem_outcomes_of_settle {r : Resolution}
    (h : ((a.settle test r).run inquiry).1.result = .ok alt) : alt ∈ r.outcomes := by
  cases r with
  | unique alt' | ambiguous alt' _ =>
    obtain rfl := Except.ok.inj h
    exact List.mem_singleton.mpr rfl
  | predicated candidates =>
    rw [settle, StateT.run_bind] at h
    rcases hfirst : (Inquiry.firstTrue test (Candidate.inTestingOrder candidates)).run inquiry with
      ⟨found, inquiry'⟩
    rw [hfirst] at h
    cases found with
    | some alt' =>
      obtain rfl := Except.ok.inj h
      obtain ⟨c, hc, hcalt⟩ := Inquiry.exists_of_firstTrue (congrArg Prod.fst hfirst)
      exact List.mem_map.mpr ⟨c, Candidate.mem_inTestingOrder.mp hc, hcalt⟩
    | none =>
      simp only [bind] at h
      split at h
      · next c hc =>
        obtain rfl := Except.ok.inj h
        exact List.mem_map.mpr ⟨c, List.mem_of_find?_eq_some hc, rfl⟩
      · exact nomatch h

theorem offers_of_settleHere {s : State} {symbol : Option Symbol} {index : Nat}
    (h : ((a.settleHere test s symbol index).run inquiry).1.result = .ok alt) : s.Offers alt := by
  rw [settleHere] at h
  split at h
  · next r hr => exact ⟨r, .inr hr, mem_outcomes_of_settle h⟩
  · exact nomatch h

/-- A prediction comes to an alternative of a state to which some of the symbols ahead lead. -/
theorem offers_of_predictFrom {α : Type} [Symbolic α] {id : StateId} {index : Nat} {ahead : List α}
    (h : ((a.predictFrom test id index ahead).run inquiry).1.result = .ok alt) :
    ∃ u v id', ahead.map Symbolic.symbol = u ++ v ∧ a.walk id u = some id' ∧
      (a.state id').Offers alt := by
  induction ahead generalizing id index inquiry with
  | nil =>
    refine ⟨[], [], id, rfl, rfl, ?_⟩
    simp only [predictFrom] at h
    split at h
    · next r hr => exact ⟨r, .inl hr, mem_outcomes_of_settle h⟩
    · exact offers_of_settleHere h
  | cons item ahead ih =>
    have hhere (hoffers : (a.state id).Offers alt) :
        ∃ u v id', (item :: ahead).map Symbolic.symbol = u ++ v ∧ a.walk id u = some id' ∧
          (a.state id').Offers alt := ⟨[], _, id, rfl, rfl, hoffers⟩
    simp only [predictFrom] at h
    split at h
    · next r hr => exact hhere ⟨r, .inl hr, mem_outcomes_of_settle h⟩
    · split at h
      · exact hhere (offers_of_settleHere h)
      · next t ht =>
        rw [StateT.run_bind] at h
        rcases hopen : (Inquiry.isOpen test t).run inquiry with ⟨value, inquiry'⟩
        rw [hopen] at h
        cases value with
        | false => exact hhere (offers_of_settleHere h)
        | true =>
          obtain ⟨u, v, id', hahead, hwalk, hoffers⟩ := ih h
          refine ⟨Symbolic.symbol item :: u, v, id', ?_, ?_, hoffers⟩
          · rw [List.map_cons, hahead]
            rfl
          · rw [walk, State.next?, ht]
            exact hwalk

end Automaton
end

/-! ### Built automata -/

namespace Resolution
variable {d : Decision} {ways : List (Ordinal × Guard)}

theorem mem_alternatives_of_mem_outcomes {r : Resolution} (h : ofWays d ways = some r)
    {alt : Ordinal} (halt : alt ∈ r.outcomes) : alt ∈ r.alternatives := by
  cases r with
  | unique | predicated => exact halt
  | ambiguous chosen alternatives =>
    obtain rfl := List.mem_singleton.mp halt
    unfold ofWays at h
    split at h
    · exact nomatch h
    · exact nomatch Option.some.inj h
    · split at h
      · obtain ⟨rfl, rfl⟩ := Resolution.ambiguous.inj (Option.some.inj h)
        exact .head _
      · exact nomatch Option.some.inj h

end Resolution

namespace Construction
variable {p : Plan} {site : Site} {configs : List Configuration} {state : State} {alt : Ordinal}

theorem exists_of_mem_outcomes_resolution {r : Resolution} (h : resolution p configs = some r)
    (halt : alt ∈ r.outcomes) : ∃ c ∈ configs, c.alt = alt := by
  have hmem := Resolution.mem_of_ofWays h (Resolution.mem_alternatives_of_mem_outcomes h halt)
  rw [List.map_map] at hmem
  exact List.mem_map.mp hmem

/-- A state offers only alternatives of its configurations. -/
theorem Made.exists_of_offers {known : List (List Configuration)} {id : StateId}
    (h : Made p known id configs state) (hoffers : state.Offers alt) : ∃ c ∈ configs, c.alt = alt := by
  obtain ⟨r, hr, halt⟩ := hoffers
  cases h with
  | dead => exact hr.elim nofun nofun
  | @only alt' halts =>
    have hr := Option.some.inj (hr.resolve_right nofun)
    have halt' : alt = alt' := by
      subst hr
      unfold onlyOne at halt
      split at halt
      · split at halt <;> exact List.mem_singleton.mp halt
      · exact List.mem_singleton.mp halt
    have hmem : alt' ∈ Configuration.alternatives configs := by
      rw [halts]
      exact .head _
    rw [halt']
    exact List.mem_map.mp (mem_distinctRuns.mp hmem)
  | conflict => exact exists_of_mem_outcomes_resolution (hr.resolve_right nofun) halt
  | looking =>
    have hr : resolutionAtEnd p configs = some r := hr.resolve_left nofun
    rw [resolutionAtEnd] at hr
    split at hr
    · exact nomatch hr
    · obtain ⟨c, hc, hcalt⟩ := exists_of_mem_outcomes_resolution hr halt
      exact ⟨c, (List.mem_filter.mp hc).1, hcalt⟩

/-- What a built automaton predicts has a lookahead run on some of the symbols ahead. -/
theorem exists_run_of_predict {σ α : Type} [Symbolic α] (sound : p.terrain.Sound)
    (h : outcome p = (.ok (), site)) {test : Predicate → StateM σ Bool} {input : Stream α} {s : σ}
    (hpredict : (((site.automaton p).predict test input).run s).1.result = .ok alt) :
    ∃ u v, input.ahead.map Symbolic.symbol = u ++ v ∧
      ∃ ps q, LookaheadRun p.terrain p.decision.id alt ps q ∧ Passage.symbols ps = u := by
  obtain ⟨u, v, id, hahead, hwalk, hoffers⟩ := Automaton.offers_of_predictFrom hpredict
  obtain ⟨configs, hknown, _, hw⟩ := represents_of_walk sound h hwalk
  obtain ⟨state, hstate⟩ := getElem?_of_known hknown
  rw [state_automaton hstate] at hoffers
  obtain ⟨c, hc, rfl⟩ := ((built_of_outcome h).1.made id configs state hstate).exists_of_offers hoffers
  obtain ⟨_, ps, hrun, hsymbols⟩ := hw.exists_run hc
  exact ⟨u, v, hahead, ps, c.position, hrun, hsymbols⟩

/-- A built automaton predicts alternatives of its decision. -/
theorem predict_mem_range {σ α : Type} [Symbolic α] (sound : p.terrain.Sound)
    (h : outcome p = (.ok (), site)) {test : Predicate → StateM σ Bool} {input : Stream α} {s : σ}
    (hpredict : (((site.automaton p).predict test input).run s).1.result = .ok alt) :
    0 < alt ∧ alt ≤ (p.terrain.network.entriesOf p.decision.id).length := by
  obtain ⟨_, _, _, _, _, ⟨entry, hpos, hentry, _⟩, _⟩ := exists_run_of_predict sound h hpredict
  have hlt := (List.getElem?_eq_some_iff.mp hentry).1
  exact ⟨hpos, by lia⟩

end Construction
end Lookahead
