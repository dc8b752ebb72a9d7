import Lookahead.Proofs.Construction.Conflict
import Lookahead.Proofs.Construction.Unambiguous

/-! Predictions where another alternative reads on as well.

Where there are no predicates and some alternative reads on along the symbols ahead, the one
that is predicted reads on as far, unless a state decides between three or more alternatives:
there each position belongs to two of them, but not to every pair (`isConflict`). -/
namespace Lookahead

/-- A live run of the alternative reads the word. -/
def ReadsOn (t : Terrain) (d : DecisionId) (alt : Ordinal) (w : List Symbol) : Prop :=
  ∃ ps q, LookaheadRun t d alt ps q ∧ q.Live t ∧ Passage.symbols ps = w

theorem ReadsOn.left {t : Terrain} {d : DecisionId} {alt : Ordinal} {u v : List Symbol}
    (h : ReadsOn t d alt (u ++ v)) : ReadsOn t d alt u := by
  obtain ⟨ps, q, hrun, hlive, hsymbols⟩ := h
  obtain ⟨qs, m, hqs, hu, hm⟩ := hrun.exists_prefix hlive hsymbols
  exact ⟨qs, m, hqs, hm, hu⟩

/-- Runs of both alternatives come to a position where a symbol is read next. -/
def Meet (t : Terrain) (d : DecisionId) (alt alt' : Ordinal) : Prop :=
  ∃ ps qs q, LookaheadRun t d alt ps q ∧ LookaheadRun t d alt' qs q ∧
    t.network.matchesInput q.node = true

/-- In a list of at most two, what differs from an item is any other item that differs. -/
theorem eq_of_three_mem {α : Type} {xs : List α} (h : xs.length < 3) {a b c : α}
    (ha : a ∈ xs) (hb : b ∈ xs) (hc : c ∈ xs) (hab : a ≠ b) (hcb : c ≠ b) : c = a := by
  match xs, h with
  | [], _ => exact nomatch ha
  | [x], _ => grind
  | [x, y], _ => grind
  | _ :: _ :: _ :: _, h => exact absurd h (by simp)

namespace Construction
variable {p : Plan} {site : Site} {configs : List Configuration} {state : State}
  {alt alt' : Ordinal} {ps : List Passage} {q : Position} {w : List Symbol}

/-- A state that decides while an alternative reads on decides for one that reads on as well,
or between three or more. -/
theorem Made.readsOn {known : List (List Configuration)} {id : StateId}
    (h : Made p known id configs state) (hconfigs : Configuration.Unconditional configs)
    (hw : Represents p.terrain p.decision.id w configs) {r : Resolution}
    (hr : state.terminal = some r) (halt : alt ∈ r.outcomes)
    (hrun : LookaheadRun p.terrain p.decision.id alt' ps q) (hlive : q.Live p.terrain)
    {v : List Symbol} (hv : v ≠ []) (hsymbols : Passage.symbols ps = w ++ v) :
    ReadsOn p.terrain p.decision.id alt (w ++ v) ∨
      (∃ alternatives, state.Ambiguous alternatives ∧ 3 ≤ alternatives.length) ∧
        ∃ other ≠ alt', Meet p.terrain p.decision.id alt' other := by
  have hself : ReadsOn p.terrain p.decision.id alt' (w ++ v) := ⟨ps, q, hrun, hlive, hsymbols⟩
  obtain ⟨qs, m, rs, hqs, hqsw, hm, hrs, hrsv, hmatches⟩ := hrun.exists_cut hlive hsymbols
  obtain ⟨c, hc, rfl, rfl⟩ := hw.exists_configuration hm hqs hqsw
  cases h with
  | dead | looking => exact nomatch hr
  | @only only halts =>
    have hmem : c.alt ∈ Configuration.alternatives configs :=
      mem_distinctRuns.mpr (List.mem_map_of_mem hc)
    rw [halts, List.mem_singleton] at hmem
    obtain rfl := Option.some.inj hr
    rw [onlyOne, hconfigs.gateOf (List.ne_nil_of_mem hc)] at halt
    obtain rfl := List.mem_singleton.mp halt
    exact .inl (hmem ▸ hself)
  | conflict _ hconflict =>
    have hresolution : resolution p configs = some r := hr
    obtain ⟨hall, hpredicated⟩ := resolution_alternatives hconfigs hresolution
    obtain ⟨d, hd, hposition, hne⟩ := Configuration.isConflict_iff.mp hconflict c hc
    obtain ⟨_, ds, hds, hdsw⟩ := hw.exists_run hd
    rw [hposition] at hds
    by_cases hmany : r.alternatives.length < 3
    · refine .inl ?_
      by_cases heq : alt = c.alt
      · exact heq ▸ hself
      · obtain rfl : d.alt = alt := eq_of_three_mem hmany
          (Resolution.mem_alternatives_of_mem_outcomes hresolution halt) (hall c hc) (hall d hd)
          heq hne
        obtain ⟨entry, hpos, hentry, hrun'⟩ := hds
        refine ⟨ds ++ rs, q, ⟨entry, hpos, hentry, hrun'.trans hrs⟩, hlive, ?_⟩
        rw [Passage.symbols_append, hdsw, hrsv]
    · refine .inr ⟨?_, d.alt, hne, qs, ds, c.position, hqs, hds, hmatches hv⟩
      cases r with
      | unique => exact absurd (Nat.lt_of_sub_eq_succ rfl) hmany
      | predicated candidates => exact absurd rfl (hpredicated candidates)
      | ambiguous chosen alternatives =>
        exact ⟨alternatives, ⟨chosen, .inr hr⟩, Nat.le_of_not_lt hmany⟩

section
variable (sound : p.terrain.Sound) (h : outcome p = (.ok (), site))
  (hpredicates : p.terrain.predicates = [])
include sound h

/-- What is predicted has a live run on some of the symbols ahead. -/
theorem readsOn_of_offers {id : StateId}
    (hwalk : (site.automaton p).walk Automaton.start w = some id)
    (hoffers : ((site.automaton p).state id).Offers alt) :
    ReadsOn p.terrain p.decision.id alt w := by
  obtain ⟨configs, hknown, _, hw⟩ := represents_of_walk sound h hwalk
  obtain ⟨state, hstate⟩ := getElem?_of_known hknown
  rw [state_automaton hstate] at hoffers
  obtain ⟨c, hc, rfl⟩ := ((built_of_outcome h).1.made id configs state hstate).exists_of_offers hoffers
  obtain ⟨hlive, ps, hrun, hsymbols⟩ := hw.exists_run hc
  exact ⟨ps, c.position, hrun, hlive, hsymbols⟩

include hpredicates

theorem readsOn_of_predictFrom {σ α : Type} [Symbolic α] {test : Predicate → StateM σ Bool}
    {inquiry : Inquiry σ} {ahead : List α} {id : StateId} {index : Nat}
    (hwalk : (site.automaton p).walk Automaton.start w = some id)
    (hpredict : (((site.automaton p).predictFrom test id index ahead).run inquiry).1.result = .ok alt)
    (hrun : LookaheadRun p.terrain p.decision.id alt' ps q) (hlive : q.Live p.terrain)
    {v : List Symbol} (hsymbols : Passage.symbols ps = w ++ v)
    (hv : v <+: ahead.map Symbolic.symbol) :
    ReadsOn p.terrain p.decision.id alt (w ++ v) ∨
      (∃ alternatives ∈ site.ambiguities, 3 ≤ alternatives.length) ∧
        ∃ other ≠ alt', Meet p.terrain p.decision.id alt' other := by
  induction v generalizing w ahead id index inquiry with
  | nil =>
    obtain ⟨u, _, _, _, hwalk', hoffers⟩ := Automaton.offers_of_predictFrom hpredict
    have hreads := readsOn_of_offers sound h (w := w ++ u)
      (by rw [Automaton.walk_append, hwalk, Option.bind_some, hwalk']) hoffers
    exact .inl ((List.append_nil w).symm ▸ hreads.left)
  | cons x v ih =>
    cases ahead with
    | nil => exact absurd (List.prefix_nil.mp hv) (List.cons_ne_nil x v)
    | cons item ahead =>
      obtain ⟨rfl, hv'⟩ := List.cons_prefix_cons.mp hv
      have hbuilt := (built_of_outcome h).1
      obtain ⟨configs, hknown, hw, hconfigs⟩ := unconditional_of_walk sound h hpredicates hwalk
      obtain ⟨state, hstate⟩ := getElem?_of_known hknown
      simp only [Automaton.predictFrom, state_automaton hstate] at hpredict
      split at hpredict
      · next r hr =>
        refine ((hbuilt.made id configs state hstate).readsOn hconfigs hw hr
          (Automaton.mem_outcomes_of_settle hpredict) hrun hlive (List.cons_ne_nil _ _)
          hsymbols).imp_right ?_
        refine And.imp_left fun hambiguous => hambiguous.imp fun alternatives h => ⟨?_, h.2⟩
        exact (hbuilt.ambiguities alternatives).mpr ⟨id, _, hstate, h.1⟩
      · next hterminal =>
        rw [← List.singleton_append, ← List.append_assoc] at hsymbols ⊢
        obtain ⟨_, _, hnext, hsnoc, hlive'⟩ := hrun.exists_prefix hlive hsymbols
        obtain ⟨t, ht⟩ := exists_edge?_of_run sound hbuilt hstate hterminal hw hlive' hnext hsnoc
        obtain ⟨hwalk', hgate⟩ := gate_eq_none sound h hpredicates hwalk hstate ht
        simp only [ht, Inquiry.isOpen, hgate, pure_bind, if_true] at hpredict
        exact ih hwalk' hpredict hsymbols hv'

/-- Without predicates, what is predicted reads on along the symbols ahead as far as any other
alternative does, unless an ambiguity between three or more alternatives has been noted and the
other alternative meets a third one. -/
theorem readsOn_of_predict {σ α : Type} [Symbolic α] {test : Predicate → StateM σ Bool}
    {input : Stream α} {s : σ}
    (hpredict : (((site.automaton p).predict test input).run s).1.result = .ok alt)
    {v : List Symbol} (hreads : ReadsOn p.terrain p.decision.id alt' v)
    (hv : v <+: input.ahead.map Symbolic.symbol) :
    ReadsOn p.terrain p.decision.id alt v ∨
      (∃ alternatives ∈ site.ambiguities, 3 ≤ alternatives.length) ∧
        ∃ other ≠ alt', Meet p.terrain p.decision.id alt' other := by
  obtain ⟨ps, q, hrun, hlive, hsymbols⟩ := hreads
  exact readsOn_of_predictFrom sound h hpredicates (w := []) rfl hpredict hrun hlive hsymbols hv

end
end Construction
end Lookahead
