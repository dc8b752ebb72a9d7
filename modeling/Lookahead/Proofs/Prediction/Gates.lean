import Lookahead.Proofs.Prediction.Built

/-! No prediction comes to an alternative behind gates that are shut.

A gate is enforced in one of three places: on the transition into a state in which all
alternatives are gated, in the start state if only one alternative is left there, and in
the guards of a resolution. `exists_open_way` says that there is always one of them: the
conditions of some way to the alternative hold. -/
namespace Lookahead

namespace Predicate

/-- The value of a predicate, where `v` gives the values of those that do not say their own. -/
def valueUnder (v : PredicateId → Bool) (p : Predicate) : Bool := p.constant.getD (v p.id)

theorem respects_valueUnder {v : PredicateId → Bool} {log : Log}
    (h : ∀ e ∈ log, e.2 = v e.1.id) : Respects (valueUnder v) log.byNumber where
  constants hp := by simp [valueUnder, hp]
  answers hp hlookup := by
    obtain ⟨e, he, hid, rfl⟩ := Log.exists_of_lookup hlookup
    simp [valueUnder, hp, h e he, hid]

end Predicate

/-- The terrain with no value known beforehand. -/
def Terrain.unresolved (t : Terrain) : Terrain := { t with staticValues := [] }

section
variable {t : Terrain} {p q : Position} {ps : List Passage}

theorem Terrain.gateValue_unresolved (t : Terrain) (id : PredicateId) :
    t.unresolved.gateValue id = none := by
  unfold gateValue
  split
  · simp [unresolved]
  · rfl

/-- A run that some gates might block is one where no gate blocks. -/
theorem Run.unresolved (h : Run t p ps q) : Run t.unresolved p ps q := by
  induction h with
  | refl => exact .refl
  | tail _ move ih =>
    refine ih.tail ?_
    cases move with
    | silent he => exact .silent he
    | action he => exact .action he
    | symbol he hx => exact .symbol he hx
    | predicate he _ => exact .predicate he (by simp [t.gateValue_unresolved])
    | call he => exact .call he
    | back hstop => exact .back hstop
    | onward hstop hf => exact .onward hstop hf

end

namespace Construction
variable {p : Plan} {site : Site} {configs : List Configuration} {state : State} {id : StateId}
  {v : Predicate → Bool} {alt : Ordinal}

/-- If the gate of the configurations holds, the gate of one of them does. -/
theorem exists_open_gate (habout : ∀ c ∈ configs, c.conditions.About p.terrain)
    (h : ∀ g, Configuration.gateOf configs = some g → g.holds v = true) :
    ∃ c ∈ configs, c.conditions.gate.under (p.terrain.valueOf v) = true := by
  have hfold : ((configs.map (·.conditions.gate)).foldl Guard.or .never).under
      (p.terrain.valueOf v) = true := by
    unfold Configuration.gateOf at h
    by_cases halways : ((configs.map (·.conditions.gate)).foldl Guard.or .never).isAlways = true
    · rw [Guard.isAlways_iff.mp halways, Guard.under_always]
    · have hg := h _ (if_neg halways)
      rwa [Guard.About.holds_eq (t := p.terrain)] at hg
      refine Guard.about_foldl_or fun g hg => ?_
      obtain ⟨c, hc, rfl⟩ := List.mem_map.mp hg
      exact (habout c hc).2
  rcases (Guard.under_foldl_or _ _).mp hfold with hnever | ⟨g, hg, hv⟩
  · simp at hnever
  · obtain ⟨c, hc, rfl⟩ := List.mem_map.mp hg
    exact ⟨c, hc, hv⟩

/-- What the state with the last alternative comes to is that one. -/
theorem eq_of_settled_onlyOne {a : Automaton} {last : Ordinal}
    (h : (a.settled v (onlyOne p id last configs)).result = .ok alt) :
    alt = last ∧ (id = Automaton.start →
      ∀ g, Configuration.gateOf configs = some g → g.holds v = true) := by
  unfold onlyOne at h
  split at h
  · next gate hgate =>
    split at h
    · rcases Automaton.settled_predicated_cases h with ⟨c, hc, halt, hspeaks⟩ | ⟨_, c, hc, _⟩
      · obtain rfl := List.mem_singleton.mp hc
        refine ⟨halt.symm, fun _ g hg => ?_⟩
        obtain rfl := Option.some.inj (hgate.symm.trans hg)
        exact hspeaks
      · have hnone : c.guard.isNone = true := by simpa using List.find?_some hc
        obtain rfl := List.mem_singleton.mp (List.mem_of_find?_eq_some hc)
        exact nomatch hnone
    · next hstart => exact ⟨(Except.ok.inj h).symm, fun heq => absurd heq hstart⟩
  · next hnone =>
    refine ⟨(Except.ok.inj h).symm, fun _ g hg => ?_⟩
    rw [hnone] at hg
    exact nomatch hg

/-- A way to what a resolution of configurations is settled for is open. -/
theorem exists_open_context {a : Automaton} {ends : List Configuration}
    (habout : ∀ c ∈ ends, c.conditions.About p.terrain) {r : Resolution}
    (hr : resolution p ends = some r) (h : (a.settled v r).result = .ok alt) :
    ∃ c ∈ ends, c.alt = alt ∧ c.conditions.context.under (p.terrain.valueOf v) = true := by
  have hways : ∀ way ∈ ends.map (fun c => (c.alt, c.conditions.context)),
      way.2.About p.terrain := by
    intro way hway
    obtain ⟨c, hc, rfl⟩ := List.mem_map.mp hway
    exact (habout c hc).1
  obtain ⟨g, hg, hv⟩ := under_guardTo.mp (Resolution.under_guardTo_of_settled hways hr h)
  obtain ⟨c, hc, hcg⟩ := List.mem_map.mp hg
  obtain ⟨rfl, rfl⟩ := Prod.mk.inj hcg
  exact ⟨c, hc, rfl, hv⟩

/-- The gate on the way into a state, the one that the state tests itself, or the guards of
its resolution: one of them has let through the alternative that comes out. -/
theorem exists_open_way {known : List (List Configuration)} {a : Automaton}
    (hmade : Made p known id configs state)
    (habout : ∀ c ∈ configs, c.conditions.About p.terrain)
    (hgate : id ≠ Automaton.start →
      ∀ g, Configuration.gateOf configs = some g → g.holds v = true)
    {r : Resolution} (hr : state.terminal.or state.accept = some r)
    (h : (a.settled v r).result = .ok alt) :
    ∃ c ∈ configs, c.alt = alt ∧
      ∃ aspect, (c.conditions.guard aspect).under (p.terrain.valueOf v) = true := by
  cases hmade with
  | dead => exact nomatch hr
  | @only last halts =>
    obtain rfl : onlyOne p id last configs = r := Option.some.inj hr
    obtain ⟨rfl, hstart⟩ := eq_of_settled_onlyOne h
    obtain ⟨c, hc, hopen⟩ := exists_open_gate habout fun g hg => by
      by_cases hid : id = Automaton.start
      · exact hstart hid g hg
      · exact hgate hid g hg
    have halt : c.alt ∈ Configuration.alternatives configs :=
      mem_distinctRuns.mpr (List.mem_map_of_mem hc)
    rw [halts, List.mem_singleton] at halt
    exact ⟨c, hc, halt, .gate, hopen⟩
  | conflict =>
    rw [Option.or_none] at hr
    obtain ⟨c, hc, halt, hopen⟩ := exists_open_context habout hr h
    exact ⟨c, hc, halt, .context, hopen⟩
  | looking =>
    have hr : resolutionAtEnd p configs = some r := hr
    unfold resolutionAtEnd at hr
    dsimp only at hr
    split at hr
    · exact nomatch hr
    · obtain ⟨c, hc, halt, hopen⟩ :=
        exists_open_context (fun c hc => habout c (List.mem_filter.mp hc).1) hr h
      exact ⟨c, (List.mem_filter.mp hc).1, halt, .context, hopen⟩

/-- A prediction under fixed values comes to alternatives with an open run through the
symbols of its trail. -/
theorem exists_open_run {α : Type} [Symbolic α] (sound : p.terrain.Sound)
    (h : outcome p = (.ok (), site)) {input : Stream α}
    (hforeseen : ((site.automaton p).foreseen v input).result = .ok alt) :
    let w := input.ahead.map Symbolic.symbol
    ∃ ps q, LookaheadRun p.terrain p.decision.id alt ps q ∧ q.Live p.terrain ∧
      Passage.symbols ps = w.take ((site.automaton p).trail v Automaton.start w).length ∧
      ∀ id ∈ Passage.leading ps, p.terrain.isGated id = true →
        p.terrain.gateValue id = some true ∨
          p.terrain.gateValue id = none ∧ p.terrain.valueOf v id = true := by
  intro w
  obtain ⟨configs, state, hstate, hw, habout, hgate⟩ := exists_state_of_trail sound h v w
  obtain ⟨r, hr, hsettled⟩ := Automaton.exists_ending_of_foreseen hforeseen
  rw [hsettled] at hforeseen
  rw [Automaton.ending, state_automaton hstate] at hr
  obtain ⟨c, hc, rfl, aspect, hopen⟩ := exists_open_way
    ((built_of_outcome h).1.made _ configs state hstate) habout hgate hr hforeseen
  obtain ⟨ps, hrun, hsymbols, hpassed⟩ := (hw.guard c hc aspect _).mp hopen
  refine ⟨ps, c.position, hrun, (hw.exists_run hc).1, hsymbols, fun id hid hgated => ?_⟩
  obtain ⟨_, _, _, hrun⟩ := hrun
  have hne := (hrun.exists_edge_of_predicate (Passage.mem_of_mem_leading hid)).2
  cases hvalue : p.terrain.gateValue id with
  | none =>
    refine .inr ⟨rfl, hpassed id hid hvalue ?_⟩
    cases aspect with
    | context => rfl
    | gate => exact hgated
  | some value =>
    cases value with
    | false => exact absurd hvalue hne
    | true => exact .inl rfl

end Construction

open Construction in
/-- **A prediction comes only to alternatives whose gates are open.** The alternative has a
lookahead run through the symbols of the transitions that were followed, and each gate
before its first symbol is known to be open or, if nothing is known of it, it is true. So
no prediction comes to an alternative that has a gate that is shut on each path. -/
theorem predict_gates_open {definition : GrammarDefinition} {a : Analyzer}
    (hgrammar : definition.build = .ok a.grammar) {d : Decision} {site : Site}
    (hsite : outcome (a.plan a.terrain d) = (.ok (), site))
    {σ α : Type} [Symbolic α] {test : Predicate → StateM σ Bool} {v : PredicateId → Bool}
    (htest : ∀ p s, p.constant = none → ((test p).run s).1 = v p.id) (input : Stream α) (s : σ) :
    let w := input.ahead.map Symbolic.symbol
    let trail := (a.automatonOf d site).trail (Predicate.valueUnder v) Automaton.start w
    let result := (((a.automatonOf d site).predict test input).run s).1.result
    result = ((a.automatonOf d site).foreseen (Predicate.valueUnder v) input).result ∧
      (∀ alt, result = .ok alt →
        ∃ ps q, LookaheadRun a.terrain d.id alt ps q ∧ q.Live a.terrain ∧
          Passage.symbols ps = w.take trail.length ∧
          ∀ id ∈ Passage.leading ps, a.terrain.isGated id = true →
            a.terrain.gateValue id = some true ∨ a.terrain.gateValue id = none ∧
              ∀ p, a.grammar.predicates[id]? = some p → p.valueUnder v = true) ∧
      ∀ alt, (∀ ps q, LookaheadRun a.terrain.unresolved d.id alt ps q → q.Live a.terrain →
          ∃ id ∈ Passage.leading ps, a.terrain.isGated id = true ∧
            (a.terrain.gateValue id = some false ∨ a.terrain.gateValue id = none ∧
              ∀ p, a.grammar.predicates[id]? = some p → p.valueUnder v = false)) →
        result ≠ .ok alt := by
  intro w trail result
  have sound := Analyzer.sound_terrain hgrammar
  obtain ⟨_, hlogged, hforeseen⟩ :=
    Automaton.predict_recording (sound_automaton sound hsite) test input s
  obtain ⟨hverdict, _⟩ := hforeseen _ <| Predicate.respects_valueUnder (v := v) fun e he => by
    obtain ⟨hconstant, s', hs'⟩ := hlogged e he
    rw [← hs', htest e.1 s' hconstant]
  have hresult : result =
      ((a.automatonOf d site).foreseen (Predicate.valueUnder v) input).result :=
    congrArg Verdict.result hverdict
  have hopen (alt : Ordinal) (halt : result = .ok alt) :
      ∃ ps q, LookaheadRun a.terrain d.id alt ps q ∧ q.Live a.terrain ∧
        Passage.symbols ps = w.take trail.length ∧
        ∀ id ∈ Passage.leading ps, a.terrain.isGated id = true →
          a.terrain.gateValue id = some true ∨ a.terrain.gateValue id = none ∧
            ∀ p, a.grammar.predicates[id]? = some p → p.valueUnder v = true := by
    obtain ⟨ps, q, hrun, hlive, hsymbols, hgates⟩ :=
      exists_open_run sound hsite (hresult.symm.trans halt)
    refine ⟨ps, q, hrun, hlive, hsymbols, fun id hid hgated => ?_⟩
    refine (hgates id hid hgated).imp_right fun ⟨hnone, hvalue⟩ => ⟨hnone, fun p hp => ?_⟩
    have hvalue : a.grammar.predicates[id]?.any (Predicate.valueUnder v) = true := hvalue
    simpa [hp] using hvalue
  refine ⟨hresult, hopen, fun alt hshut halt => ?_⟩
  obtain ⟨ps, q, ⟨entry, hpos, hentry, hrun⟩, hlive, _, hgates⟩ := hopen alt halt
  obtain ⟨id, hid, hgated, hvalue⟩ := hshut ps q ⟨entry, hpos, hentry, hrun.unresolved⟩ hlive
  rcases hgates id hid hgated with htrue | ⟨hnone, htrue⟩
  · simp [htrue] at hvalue
  · rw [hnone] at hvalue
    -- A gate stands for a predicate of the grammar.
    cases hp : a.grammar.predicates[id]? with
    | none =>
      have hp : a.terrain.predicates[id]? = none := hp
      simp [Terrain.isGated, hp] at hgated
    | some p =>
      have hfalse := (hvalue.resolve_left nofun).2 p hp
      exact nomatch hfalse.symm.trans (htrue p hp)

/-! ### A gate in front of a loop -/

/-- A host that knows the values of predicates and counts the questions. -/
def knowing (v : PredicateId → Bool) (p : Predicate) : StateM Nat Bool := fun n => (v p.id, n + 1)

theorem run_knowing (v : PredicateId → Bool) (p : Predicate) (n : Nat) (_ : p.constant = none) :
    ((knowing v p).run n).1 = v p.id := rfl

/-- Each way on from the first alternative passes its gate. -/
theorem twoWays_leading {ps : List Passage} {q : Position}
    (h : Run twoWaysAnalyzer.terrain.unresolved ⟨2, []⟩ ps q) :
    ps = [] ∧ q = ⟨2, []⟩ ∨ 0 ∈ Passage.leading ps := by
  have hedges : twoWaysAnalyzer.terrain.unresolved.network.edgesOf 2 = [.predicate 0 3] := by
    decide +kernel
  have hstop : twoWaysAnalyzer.terrain.unresolved.network.stopOf? 2 = none := by decide +kernel
  induction h with
  | refl => exact .inl ⟨rfl, rfl⟩
  | @tail ps q qs r _ move ih =>
    right
    rcases ih with ⟨rfl, rfl⟩ | hmem
    · cases move with
      | predicate he =>
        rw [hedges, List.mem_singleton] at he
        obtain ⟨rfl, rfl⟩ := Edge.predicate.inj he
        exact .head _
      | silent he | action he | symbol he | call he => simp [hedges] at he
      | onward hs => simp [hstop] at hs
    · by_cases hnil : Passage.symbols ps = []
      · rw [Passage.leading_append_of_symbols_eq_nil hnil]
        exact List.mem_append_left _ hmem
      · rwa [Passage.leading_append_of_symbols_ne_nil hnil]

def fastOpen : PredicateId → Bool := fun _ => true

def fastShut : PredicateId → Bool := fun id => id != 0

def twoWaysAutomaton : Automaton := twoWaysAnalyzer.automatonOf twoWaysDecision twoWaysSite

/-- The tokens `A A B`. -/
def twoWaysInput : Stream Token := .ofList [⟨4, "a", 0, 1⟩, ⟨4, "a", 1, 2⟩, ⟨5, "b", 2, 3⟩]

/-- With the gate open, `A A B` is for the first alternative, whose run passes the gate. With the
gate shut, no input is. -/
theorem predict_gates_open_twoWays :
    ((twoWaysAutomaton.predict (knowing fastOpen) twoWaysInput).run 0).1.result = .ok 1 ∧
      (∃ ps q, LookaheadRun twoWaysAnalyzer.terrain 0 1 ps q ∧ Passage.symbols ps = [4, 4, 5] ∧
        ∀ id ∈ Passage.leading ps, twoWaysAnalyzer.terrain.isGated id = true →
          twoWaysAnalyzer.terrain.gateValue id = some true ∨
            twoWaysAnalyzer.terrain.gateValue id = none ∧
              ∀ p, twoWaysAnalyzer.grammar.predicates[id]? = some p →
                p.valueUnder fastOpen = true) ∧
      ∀ (input : Stream Token) (n : Nat),
        ((twoWaysAutomaton.predict (knowing fastShut) input).run n).1.result ≠ .ok 1 := by
  have hresult :
      ((twoWaysAutomaton.predict (knowing fastOpen) twoWaysInput).run 0).1.result = .ok 1 := by
    decide +kernel
  unfold twoWaysAutomaton at *
  refine ⟨hresult, ?_, fun input n => ?_⟩
  · obtain ⟨_, hopen, _⟩ := predict_gates_open twoWays_builds twoWays_outcome
      (run_knowing fastOpen) twoWaysInput 0
    obtain ⟨ps, q, hrun, _, hsymbols, hgates⟩ := hopen 1 hresult
    exact ⟨ps, q, hrun, hsymbols.trans (by decide +kernel), hgates⟩
  · obtain ⟨_, _, hshut⟩ := predict_gates_open twoWays_builds twoWays_outcome
      (run_knowing fastShut) input n
    refine hshut 1 fun ps q ⟨entry, _, hentry, hrun⟩ hlive =>
      ⟨0, ?_, by decide +kernel, .inr ⟨by decide +kernel, fun p hp => ?_⟩⟩
    · have hentries : twoWaysAnalyzer.terrain.network.entriesOf 0 = [2, 10] := by decide +kernel
      have hentry : (twoWaysAnalyzer.terrain.network.entriesOf 0)[0]? = some entry := hentry
      rw [hentries] at hentry
      obtain rfl := Option.some.inj hentry
      refine (twoWays_leading hrun).resolve_left fun ⟨_, hq⟩ => ?_
      subst hq
      rcases hlive with hmatches | ⟨_, _, hstop, _⟩
      · exact absurd hmatches (by decide +kernel)
      · exact absurd (Option.isSome_iff_exists.mpr ⟨_, hstop⟩) (by decide +kernel)
    · have hfast : twoWaysAnalyzer.grammar.predicates[0]?.all
          (fun p => !p.valueUnder fastShut) = true := by decide +kernel
      rw [hp] at hfast
      simpa using hfast

end Lookahead
