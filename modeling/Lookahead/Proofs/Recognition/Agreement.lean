import Lookahead.Proofs.Analysis
import Lookahead.Proofs.Outcome
import Lookahead.Proofs.Prediction.Gates
import Lookahead.Proofs.Prediction.Told
import Lookahead.Recognition.Recognizer

/-! Predictions and the rules that they lead into take predicates to be worth the same.

A predicate that is left in an automaton has no value there that the analysis has decided on: a
gate with a known value is passed or blocks the way when the automaton is built
(`of_mentions`). So a prediction asks the host for it unless it says its own value, and so
does a recognizer that reaches it, with one exception (`Recognizer.predicate_agrees`). Where a
resolver has left a gate open that says its own value, a prediction goes by what the gate says,
and a recognizer goes by what the host says of it (`Recognizer.predicate_differs_openGate`). -/
namespace Lookahead

/-! ### Predicates that automata mention -/

/-- A resolution of the state or the gate of a transition is about the predicate. -/
def State.Mentions (s : State) (q : Predicate) : Prop :=
  (∃ r, (s.terminal = some r ∨ s.accept = some r) ∧ q ∈ r.predicates) ∨
    ∃ t ∈ s.transitions, ∃ g, t.gate = some g ∧ q ∈ g.predicates

def Automaton.Mentions (a : Automaton) (q : Predicate) : Prop := ∃ s ∈ a.states, s.Mentions q

/-- The conditions are about predicates of the grammar that are no gates of known value. -/
def Conditions.Open (t : Terrain) (c : Conditions) : Prop :=
  ∀ aspect, ∀ q ∈ (c.guard aspect).predicates,
    t.predicates[q.id]? = some q ∧ t.gateValue q.id = Option.none

theorem Conditions.Open.or {t : Terrain} {c d : Conditions} (hc : c.Open t) (hd : d.Open t) :
    (c.or d).Open t :=
  fun aspect q hq => (mem_predicates_or hq).elim (hc aspect q) (hd aspect q)

namespace Construction
variable {p : Plan} {site : Site} {configs : List Configuration} {id : StateId} {q : Predicate}

/-- In each state there are only such conditions. -/
theorem open_of_known (sound : p.terrain.Sound) (h : outcome p = (.ok (), site))
    (hknown : site.known[id]? = some configs) : ∀ c ∈ configs, c.conditions.Open p.terrain := by
  have hlt : id < site.states.length := by
    rw [← site.length_known]
    exact (List.getElem?_eq_some_iff.mp hknown).1
  obtain ⟨w, hwalk⟩ := exists_walk h hlt
  obtain ⟨_, hknown', _, hopen⟩ := forall_conditions_of_walk sound h
    (P := fun _ _ c => c.Open p.terrain) (fun _ _ _ _ => .or)
    (fun _ ps _ ids _ hsymbols hids aspect q hq => by
      obtain ⟨hid, hgrammar⟩ := Closure.of_mem_predicates_conditionsOf sound hq
      have hmem := (Closure.mem_of_carry_collectPredicate hsymbols hids q.id).mp hid
      exact ⟨hgrammar, (hmem.resolve_left nofun).2⟩)
    (fun _ _ _ _ _ _ _ _ hc _ _ _ => hc) hwalk
  obtain rfl := Option.some.inj (hknown.symm.trans hknown')
  exact hopen

/-- What an automaton mentions is a predicate of the grammar and no gate of known value. -/
theorem of_mentions (sound : p.terrain.Sound) (h : outcome p = (.ok (), site))
    (hq : (site.automaton p).Mentions q) :
    p.terrain.predicates[q.id]? = some q ∧ p.terrain.gateValue q.id = none := by
  obtain ⟨hbuilt, _⟩ := built_of_outcome h
  obtain ⟨state, hstate, hq⟩ := hq
  obtain ⟨⟨configs, state⟩, hmem, rfl⟩ := List.mem_map.mp hstate
  obtain ⟨id, hid⟩ := List.getElem?_of_mem hmem
  rcases hq with ⟨r, hr, hq⟩ | ⟨t, ht, g, hg, hq⟩
  · obtain ⟨c, hc, aspect, hq⟩ :=
      (hbuilt.made id configs state hid).exists_of_mem_predicates hr hq
    exact open_of_known sound h (Site.known_of_states hid) c hc aspect q hq
  · obtain ⟨reached, _, hreached, hgate⟩ := exists_reached_of_mem hbuilt hid ht
    obtain ⟨c, hc, hq⟩ := Configuration.exists_of_mem_predicates_gateOf (hgate.symm.trans hg) hq
    exact open_of_known sound h hreached c hc .gate q hq

end Construction

/-! ### Their static values -/

section
variable {definition : GrammarDefinition} {a : Analyzer} {analysis : Analysis}
  {reports : List Report} {automaton : Automaton} {q : Predicate}

theorem Analyzer.staticValue_of_mem (hanalysis : a.analyze = (.ok analysis, reports))
    (hq : a.grammar.predicates[q.id]? = some q) :
    analysis.staticValue q.id = a.staticValue q := by
  obtain ⟨_, _, hvalues⟩ := a.analyze_eq_ok hanalysis
  rw [Analysis.staticValue, hvalues, Analyzer.staticValues, List.getElem?_map, hq]
  rfl

/-- A predicate that an automaton mentions is no gate of known value, and any other one is known
if it says its own value. -/
theorem Analyzer.staticValue_of_mentions (hgrammar : definition.build = .ok a.grammar)
    (hanalysis : a.analyze = (.ok analysis, reports)) (hautomaton : automaton ∈ analysis.automata)
    (hq : automaton.Mentions q) :
    analysis.grammar.predicates[q.id]? = some q ∧
      a.staticValue q = analysis.staticValue q.id ∧
      analysis.staticValue q.id = if q.isGated then none else q.constant := by
  obtain ⟨_, hsame, _⟩ := a.analyze_eq_ok hanalysis
  obtain ⟨id, hid⟩ := List.getElem?_of_mem hautomaton
  obtain ⟨d, site, hsite, rfl⟩ := a.exists_of_automaton? hanalysis hid
  obtain ⟨hmem, hvalue⟩ := Construction.of_mentions (a.sound_terrain hgrammar) hsite hq
  have hmem : a.grammar.predicates[q.id]? = some q := hmem
  have hstatic := a.staticValue_of_mem hanalysis hmem
  refine ⟨hsame ▸ hmem, hstatic.symm, ?_⟩
  rw [hstatic]
  cases hgated : q.isGated with
  | false =>
    rw [Analyzer.staticValue, hgated]
    split
    · next heq => exact nomatch heq
    · rfl
  | true =>
    have hknown : a.terrain.gateValue q.id = a.staticValue q := by
      have hvalues : a.terrain.staticValues[q.id]? = some (a.staticValue q) := by
        rw [Analyzer.terrain, Analyzer.staticValues, List.getElem?_map, hmem]
        rfl
      have hpredicates : a.terrain.predicates[q.id]? = some q := hmem
      rw [Terrain.gateValue, hpredicates]
      simp only [hgated, if_true, hvalues, Option.join_some]
    rw [← hknown, if_pos rfl]
    exact hvalue

theorem Analyzer.sound_of_mem (hgrammar : definition.build = .ok a.grammar)
    (hanalysis : a.analyze = (.ok analysis, reports)) (hautomaton : automaton ∈ analysis.automata) :
    automaton.Sound := by
  obtain ⟨id, hid⟩ := List.getElem?_of_mem hautomaton
  obtain ⟨d, site, hsite, rfl⟩ := a.exists_of_automaton? hanalysis hid
  exact Construction.sound_automaton (a.sound_terrain hgrammar) hsite

/-- Only a resolver leaves a gate open that says its own value. -/
theorem Analyzer.exists_resolve (hgated : q.isGated = true) {value : Bool}
    (hconstant : q.constant = some value) (hnone : a.staticValue q = none) :
    ∃ resolve, a.resolver = some resolve ∧ resolve q = none := by
  rw [staticValue, hgated] at hnone
  cases hresolver : a.resolver with
  | none =>
    rw [hresolver] at hnone
    exact nomatch hconstant.symm.trans hnone
  | some resolve =>
    rw [hresolver] at hnone
    exact ⟨resolve, rfl, hnone⟩

end

/-! ### Values in predictions -/

section
variable {σ : Type} {test : Predicate → StateM σ Bool} {q : Predicate} {s : σ}

/-- A predicate that does not say its own value is known or asked for, if it is met. -/
theorem Predicate.mem_toAsk {known : List PredicateId} {ps : List Predicate} (hq : q ∈ ps)
    (hconstant : q.constant = none) : q.id ∈ known ++ (toAsk known ps).map (·.id) := by
  induction ps generalizing known with
  | nil => exact nomatch hq
  | cons p ps ih =>
    rw [toAsk]
    split
    · next hp =>
      rcases List.mem_cons.mp hq with rfl | hq
      · rw [hconstant, Option.isSome_none, Bool.false_or, List.contains_iff_mem] at hp
        exact List.mem_append_left _ hp
      · exact ih hq
    · rcases List.mem_cons.mp hq with rfl | hq
      · exact List.mem_append_right _ (.head _)
      · have hmem : q.id ∈ known ++ [p.id] ++ (toAsk (known ++ [p.id]) ps).map (·.id) := ih hq
        rwa [List.append_assoc] at hmem

/-- Where earlier answers are those that the host would give now, a predicate is worth what it
says, or else what the host says. -/
theorem Inquiry.run_leaf {answers : List (PredicateId × Bool)}
    (h : ∀ value, answers.lookup q.id = some value → ((test q).run s).1 = value) :
    ((leaf test q).run ⟨s, answers⟩).1 = q.constant.getD ((test q).run s).1 := by
  cases hconstant : q.constant with
  | some value => rw [run_leaf_of_constant test s hconstant, Option.getD_some]
  | none =>
    cases hlookup : answers.lookup q.id with
    | some value => rw [run_leaf_of_known test s hconstant hlookup, Option.getD_none, h value hlookup]
    | none => rw [run_leaf_of_new test s hconstant hlookup, Option.getD_none]

/-- Asking for predicates changes no answer. -/
def Host.Steady (host : Host σ) : Prop :=
  ∀ p q s, ((host.test q).run ((host.test p).run s).2).1 = ((host.test q).run s).1

namespace Automaton
variable {α : Type} [Symbolic α] {a : Automaton}

/-- If no question takes the host out of some states, all answers are given in these. -/
theorem questions_answered {P : σ → Prop} {Q : Predicate → Bool → Prop}
    (hask : ∀ q, a.Mentions q → ∀ s, P s → Q q ((test q).run s).1 ∧ P ((test q).run s).2)
    (hs : P s) (input : Stream α) : ∀ e ∈ a.questions test input s, Q e.1 e.2 := by
  let R (x y : σ × Log) : Prop := x = y ∧ P x.1 ∧ ∀ e ∈ x.2, Q e.1 e.2
  have hrecording {q : Predicate} (hq : a.Mentions q) :
      Alike R (recording test q) (recording test q) := by
    rintro ⟨s, log⟩ _ ⟨rfl, hs, hlog⟩
    obtain ⟨hgood, hkept⟩ := hask q hq s hs
    exact ⟨rfl, rfl, hkept, List.forall_mem_append.mpr ⟨hlog, List.forall_mem_singleton.mpr hgood⟩⟩
  have hpredict : Alike (Inquiry.Same R)
      (a.predictTelling (fun _ => recording test) start input.index [] input.ahead)
      (a.predictTelling (fun _ => recording test) start input.index [] input.ahead) := by
    refine alike_predictTelling (fun _ id r _ _ hr q hq => hrecording ?_)
      (fun _ x id t g _ _ ht hg q hq => hrecording ?_) rfl rfl
    · refine ⟨a.state id, mem_states_of_ne_blank a fun hblank => ?_, .inl ⟨r, hr, hq⟩⟩
      rw [hblank] at hr
      exact hr.elim nofun nofun
    · have hmem : t ∈ (a.state id).transitions := mem_of_bisect ht
      exact ⟨a.state id, mem_states_of_mem_transitions a hmem, .inr ⟨t, hmem, g, hg, hq⟩⟩
  rw [predictTelling_const] at hpredict
  obtain ⟨_, ⟨_, _, hgood⟩, _⟩ := hpredict ⟨(s, []), []⟩ ⟨(s, []), []⟩ ⟨⟨rfl, hs, nofun⟩, rfl⟩
  exact hgood

/-- What a prediction takes a predicate to be worth that it meets, if the host is steady. -/
theorem valuation_questions {predicates : List Predicate}
    (hmentions : ∀ q, a.Mentions q → predicates[q.id]? = some q) (sound : a.Sound)
    {host : Host σ} (hsteady : host.Steady) (input : Stream α) (s : σ)
    (hq : predicates[q.id]? = some q)
    (hmet : q ∈ a.met (a.questions host.test input s).valuation input) :
    (a.questions host.test input s).valuation q = q.constant.getD ((host.test q).run s).1 := by
  cases hconstant : q.constant with
  | some value => rw [Log.valuation, hconstant, Option.getD_some, Option.getD_some]
  | none =>
    have hanswered : ∀ e ∈ a.questions host.test input s,
        predicates[e.1.id]? = some e.1 ∧ e.2 = ((host.test e.1).run s).1 :=
      questions_answered (P := fun s' => ∀ q, ((host.test q).run s').1 = ((host.test q).run s).1)
        (Q := fun q value => predicates[q.id]? = some q ∧ value = ((host.test q).run s).1)
        (fun q hq s' hs' => ⟨⟨hmentions q hq, hs' q⟩, fun p => (hsteady q p s').trans (hs' p)⟩)
        (fun _ => rfl) input
    obtain ⟨_, _, hlogged⟩ := predict_recording sound host.test input s
    obtain ⟨_, hlog⟩ := hlogged _ (Log.respects_valuation _)
    have hasked : q.id ∈ (a.questions host.test input s).byNumber.map (·.1) := by
      have hmem : q.id ∈ [] ++ (Predicate.toAsk [] _).map (·.id) :=
        Predicate.mem_toAsk hmet hconstant
      rw [← hlog, List.nil_append] at hmem
      simpa [Log.byNumber] using hmem
    cases hlookup : (a.questions host.test input s).byNumber.lookup q.id with
    | none => exact absurd hasked (not_mem_map_of_lookup hlookup)
    | some value =>
      obtain ⟨e, he, hid, rfl⟩ := Log.exists_of_lookup hlookup
      obtain ⟨hgrammar, hvalue⟩ := hanswered e he
      obtain rfl : e.1 = q := Option.some.inj ((hid ▸ hgrammar).symm.trans hq)
      rw [Log.valuation, hconstant, hlookup, Option.getD_none, Option.getD_some, Option.getD_none,
        hvalue]

end Automaton
end

/-! ### Values in rules -/

section
variable {σ : Type}

/-- Where a gate says its own value, the host says the same of it. -/
def Host.Concedes (host : Host σ) (s : σ) (q : Predicate) : Prop :=
  q.isGated = true → ∀ value, q.constant = some value → ((host.test q).run s).1 = value

namespace Recognizer
variable {α : Type}

/-- What a recognizer takes a predicate to be worth. -/
def worth (r : Recognizer σ) (s : σ) (q : Predicate) : Bool :=
  (r.analysis.staticValue q.id).getD ((r.host.test q).run s).1

theorem exists_ends_predicate {r : Recognizer σ} {q : Predicate}
    (hq : r.analysis.grammar.predicates[q.id]? = some q) (p : Progress α σ) (ruleName : String) :
    ∃ p', Ends (r.predicate ruleName q.id) p
      (if r.worth p.host q then .ok () else .error (.error (.failedPredicate ruleName q.text)))
      p' := by
  -- Once the value is known, a false one is reported and fails.
  have hvalue (value : Bool) (p : Progress α σ) : ∃ p', Ends (do
      if !value then
        report (.failure ruleName q.text)
        fail (.failedPredicate ruleName q.text) : Recognize α σ Unit) p
      (if value then .ok () else .error (.error (.failedPredicate ruleName q.text))) p' := by
    cases value with
    | true => exact ⟨_, rfl⟩
    | false => exact ⟨_, rfl⟩
  rw [predicate, hq, worth]
  cases hstatic : r.analysis.staticValue q.id with
  | some value => exact hvalue value p
  | none => exact hvalue _ { p with host := ((r.host.test q).run p.host).2 }

theorem constant_eq_worth_iff {r : Recognizer σ} {q : Predicate}
    (hstatic : r.analysis.staticValue q.id = if q.isGated then none else q.constant) (s : σ) :
    q.constant.getD ((r.host.test q).run s).1 = r.worth s q ↔ r.host.Concedes s q := by
  rw [worth, hstatic, Host.Concedes]
  cases hgated : q.isGated with
  | false => exact iff_of_true rfl nofun
  | true =>
    cases q.constant with
    | none => exact iff_of_true rfl nofun
    | some value =>
      rw [if_pos rfl, Option.getD_some, Option.getD_none]
      constructor
      · rintro rfl _ _ heq
        exact Option.some.inj heq
      · exact fun h => (h rfl value rfl).symm

/-- **Predictions and rules take a predicate to be worth the same.** A predicate that an
automaton mentions is known beforehand only if it says so itself. The value of it that a prediction
comes to is the one by which a recognizer goes on or fails in the same state of the host, and if
asking does not change the answers of the host, it is also the one in all of a prediction that
starts in this state. The one exception is a gate that says its own value and that a resolver has
left open: there the two values are the same exactly if the host says what the gate does. -/
theorem predicate_agrees [Symbolic α] {definition : GrammarDefinition} {a : Analyzer}
    (hgrammar : definition.build = .ok a.grammar) {analysis : Analysis} {reports : List Report}
    (hanalysis : a.analyze = (.ok analysis, reports)) {automaton : Automaton}
    (hautomaton : automaton ∈ analysis.automata) {q : Predicate} (hq : automaton.Mentions q)
    (host : Host σ) :
    let r : Recognizer σ := ⟨analysis, host⟩
    (∀ value, analysis.staticValue q.id = some value → q.constant = some value) ∧
      (∀ value, q.isGated = true → q.constant = some value →
        ∃ resolve, a.resolver = some resolve ∧ resolve q = none) ∧
      (∀ (p : Progress α σ) ruleName, ∃ p', Ends (r.predicate ruleName q.id) p
        (if r.worth p.host q then .ok () else .error (.error (.failedPredicate ruleName q.text)))
        p') ∧
      (∀ s answers,
        (∀ value, answers.lookup q.id = some value → ((host.test q).run s).1 = value) →
          (((Inquiry.leaf host.test q).run ⟨s, answers⟩).1 = r.worth s q ↔ host.Concedes s q)) ∧
      (host.Steady → ∀ (input : Stream α) s,
        let v := (automaton.questions host.test input s).valuation
        ((automaton.predict host.test input).run s).1 = automaton.foreseen v input ∧
          (q ∈ automaton.met v input → (v q = r.worth s q ↔ host.Concedes s q))) := by
  intro r
  have sound := a.sound_of_mem hgrammar hanalysis hautomaton
  obtain ⟨hmem, hsame, hstatic⟩ := a.staticValue_of_mentions hgrammar hanalysis hautomaton hq
  have hworth (s : σ) : q.constant.getD ((host.test q).run s).1 = r.worth s q ↔ host.Concedes s q :=
    constant_eq_worth_iff (r := r) hstatic s
  refine ⟨fun value hvalue => ?_, fun value hgated hconstant => ?_, exists_ends_predicate hmem,
    fun s answers hanswers => ?_, fun hsteady input s => ⟨?_, fun hmet => ?_⟩⟩
  · rw [hstatic, Option.ite_none_left_eq_some] at hvalue
    exact hvalue.2
  · rw [hgated, if_pos rfl] at hstatic
    exact Analyzer.exists_resolve hgated hconstant (hsame.trans hstatic)
  · rw [Inquiry.run_leaf hanswers]
    exact hworth s
  · exact Automaton.predict_eq_foreseen sound host.test input s
  · rw [Automaton.valuation_questions
      (fun q hq => (a.staticValue_of_mentions hgrammar hanalysis hautomaton hq).1)
      sound hsteady input s hmem hmet]
    exact hworth s

/-! ### A gate that is left open -/

/-- Two alternatives for an `A`, the first one behind a gate that says that it is true. -/
def openGate : GrammarDefinition where
  name := "OpenGate"
  kind := .parser
  rules := [⟨"s", .choice [.seq [.predicate "true" .gated none, .ref "A"], .ref "A"], false⟩]
  tokens := []

/-- The resolver decides no gate. -/
def openGateAnalyzer : Analyzer := ⟨openGate.grammar, .standard, some fun _ => none⟩

def gateOfS : Predicate := ⟨0, "true", .gated, "s", none⟩

/-- After an `A` the gate is tested. -/
def openGateAutomaton : Automaton where
  decision := 0
  rule := 0
  ruleName := "s"
  kind := .block
  altCount := 2
  states :=
    [⟨[⟨4, 4, 1, none⟩], none, none⟩,
      ⟨[], none, some (.predicated [⟨1, some (.leaf gateOfS), false⟩, ⟨2, none, false⟩])⟩]

/-- A host that says the same of all predicates and counts the questions. -/
def counting (value : Bool) : Host Nat := ⟨knowing fun _ => value, fun _ => return⟩

theorem steady_counting (value : Bool) : (counting value).Steady := fun _ _ _ => rfl

theorem openGate_builds : openGate.build = .ok openGateAnalyzer.grammar :=
  GrammarDefinition.build_eq_ok (by decide +kernel)

theorem openGate_analyze : openGateAnalyzer.analyze =
    (.ok openGateAnalyzer.analysis, openGateAnalyzer.analyze.2) :=
  Analyzer.analyze_eq_analysis (by decide +kernel)

theorem openGate_automata : openGateAnalyzer.analysis.automata = [openGateAutomaton] := by
  decide +kernel

theorem mentions_openGate : openGateAutomaton.Mentions gateOfS :=
  ⟨_, .tail _ (.head _), .inl ⟨_, .inl rfl, by decide⟩⟩

/-- Before a single `A`. -/
def openGateInput : Stream Token := .ofList [⟨4, "a", 0, 1⟩]

/-- The host denies what the gate says: without a question the prediction takes the alternative of
the gate, which fails at the gate after one. -/
theorem predicate_differs_openGate :
    let r : Recognizer Nat := ⟨openGateAnalyzer.analysis, counting false⟩
    openGate.build = .ok openGateAnalyzer.grammar ∧
      openGateAutomaton ∈ r.analysis.automata ∧ openGateAutomaton.Mentions gateOfS ∧
      ((Inquiry.leaf r.host.test gateOfS).run ⟨0, []⟩).1 = true ∧ r.worth 0 gateOfS = false ∧
      ((openGateAutomaton.predict r.host.test openGateInput).run 0).1.result = .ok 1 ∧
      ((openGateAutomaton.predict r.host.test openGateInput).run 0).2 = 0 ∧
      ∃ p', Ends (r.invoke "s") ⟨openGateInput, 0, []⟩
        (.error (.error (.failedPredicate "s" "true"))) p' ∧ p'.host = 1 := by
  intro r
  have hautomaton : openGateAutomaton ∈ r.analysis.automata := openGate_automata ▸ .head _
  exact ⟨openGate_builds, hautomaton, mentions_openGate, by decide +kernel, by decide +kernel,
    by decide +kernel, by decide +kernel, _, ends_of_fst (by decide +kernel), by decide +kernel⟩

/-- A host that says what the gate says takes the alternative, and its gate is passed. -/
theorem predicate_agrees_openGate :
    let r : Recognizer Nat := ⟨openGateAnalyzer.analysis, counting true⟩
    let v := (openGateAutomaton.questions r.host.test openGateInput 0).valuation
    ((Inquiry.leaf r.host.test gateOfS).run ⟨0, []⟩).1 = r.worth 0 gateOfS ∧
      openGateAutomaton.met v openGateInput = [gateOfS] ∧ v gateOfS = r.worth 0 gateOfS ∧
      ((openGateAutomaton.predict r.host.test openGateInput).run 0).1.result = .ok 1 ∧
      ∃ p', Ends (r.predicate "s" 0) ⟨openGateInput, 0, []⟩ (.ok ()) p' := by
  intro r v
  have hautomaton : openGateAutomaton ∈ r.analysis.automata := openGate_automata ▸ .head _
  have hmet : openGateAutomaton.met v openGateInput = [gateOfS] := by decide +kernel
  have hconcedes : r.host.Concedes 0 gateOfS := fun _ value hvalue => by
    have htrue : gateOfS.constant = some true := by decide
    exact Option.some.inj (htrue.symm.trans hvalue)
  obtain ⟨_, _, hends, hleaf, hsteady⟩ := predicate_agrees (α := Token) openGate_builds
    openGate_analyze hautomaton mentions_openGate r.host
  obtain ⟨_, hvalue⟩ := hsteady (steady_counting true) openGateInput 0
  have hworth : r.worth 0 gateOfS = true := by decide +kernel
  obtain ⟨p', hp'⟩ := hends ⟨openGateInput, 0, []⟩ "s"
  rw [if_pos hworth] at hp'
  exact ⟨(hleaf 0 [] nofun).mpr hconcedes, hmet, (hvalue (hmet ▸ .head _)).mpr hconcedes,
    by decide +kernel, p', hp'⟩

end Recognizer
end
end Lookahead
