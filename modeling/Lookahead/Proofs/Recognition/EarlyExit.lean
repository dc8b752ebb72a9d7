import Lookahead.Proofs.Prediction.Built
import Lookahead.Proofs.Recognition.Soundness

/-! Why a loop that needs a round is left before the first one.

The alternative that leaves a block is its last one. A resolution is settled for the last of
its alternatives only if a guard speaks for that one or if nothing else is left: any other
alternative has a guard, and the guard does not hold. So a loop gives up on no body that it
could enter, unless a guard speaks for what comes after the loop. -/
namespace Lookahead

/-! ### Resolutions -/

namespace Resolution

/-- There is a guard of the alternative, and it holds. -/
def SpeaksFor (v : Predicate → Bool) (alt : Ordinal) (r : Resolution) : Prop :=
  ∃ cs, r = .predicated cs ∧ ∃ c ∈ cs, c.alt = alt ∧ c.speaks v = true

/-- If the alternative is there at all, it has a guard that does not hold. -/
def RulesOut (v : Predicate → Bool) (alt : Ordinal) (r : Resolution) : Prop :=
  alt ∈ r.alternatives → ∃ cs, r = .predicated cs ∧
    ∀ c ∈ cs, c.alt = alt → ∃ g, c.guard = some g ∧ g.holds v = false

variable {count : Nat} {exit? : Option Ordinal} {v : Predicate → Bool} {a : Automaton}

/-- Candidates before the first one without a guard have one, and those after it are later
alternatives. -/
theorem isSome_guard_of_lt_default {cs : List Candidate}
    (hcs : (cs.map (·.alt)).Pairwise (· < ·)) {c d : Candidate}
    (hd : cs.find? (·.guard.isNone) = some d) (hc : c ∈ cs) (hlt : c.alt < d.alt) :
    c.guard.isSome = true := by
  obtain ⟨_, before, after, rfl, hbefore⟩ := List.find?_eq_some_iff_append.mp hd
  rcases List.mem_append.mp hc with hc | hc
  · simpa using hbefore c hc
  · rw [List.map_append, List.pairwise_append] at hcs
    rcases List.mem_cons.mp hc with rfl | hc
    · exact absurd hlt (Nat.lt_irrefl _)
    · have hafter := (List.pairwise_cons.mp hcs.2.1).1 c.alt (List.mem_map_of_mem hc)
      exact absurd hlt (Nat.lt_asymm hafter)

/-- What is settled for its last alternative has a guard that speaks for it, or it rules out
all others. -/
theorem WellFormed.speaksFor_or_rulesOut {r : Resolution} (h : r.WellFormed count exit?)
    (hlast : (a.settled v r).result = .ok count) :
    r.SpeaksFor v count ∨ ∀ alt < count, r.RulesOut v alt := by
  cases h with
  | unique =>
    obtain rfl := Except.ok.inj hlast
    right
    intro alt hlt hmem
    exact absurd (List.mem_singleton.mp hmem) (Nat.ne_of_lt hlt)
  | @ambiguous chosen others several alts =>
    -- The first of several alternatives is not the last one.
    obtain rfl := Except.ok.inj hlast
    obtain ⟨other, hother⟩ := List.exists_mem_of_ne_nil _ several
    have hlater := (List.pairwise_cons.mp alts.1).1 other hother
    exact absurd (alts.2 other (.tail _ hother)).2 (Nat.not_le.mpr hlater)
  | @predicated cs alts =>
    rcases Automaton.settled_predicated_cases hlast with hspoken | ⟨hsilent, d, hd, hcount⟩
    · exact .inl ⟨cs, rfl, hspoken⟩
    · refine .inr fun alt hlt _ => ⟨cs, rfl, fun c hc halt => ?_⟩
      obtain ⟨g, hg⟩ := Option.isSome_iff_exists.mp <|
        isSome_guard_of_lt_default alts.1 hd hc (by rwa [halt, hcount])
      exact ⟨g, hg, by simpa [Candidate.speaks, hg] using hsilent c hc⟩

end Resolution

/-! ### Derivations that are cut off in a loop -/

/-- The elements of a portion at every depth. -/
def Portion.parts : Portion → List Element
  | .element e => e.parts
  | .sequence es => Element.partsOf es
  | .loop _ as _ => Element.partsOfEach as

/-- The last event is that a loop of the grammar that needs a round is left. -/
def Grammar.Leaves (g : Grammar) (d : DecisionId) (es : List Event) : Prop :=
  ∃ as fs, .block .plus (some d) as ∈ g.parts ∧ es = fs ++ [.choice d (as.length + 1)]

section
variable {g : Grammar} {d : DecisionId} {es : List Event}

theorem Grammar.Leaves.append (h : g.Leaves d es) (fs : List Event) : g.Leaves d (fs ++ es) := by
  obtain ⟨as, gs, hmem, rfl⟩ := h
  exact ⟨as, fs ++ gs, hmem, (List.append_assoc ..).symm⟩

/-- Only the choice to leave a loop comes before the cut in it. -/
theorem Begins.leaves {calls : RuleId → List Event → Prop}
    {begun : RuleId → List Event → Cut → Prop} {rule name : String} {portion : Portion} {c : Cut}
    (h : Begins calls begun rule portion es c) (hc : c = .loop name d)
    (hparts : portion.parts ⊆ g.parts) (hbegun : ∀ id es, begun id es c → g.Leaves d es) :
    g.Leaves d es := by
  -- Only `left` is cut off in a loop. All other cases put events in front of a shorter list.
  induction h with
  | symbols | predicate | choice | nextRound => exact nomatch hc
  | call h => exact hbegun _ _ h
  | left =>
    obtain ⟨_, rfl⟩ := Cut.loop.inj hc
    exact ⟨_, [], hparts (.head _), rfl⟩
  | chosen _ ha _ ih =>
    refine (ih hc (fun e he => hparts (.tail _ ?_)) hbegun).append _
    exact Element.partsOf_subset_partsOfEach (List.mem_of_getElem? ha) he
  | loop _ _ ih => exact ih hc (fun e he => hparts (.tail _ he)) hbegun
  | head _ ih => exact ih hc (fun e he => hparts (List.mem_append_left _ he)) hbegun
  | tail _ _ ih =>
    exact (ih hc (fun e he => hparts (List.mem_append_right _ he)) hbegun).append _
  | inRound ha _ ih =>
    refine (ih hc (fun e he => hparts ?_) hbegun).append _
    exact Element.partsOf_subset_partsOfEach (List.mem_of_getElem? ha) he
  | afterRound _ _ _ ih => exact (ih hc hparts hbegun).append _

theorem Grammar.Begins.leaves {id : RuleId} {name : String} (h : g.Begins id es (.loop name d)) :
    g.Leaves d es := by
  obtain ⟨n, h⟩ := h
  induction n generalizing id es with
  | zero => exact h.elim
  | succ n ih =>
    obtain ⟨r, hr, h⟩ := h
    have hmem : r ∈ g.rules := List.mem_of_getElem? hr
    exact Lookahead.Begins.leaves h rfl (fun e he => List.mem_flatMap.mpr ⟨r, hmem, he⟩)
      fun _ _ h => ih h

end

/-! ### Predictions -/

section
variable {σ α : Type} [Symbolic α] {test : Predicate → StateM σ Bool} {input : Stream α} {s : σ}

/-- No prediction fails because a loop has been left. -/
theorem Automaton.Sound.predict_ne_earlyExit {a : Automaton} (sound : a.Sound) (rule : String)
    (d : DecisionId) (index : Nat) :
    ((a.predict test input).run s).1.result ≠ .error (.earlyExit rule d index) := by
  rw [predict_eq_foreseen sound]
  rcases a.foreseen_eq (a.questions test input s).valuation input with ⟨r, _, h⟩ | ⟨_, _, _, h⟩
  · rw [h]
    intro hsettled
    obtain ⟨_, hfailed⟩ := exists_of_settled_eq_error hsettled
    exact nomatch hfailed
  · simp [h]

/-- What a built automaton predicts is what the resolution is settled for in which it ends. -/
theorem Construction.exists_ending {p : Plan} {site : Site} (sound : p.terrain.Sound)
    (h : outcome p = (.ok (), site)) {alt : Ordinal}
    (hpredict : (((site.automaton p).predict test input).run s).1.result = .ok alt) :
    let v := ((site.automaton p).questions test input s).valuation
    ∃ r, (site.automaton p).ending v input = some r ∧
      (((site.automaton p).predict test input).run s).1 = (site.automaton p).settled v r ∧
      r.WellFormed (p.terrain.network.entriesOf p.decision.id).length p.decision.exit? := by
  intro v
  rw [Automaton.predict_eq_foreseen (sound_automaton sound h)] at hpredict ⊢
  obtain ⟨r, hr, hsettled⟩ := Automaton.exists_ending_of_foreseen hpredict
  refine ⟨r, hr, hsettled, ?_⟩
  -- The blank state, which stands for numbers without a state, has no resolution.
  have hmem : _ ∈ (site.automaton p).states :=
    Automaton.mem_states_of_ne_blank _ fun hblank => by
      rw [Automaton.ending, hblank] at hr
      cases hr
  have hwhere := (Option.or_eq_some_iff.mp hr).imp_right (·.2)
  exact (wellFormed_of_mem_states sound h hmem).resolutions r hwhere

end

/-! ### Recognizers -/

namespace Recognizer
variable {α σ : Type} [Symbolic α] {definition : GrammarDefinition} {a : Analyzer}
  {analysis : Analysis} {reports : List Report}

/-- Invoking a rule follows the derivations of the rule with that name. -/
theorem follows_invoke (hgrammar : definition.build = .ok a.grammar)
    (hanalysis : a.analyze = (.ok analysis, reports)) (host : Host σ) {name : String} {rule : Rule}
    (hname : a.grammar.ruleNamed? name = some rule) (p : Progress α σ) :
    Follows ⟨analysis, host⟩ p (invoke ⟨analysis, host⟩ name) (fun _ => a.grammar.Derives rule.id)
      (a.grammar.Begins rule.id) := by
  obtain ⟨_, hsame, _⟩ := Analyzer.analyze_eq_ok hanalysis
  have hrule := (definition.wellFormed_of_build hgrammar).rule?_id (List.mem_of_find?_eq_some hname)
  have hlt : rule.id < analysis.grammar.rules.length := by
    rw [hsame]
    exact (List.getElem?_eq_some_iff.mp hrule).1
  have hfollows := follows_run (reliable_of_analyze hgrammar hanalysis host) hlt p
  unfold invoke
  simp only [hsame, hname] at hfollows ⊢
  exact hfollows

/-- Where a loop is left, a guard speaks for leaving, or no alternative of the body is viable. -/
theorem exists_ending_of_leaving (hgrammar : definition.build = .ok a.grammar)
    (hanalysis : a.analyze = (.ok analysis, reports)) {host : Host σ} {d : DecisionId}
    {as : List (Alternative Element)} (hmem : .block .plus (some d) as ∈ a.grammar.parts)
    {p q : Progress α σ} (hstep : Step ⟨analysis, host⟩ p (.choice d (as.length + 1)) q) :
    ∃ automaton, analysis.automaton? d = some automaton ∧
      let v := (automaton.questions host.test p.input p.host).valuation
      ∃ r, automaton.ending v p.input = some r ∧
        ((automaton.predict host.test p.input).run p.host).1 = automaton.settled v r ∧
        (r.SpeaksFor v (as.length + 1) ∨ ∀ alt ≤ as.length, r.RulesOut v alt) := by
  have hwf := definition.wellFormed_of_build hgrammar
  obtain ⟨d₀, hd, _, hcount⟩ := hwf.recorded _ _ _ hmem
  obtain ⟨site, hsite, hautomaton, _⟩ := Analyzer.exists_automaton? hanalysis hd
  have hentries : (a.terrain.network.entriesOf d₀.id).length = as.length + 1 :=
    (hwf.length_entriesOf (List.mem_of_getElem? hd)).trans hcount
  cases hstep with
  | choice hautomaton' hrun =>
    obtain rfl := Option.some.inj (hautomaton.symm.trans hautomaton')
    have hresult := congrArg (·.1.result) hrun
    obtain ⟨r, hr, hsettled, hwell⟩ :=
      Construction.exists_ending (Analyzer.sound_terrain hgrammar) hsite hresult
    have hwell : r.WellFormed (as.length + 1) d₀.exit? := hentries ▸ hwell
    refine ⟨_, hautomaton, r, hr, hsettled, ?_⟩
    have hlast := (congrArg Verdict.result hsettled).symm.trans hresult
    exact (hwell.speaksFor_or_rulesOut hlast).imp_right fun h alt hle =>
      h alt (Nat.lt_succ_of_le hle)

/-- **A loop that needs a round is not left before it while its body is viable.** If an
invocation fails because the loop has been left, that was the alternative of its first
prediction. Under the answers in this prediction, a guard spoke for leaving, or the
resolution that decided ruled out each alternative of the body: it was not there, or it had a
guard that did not hold. -/
theorem invoke_earlyExit (hgrammar : definition.build = .ok a.grammar)
    (hanalysis : a.analyze = (.ok analysis, reports)) (host : Host σ) {name ruleName : String}
    {d : DecisionId} {index : Nat} {p q : Progress α σ}
    (hends : Ends (invoke ⟨analysis, host⟩ name) p
      (.error (.error (.earlyExit ruleName d index))) q) :
    ∃ rule es p₀ as automaton, a.grammar.ruleNamed? name = some rule ∧
      .block .plus (some d) as ∈ a.grammar.parts ∧
      a.grammar.Begins rule.id (es ++ [.choice d (as.length + 1)]) (.loop ruleName d) ∧
      Does ⟨analysis, host⟩ p es p₀ ∧ Step ⟨analysis, host⟩ p₀ (.choice d (as.length + 1)) q ∧
      index = p₀.input.index ∧ analysis.automaton? d = some automaton ∧
      let v := (automaton.questions host.test p₀.input p₀.host).valuation
      ∃ r, automaton.ending v p₀.input = some r ∧
        ((automaton.predict host.test p₀.input).run p₀.host).1 = automaton.settled v r ∧
        (r.SpeaksFor v (as.length + 1) ∨ ∀ alt ≤ as.length, r.RulesOut v alt) := by
  cases hname : a.grammar.ruleNamed? name with
  | none =>
    obtain ⟨_, hsame, _⟩ := Analyzer.analyze_eq_ok hanalysis
    simp only [invoke, hsame, hname] at hends
    exact nomatch (ends_throw.mp hends).1
  | some rule =>
    obtain ⟨es, c, p', hes, hdoes, hraises⟩ :=
      (follows_invoke hgrammar hanalysis host hname p).error hends
    cases hraises with
    | decision hautomaton hrun =>
      obtain ⟨d', site, hsite, rfl⟩ := Analyzer.exists_of_automaton? hanalysis hautomaton
      have sound := Construction.sound_automaton (Analyzer.sound_terrain hgrammar) hsite
      exact absurd (congrArg (·.1.result) hrun) (sound.predict_ne_earlyExit ruleName d index)
    | loop =>
      obtain ⟨as, fs, hmem, rfl⟩ := hes.leaves
      obtain ⟨p₀, hfs, hchoice⟩ := hdoes.exists_of_append
      cases hchoice with
      | cons hstep hnil =>
        cases hnil
        obtain ⟨automaton, hautomaton, hending⟩ :=
          exists_ending_of_leaving hgrammar hanalysis hmem hstep
        have hindex : q.input.index = p₀.input.index := by
          cases hstep
          rfl
        exact ⟨rule, fs, p₀, as, automaton, rfl, hmem, hes, hfs, hstep, hindex, hautomaton, hending⟩

/-! ### Loops with a predicate inside and after them -/

deriving instance DecidableEq for Verdict

/-- The resolution in which the prediction of a decision ends. -/
def endingAt (r : Recognizer σ) (p : Progress α σ) (d : DecisionId) : Option Resolution :=
  (r.analysis.automaton? d).bind fun automaton =>
    automaton.ending (automaton.questions r.host.test p.input p.host).valuation p.input

/-- The verdict of the prediction of a decision. -/
def verdictAt (r : Recognizer σ) (p : Progress α σ) (d : DecisionId) : Option Verdict :=
  (r.analysis.automaton? d).map fun automaton =>
    ((automaton.predict r.host.test p.input).run p.host).1

theorem exists_step_of_verdictAt {r : Recognizer σ} {p : Progress α σ} {d : DecisionId}
    {alt : Ordinal} {report : Option Report} (h : r.verdictAt p d = some ⟨.ok alt, report⟩) :
    ∃ host, Step r p (.choice d alt)
      { p with host := host, reports := p.reports ++ report.toList } := by
  obtain ⟨automaton, hautomaton, hverdict⟩ := Option.map_eq_some_iff.mp h
  exact ⟨_, .choice hautomaton (Prod.ext hverdict rfl)⟩

/-- `A`s in a loop behind a predicate, and more of them after it. -/
def guardedBody : GrammarDefinition where
  name := "GuardedBody"
  kind := .parser
  rules := [⟨"s", .seq [.repeated .plus (.seq [.predicate "p" .validating none, .ref "A"]),
    .repeated .star (.ref "A")], false⟩]
  tokens := []

/-- `A`s in a loop, and more of them after it, behind a predicate. -/
def guardedRest : GrammarDefinition where
  name := "GuardedRest"
  kind := .parser
  rules := [⟨"s", .seq [.repeated .plus (.ref "A"), .predicate "p" .validating none,
    .repeated .star (.ref "A")], false⟩]
  tokens := []

def guardedBodyAnalyzer : Analyzer := ⟨guardedBody.grammar, .standard, none⟩

def guardedRestAnalyzer : Analyzer := ⟨guardedRest.grammar, .standard, none⟩

/-- A host that says the same of each predicate. -/
def steady (value : Bool) : Host Unit := ⟨fun _ => return value, fun _ => return⟩

def guardedBodyRecognizer : Recognizer Unit := ⟨guardedBodyAnalyzer.analysis, steady false⟩

def guardedRestRecognizer : Recognizer Unit := ⟨guardedRestAnalyzer.analysis, steady true⟩

/-- Before a single `A`. -/
def beforeA : Progress Token Unit := ⟨.ofList [.ofType 4], (), []⟩

/-- The predicate of both grammars. -/
def guardOfS : Guard := .leaf ⟨0, "p", .validating, "s", none⟩

/-- The loop that `s` begins with is left before its first round, and in the prediction that
leaves it these candidates are left. -/
def LeavesBetween (r : Recognizer Unit) (candidates : List Candidate) : Prop :=
  r.analysis.grammar.decisions.head? = some ⟨0, 0, .plus, 2⟩ ∧
    ∃ q, Ends (r.invoke "s") beforeA (.error (.error (.earlyExit "s" 0 0))) q ∧
      Step r beforeA (.choice 0 2) q ∧ r.endingAt beforeA 0 = some (.predicated candidates)

/-- The body is one of the candidates where its own guard does not hold, and where the guard of
the exit holds. -/
theorem earlyExit_before_candidate :
    LeavesBetween guardedBodyRecognizer [⟨1, some guardOfS, false⟩, ⟨2, none, true⟩] ∧
      LeavesBetween guardedRestRecognizer [⟨1, none, false⟩, ⟨2, some guardOfS, true⟩] := by
  have hbody : guardedBodyRecognizer.verdictAt beforeA 0 =
      some ⟨.ok 2, some (.ambiguity 0 2 [1, 2])⟩ := by decide +kernel
  have hrest : guardedRestRecognizer.verdictAt beforeA 0 = some ⟨.ok 2, none⟩ := by
    decide +kernel
  obtain ⟨⟨⟩, hstep⟩ := exists_step_of_verdictAt hbody
  obtain ⟨⟨⟩, hstep'⟩ := exists_step_of_verdictAt hrest
  constructor
  · exact ⟨by decide +kernel, _, Prod.ext (by decide +kernel) (by decide +kernel), hstep,
      by decide +kernel⟩
  · exact ⟨by decide +kernel, _, Prod.ext (by decide +kernel) (by decide +kernel), hstep',
      by decide +kernel⟩

theorem guardedBody_builds : guardedBody.build = .ok guardedBodyAnalyzer.grammar :=
  GrammarDefinition.build_eq_ok (by decide +kernel)

theorem guardedBody_analyze : guardedBodyAnalyzer.analyze =
    (.ok guardedBodyAnalyzer.analysis, guardedBodyAnalyzer.analyze.2) :=
  Analyzer.analyze_eq_analysis (by decide +kernel)

theorem invoke_earlyExit_guardedBody :
    ∃ q, Ends (guardedBodyRecognizer.invoke "s") beforeA
        (.error (.error (.earlyExit "s" 0 0))) q ∧
      ∃ (es : List Event) (p₀ : Progress Token Unit) (as : List (Alternative Element))
        (automaton : Automaton) (r : Resolution), Does guardedBodyRecognizer beforeA es p₀ ∧
        Step guardedBodyRecognizer p₀ (.choice 0 (as.length + 1)) q ∧
        let v := (automaton.questions (steady false).test p₀.input p₀.host).valuation
        automaton.ending v p₀.input = some r ∧
          (r.SpeaksFor v (as.length + 1) ∨ ∀ alt ≤ as.length, r.RulesOut v alt) := by
  have hends := ends_of_fst (m := guardedBodyRecognizer.invoke "s") (s := beforeA)
    (r := .error (.error (.earlyExit "s" 0 0))) (by decide +kernel)
  obtain ⟨_, es, p₀, as, automaton, _, _, _, hdoes, hstep, _, _, r, hr, _, hviable⟩ :=
    invoke_earlyExit guardedBody_builds guardedBody_analyze (steady false) hends
  exact ⟨_, hends, es, p₀, as, automaton, r, hdoes, hstep, hr, hviable⟩

end Recognizer
end Lookahead
