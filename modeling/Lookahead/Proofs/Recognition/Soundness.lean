import Lookahead.Proofs.Analysis
import Lookahead.Proofs.Network.Laid
import Lookahead.Proofs.Prediction
import Lookahead.Proofs.Recognition.Follows

/-! What a recognizer does is derived from the grammar.

A recognizer follows the elements of a rule as their derivations do, as long as the
automata of its decisions name only alternatives that the decisions have. Those of an
analysed grammar do. -/
namespace Lookahead
namespace Recognizer
variable {α σ : Type} [Symbolic α] {r : Recognizer σ} {p q : Progress α σ}

/-- The grammar is a well-formed one, and the automata predict alternatives that there are. -/
structure Reliable (α : Type) [Symbolic α] (r : Recognizer σ) : Prop where
  wellFormed : r.analysis.grammar.WellFormed
  predicts : ∀ {kind : BlockKind} {d : DecisionId} {as : List (Alternative Element)},
    .block kind (some d) as ∈ r.analysis.grammar.parts →
      ∃ automaton, r.analysis.automaton? d = some automaton ∧
        ∀ (input : Stream α) (host : σ) (alt : Ordinal),
          ((automaton.predict r.host.test input).run host).1.result = .ok alt →
            0 < alt ∧ alt ≤ kind.altCount as.length

variable {kind : BlockKind} {d : Option DecisionId} {as : List (Alternative Element)}

/-- An alternative of the decision is chosen, or the choice fails. -/
def Chooses (r : Recognizer σ) (rule : String) (d : Option DecisionId) (count : Nat)
    (p : Progress α σ) (choose : Recognize α σ Ordinal) : Prop :=
  r.Follows p choose (fun alt es => ∃ i < count, alt = i + 1 ∧ es = Event.chosen d (i + 1))
    fun es c => ∃ id, d = some id ∧ es = [] ∧ c = .decision rule id

theorem Reliable.chooses (h : r.Reliable α) (hmem : .block kind d as ∈ r.analysis.grammar.parts)
    (rule : String) (p : Progress α σ) :
    r.Chooses rule d (kind.altCount as.length) p (r.choose d) := by
  cases d with
  | none =>
    refine follows_pure ⟨0, ?_, rfl, rfl⟩
    cases kind with
    | single =>
      obtain ⟨a, rfl⟩ := h.wellFormed.exists_alternative hmem
      exact Nat.one_pos
    | optional | star | plus => exact Nat.succ_pos _
  | some id =>
    obtain ⟨automaton, ha, hrange⟩ := h.predicts hmem
    constructor
    · intro alt q hends
      obtain ⟨result, report, host, hrun, rfl, hres⟩ := (ends_predict ha).mp hends
      cases result with
      | error e => exact nomatch hres
      | ok alt' =>
        obtain rfl := Except.ok.inj hres
        obtain ⟨hpos, hle⟩ := hrange p.input p.host alt (by rw [hrun])
        refine ⟨[.choice id alt], ⟨alt - 1, by lia, by lia, ?_⟩, .single (.choice ha hrun)⟩
        rw [Nat.sub_add_cancel hpos]
        rfl
    · intro e q hends
      obtain ⟨result, report, host, hrun, rfl, hres⟩ := (ends_predict ha).mp hends
      cases result with
      | ok alt => exact nomatch hres
      | error e' =>
        obtain rfl := Stop.error.inj (Except.error.inj hres)
        exact ⟨[], _, p, ⟨id, rfl, rfl, rfl⟩, .nil, .decision ha hrun⟩

variable {calls : RuleId → List Event → Prop} {begun : RuleId → List Event → Cut → Prop}
  {rule : String} {call : RuleId → Recognize α σ Unit}

/-- The action follows the derivations of a portion. -/
abbrev FollowsPortion (r : Recognizer σ) (calls : RuleId → List Event → Prop)
    (begun : RuleId → List Event → Cut → Prop) (rule : String) (portion : Portion)
    (m : Recognize α σ Unit) : Prop :=
  ∀ p, r.Follows p m (fun _ => Derives calls portion) (Begins calls begun rule portion)

/-! ### Loops -/

section
variable {choose : Recognize α σ Ordinal}

/-- A loop runs rounds until one reads nothing or an alternative leaves it. The fuel is not
used up, as each further round has read something. -/
theorem follows_loop (hchoose : ∀ p, r.Chooses rule d (as.length + 1) p choose)
    (has : ∀ (i : Nat) a, as[i]? = some a →
      r.FollowsPortion calls begun rule (.sequence a.elements) (r.sequence call rule a.elements))
    {fuel : Nat} (hfuel : p.input.ahead.length < fuel) :
    r.Follows p (loop choose (fun alt => r.alternative call rule as (alt - 1)) fuel)
      (fun n => Derives calls (.loop d as n))
      (fun es c => ∃ n, Begins calls begun rule (.loop d as n) es c) := by
  induction fuel generalizing p with
  | zero => exact absurd hfuel (Nat.not_lt_zero _)
  | succ fuel ih =>
    rw [loop]
    refine (hchoose p).bind ?_ ?_
    · rintro alt _ p₁ ⟨i, hi, rfl, rfl⟩ hdoes₁
      rw [alternative_eq, Nat.add_sub_cancel]
      cases ha : as[i]? with
      | none =>
        have hlength : i = as.length := by
          have := List.getElem?_eq_none_iff.mp ha
          omega
        subst hlength
        refine follows_pure ?_
        rw [List.append_nil]
        exact .leave
      | some a =>
        refine follows_index_bind ((has i a ha p₁).bind ?_ fun es c h => ?_)
        · intro _ es p₂ hes hdoes₂
          refine follows_index_bind ?_
          have hreads₁ := hdoes₁.reads
          have hreads₂ := hdoes₂.reads
          split
          · next hsame =>
            refine follows_pure ?_
            rw [List.append_nil]
            exact .last ha hes (hreads₂.index_eq_iff.mp hsame)
          · next hmoved =>
            have hshorter : p₂.input.ahead.length < fuel := by
              have hne : (Event.symbols es).length ≠ 0 := fun h0 =>
                hmoved (hreads₂.index_eq_iff.mpr (List.length_eq_zero_iff.mp h0))
              have := hreads₁.length_ahead
              have := hreads₂.length_ahead
              omega
            refine (ih hshorter).bind (fun n fs _ hfs _ => follows_pure ?_) ?_
            · rw [List.append_nil, ← List.append_assoc]
              exact .round ha hes hfs
            · rintro fs c ⟨n, hfs⟩
              rw [← List.append_assoc]
              exact ⟨n + 1, .afterRound ha hes hfs⟩
        · exact ⟨0, .inRound ha h⟩
    · rintro _ _ ⟨id, rfl, rfl, rfl⟩
      exact ⟨0, .nextRound⟩

theorem follows_star
    (hchoose : ∀ p : Progress α σ, r.Chooses rule d (as.length + 1) p (r.choose d))
    (has : ∀ (i : Nat) a, as[i]? = some a →
      r.FollowsPortion calls begun rule (.sequence a.elements) (r.sequence call rule a.elements)) :
    r.FollowsPortion calls begun rule (.element (.block .star d as))
      (r.element call rule (.block .star d as)) := by
  intro p
  rw [element]
  refine follows_get_bind ?_
  refine (follows_loop hchoose has (Nat.lt_succ_self _)).bind
    (fun n es _ hes _ => follows_pure ?_) fun es c ⟨n, hes⟩ => .loop (.inl rfl) hes
  rw [List.append_nil]
  exact .star hes

/-- A loop that needs a round fails where it is left before the first one. -/
theorem follows_plus {id : DecisionId}
    (hchoose : ∀ p : Progress α σ,
      r.Chooses rule (some id) (as.length + 1) p (r.choose (some id)))
    (has : ∀ (i : Nat) a, as[i]? = some a →
      r.FollowsPortion calls begun rule (.sequence a.elements) (r.sequence call rule a.elements)) :
    r.FollowsPortion calls begun rule (.element (.block .plus (some id) as))
      (r.element call rule (.block .plus (some id) as)) := by
  intro p
  rw [element]
  refine follows_get_bind ?_
  refine (follows_loop hchoose has (Nat.lt_succ_self _)).bind ?_
    fun es c ⟨n, hes⟩ => .loop (.inr rfl) hes
  intro n es p₁ hes _
  split
  · next hn =>
    refine follows_index_bind ?_
    subst hn
    have hleft : es = Event.chosen (some id) (as.length + 1) := by
      cases hes
      rfl
    subst hleft
    exact follows_fail .left .loop
  · next hn =>
    refine follows_pure ?_
    rw [List.append_nil]
    exact .plus (Nat.pos_of_ne_zero hn) hes

/-- A block that runs at most one alternative. -/
theorem follows_branch (hkind : kind = .single ∨ kind = .optional)
    (hchoose : r.Chooses rule d (kind.altCount as.length) p choose)
    (has : ∀ (i : Nat) a, as[i]? = some a →
      r.FollowsPortion calls begun rule (.sequence a.elements) (r.sequence call rule a.elements)) :
    r.Follows p
      (do (r.alternative call rule as ((← choose) - 1)).getD (pure ()))
      (fun _ => Derives calls (.element (.block kind d as)))
      (Begins calls begun rule (.element (.block kind d as))) := by
  refine hchoose.bind ?_ ?_
  · rintro alt _ p₁ ⟨i, hi, rfl, rfl⟩ _
    rw [alternative_eq, Nat.add_sub_cancel]
    cases ha : as[i]? with
    | none =>
      have hle := List.getElem?_eq_none_iff.mp ha
      refine follows_pure ?_
      rw [List.append_nil]
      rcases hkind with rfl | rfl
      · exact absurd hi (Nat.not_lt.mpr hle)
      · have hlength : i = as.length := Nat.le_antisymm (Nat.le_of_lt_succ hi) hle
        rw [hlength]
        exact .skip
    | some a =>
      refine (has i a ha p₁).imp (fun _ es hes => ?_) fun es c hes => .chosen hkind ha hes
      rcases hkind with rfl | rfl
      · exact .single ha hes
      · exact .optional ha hes
  · rintro _ _ ⟨id, rfl, rfl, rfl⟩
    exact .choice hkind

end

/-! ### Elements -/

mutual
theorem follows_element (h : r.Reliable α)
    (hcall : ∀ id < r.analysis.grammar.rules.length, ∀ p : Progress α σ,
      r.Follows p (call id) (fun _ => calls id) (begun id)) :
    (e : Element) → (∀ e' ∈ e.parts, e' ∈ r.analysis.grammar.parts) →
      r.FollowsPortion calls begun rule (.element e) (r.element call rule e)
  | .symbols set, hparts, p => follows_symbols (h.wellFormed.plain _ (hparts _ (.head _)))
  | .call id, hparts, p => by
    have hid := h.wellFormed.calls id (hparts _ (.head _))
    exact (hcall id hid p).imp (fun _ _ hes => .call hes) fun _ _ hes => .call hes
  | .predicate id, hparts, p => follows_predicate (h.wellFormed.predicate_lt (hparts _ (.head _)))
  | .action id, hparts, p => follows_action (h.wellFormed.action_lt (hparts _ (.head _)))
  | .block kind d as, hparts, p => by
    have hchoose (p) := h.chooses (hparts _ (.head _)) rule p
    have has := follows_alternatives h hcall as fun _ he => hparts _ (.tail _ he)
    cases kind with
    | single => exact follows_branch (.inl rfl) (hchoose p) has
    | optional => exact follows_branch (.inr rfl) (hchoose p) has
    | star => exact follows_star hchoose has p
    | plus =>
      obtain ⟨id, rfl⟩ := h.wellFormed.exists_decision (hparts _ (.head _)) (by decide)
      exact follows_plus hchoose has p

theorem follows_sequence (h : r.Reliable α)
    (hcall : ∀ id < r.analysis.grammar.rules.length, ∀ p : Progress α σ,
      r.Follows p (call id) (fun _ => calls id) (begun id)) :
    (es : List Element) → (∀ e' ∈ Element.partsOf es, e' ∈ r.analysis.grammar.parts) →
      r.FollowsPortion calls begun rule (.sequence es) (r.sequence call rule es)
  | [], _, p => follows_pure .nil
  | e :: es, hparts, p => by
    have he := follows_element h hcall e fun _ he => hparts _ (List.mem_append_left _ he)
    have hes := follows_sequence h hcall es fun _ he => hparts _ (List.mem_append_right _ he)
    refine (he p).bind (fun _ fs p' hfs _ => ?_) fun fs c hfs => .head hfs
    exact (hes p').imp (fun _ gs hgs => .cons hfs hgs) fun gs c hgs => .tail hfs hgs

theorem follows_alternatives (h : r.Reliable α)
    (hcall : ∀ id < r.analysis.grammar.rules.length, ∀ p : Progress α σ,
      r.Follows p (call id) (fun _ => calls id) (begun id)) :
    (as : List (Alternative Element)) →
      (∀ e' ∈ Element.partsOfEach as, e' ∈ r.analysis.grammar.parts) →
      ∀ (i : Nat) a, as[i]? = some a →
        r.FollowsPortion calls begun rule (.sequence a.elements) (r.sequence call rule a.elements)
  | a :: _, hparts, 0, _, rfl =>
    follows_sequence h hcall a.elements fun _ he => hparts _ (List.mem_append_left _ he)
  | _ :: as, hparts, i + 1, a', ha =>
    follows_alternatives h hcall as (fun _ he => hparts _ (List.mem_append_right _ he)) i a' ha
end

/-! ### Rules -/

theorem follows_rule (h : r.Reliable α) (depth : Nat) {id : RuleId}
    (hid : id < r.analysis.grammar.rules.length) (p : Progress α σ) :
    r.Follows p (r.rule depth id) (fun _ => r.analysis.grammar.DerivesIn depth id)
      (r.analysis.grammar.BeginsIn depth id) := by
  induction depth generalizing id p with
  | zero => exact follows_tooDeep
  | succ depth ih =>
    have hrule : r.analysis.grammar.rule? id = some r.analysis.grammar.rules[id] :=
      List.getElem?_eq_getElem hid
    have hparts : ∀ e ∈ r.analysis.grammar.rules[id].block.element.parts,
        e ∈ r.analysis.grammar.parts := fun e he =>
      List.mem_flatMap.mpr ⟨_, List.getElem_mem hid, he⟩
    simp only [rule, hrule]
    exact (follows_element h (fun id hid p => ih hid p) _ hparts p).imp
      (fun _ es hes => ⟨_, hrule, hes⟩) fun es c hes => ⟨_, hrule, hes⟩

theorem follows_run (h : r.Reliable α) {id : RuleId}
    (hid : id < r.analysis.grammar.rules.length) (p : Progress α σ) :
    r.Follows p (r.run id) (fun _ => r.analysis.grammar.Derives id)
      (r.analysis.grammar.Begins id) :=
  follows_get_bind <| (follows_rule h _ hid p).imp (fun _ _ hes => ⟨_, hes⟩) fun _ _ hes => ⟨_, hes⟩

/-- An analysed grammar makes a reliable recognizer in any host. -/
theorem reliable_of_analyze {definition : GrammarDefinition} {a : Analyzer}
    (hgrammar : definition.build = .ok a.grammar) {analysis : Analysis} {reports : List Report}
    (hanalysis : a.analyze = (.ok analysis, reports)) (host : Host σ) :
    Reliable α ⟨analysis, host⟩ := by
  obtain ⟨_, hsame, _⟩ := Analyzer.analyze_eq_ok hanalysis
  have hwf := definition.wellFormed_of_build hgrammar
  refine ⟨hsame ▸ hwf, fun {kind id as} hmem => ?_⟩
  rw [hsame] at hmem
  obtain ⟨d, hd, _⟩ := hwf.recorded kind id as hmem
  obtain ⟨site, hsite, hautomaton, _⟩ := Analyzer.exists_automaton? hanalysis hd
  refine ⟨_, hautomaton, fun input s alt halt => ?_⟩
  rw [← Network.length_entriesOf hwf hmem, ← hwf.decision_id hd]
  exact Construction.predict_mem_range (Analyzer.sound_terrain hgrammar) hsite halt

/-- What a recognizer reads, performs and passes is derived from the rule that it recognizes,
each predicate being true when it is passed. If it stops with an error, this is where a
derivation of the rule is cut off, and the error is the one that comes there. The input only
moves on, by the symbols that are read. -/
theorem invoke_sound {definition : GrammarDefinition} {a : Analyzer}
    (hgrammar : definition.build = .ok a.grammar) {analysis : Analysis} {reports : List Report}
    (hanalysis : a.analyze = (.ok analysis, reports)) (host : Host σ) (name : String)
    (p q : Progress α σ) :
    (Ends (invoke ⟨analysis, host⟩ name) p (.ok ()) q →
      ∃ rule es, a.grammar.ruleNamed? name = some rule ∧ a.grammar.Derives rule.id es ∧
        Does ⟨analysis, host⟩ p es q ∧ p.input.Reads (Event.symbols es) q.input) ∧
    ∀ e, Ends (invoke ⟨analysis, host⟩ name) p (.error (.error e)) q →
      (a.grammar.ruleNamed? name = none ∧ e = .unknownRule name ∧ q = p) ∨
      ∃ rule es c p', a.grammar.ruleNamed? name = some rule ∧ a.grammar.Begins rule.id es c ∧
        Does ⟨analysis, host⟩ p es p' ∧ Raises ⟨analysis, host⟩ p' c e q ∧
        p.input.Reads (Event.symbols es) q.input := by
  obtain ⟨_, hsame, _⟩ := Analyzer.analyze_eq_ok hanalysis
  have hreliable : Reliable α ⟨analysis, host⟩ := reliable_of_analyze hgrammar hanalysis host
  have hwf := definition.wellFormed_of_build hgrammar
  unfold invoke
  simp only [hsame]
  cases hname : a.grammar.ruleNamed? name with
  | none =>
    refine ⟨fun hends => (nomatch (ends_throw.mp hends).1), fun e hends => ?_⟩
    obtain ⟨he, rfl⟩ := ends_throw.mp hends
    exact .inl ⟨rfl, Stop.error.inj (Except.error.inj he), rfl⟩
  | some rule =>
    have hrule := hwf.rule?_id (List.mem_of_find?_eq_some hname)
    have hlt : rule.id < analysis.grammar.rules.length := by
      rw [hsame]
      exact (List.getElem?_eq_some_iff.mp hrule).1
    have hfollows := follows_run hreliable hlt p
    simp only [hsame] at hfollows
    constructor
    · intro hends
      obtain ⟨es, hes, hdoes⟩ := hfollows.ok hends
      exact ⟨rule, es, rfl, hes, hdoes, hdoes.reads⟩
    · intro e hends
      obtain ⟨es, c, p', hes, hdoes, hraises⟩ := hfollows.error hends
      exact .inr ⟨rule, es, c, p', rfl, hes, hdoes, hraises, hraises.input ▸ hdoes.reads⟩

/-! ### A grammar whose host changes its mind -/

/-- Lists of numbers and names. Whether names are allowed is up to the host. -/
def lists : GrammarDefinition where
  name := "Lists"
  kind := .parser
  rules := [
    ⟨"list", .seq [.ref "item", .repeated .star
      (.seq [.ref "COMMA", .action "next", .ref "item"])], false⟩,
    ⟨"item", .choice [.ref "NUMBER",
      .seq [.predicate "allowed" .validating none, .ref "NAME"]], false⟩]
  tokens := []

def listsAnalyzer : Analyzer := ⟨lists.grammar, .standard, none⟩

/-- Counts the items and allows a name for the first one. -/
def listsHost : Host Nat where
  test _ := return (← get) = 0
  perform _ := modify (· + 1)

def listsRecognizer : Recognizer Nat := ⟨listsAnalyzer.analysis, listsHost⟩

/-- Before the tokens of these types. -/
def listsProgress (types : List TokenType) : Progress Token Nat :=
  ⟨.ofList (types.map .ofType), 0, []⟩

theorem lists_builds : lists.build = .ok listsAnalyzer.grammar :=
  GrammarDefinition.build_eq_ok (by decide +kernel)

theorem lists_analyze : listsAnalyzer.analyze = (.ok listsAnalyzer.analysis, listsAnalyzer.analyze.2) :=
  Analyzer.analyze_eq_analysis (by decide +kernel)

/-- A name before a number is recognized. A name after a number is not allowed: what is done
by then begins a derivation. -/
theorem invoke_sound_lists :
    (∃ q rule es, Ends (listsRecognizer.invoke "list") (listsProgress [6, 4, 5]) (.ok ()) q ∧
      lists.grammar.ruleNamed? "list" = some rule ∧ lists.grammar.Derives rule.id es ∧
      listsRecognizer.Does (listsProgress [6, 4, 5]) es q) ∧
    ∃ q rule es c p', Ends (listsRecognizer.invoke "list") (listsProgress [5, 4, 6])
        (.error (.error (.failedPredicate "item" "allowed"))) q ∧
      lists.grammar.ruleNamed? "list" = some rule ∧ lists.grammar.Begins rule.id es c ∧
      listsRecognizer.Does (listsProgress [5, 4, 6]) es p' ∧
      listsRecognizer.Raises p' c (.failedPredicate "item" "allowed") q := by
  have hends := ends_of_fst (m := listsRecognizer.invoke "list")
    (s := (listsProgress [6, 4, 5])) (r := .ok ()) (by decide +kernel)
  have hends' := ends_of_fst (m := listsRecognizer.invoke "list")
    (s := (listsProgress [5, 4, 6]))
    (r := .error (.error (.failedPredicate "item" "allowed"))) (by decide +kernel)
  obtain ⟨rule, es, hrule, hes, hdoes, _⟩ :=
    (invoke_sound lists_builds lists_analyze listsHost "list" _ _).1 hends
  obtain ⟨hnone, _, _⟩ | ⟨rule', es', c, p', hrule', hes', hdoes', hraises, _⟩ :=
    (invoke_sound lists_builds lists_analyze listsHost "list" _ _).2 _ hends'
  · rw [hrule] at hnone
    exact nomatch hnone
  · exact ⟨⟨_, rule, es, hends, hrule, hes, hdoes⟩,
      ⟨_, rule', es', c, p', hends', hrule', hes', hdoes', hraises⟩⟩

end Recognizer
end Lookahead
