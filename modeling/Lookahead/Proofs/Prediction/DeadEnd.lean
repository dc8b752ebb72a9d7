import Lookahead.Proofs.Construction.Unambiguous
import Lookahead.Proofs.Prediction.Built

/-! Where no alternative is viable.

A prediction without a result ends in a state that decides nothing and has no open transition on
the next symbol (`exists_dead_end`). Without gates each transition is open, so there is none. The
configurations of the state are the live ends of the runs through what has been read. Hence none
of these runs reads the next symbol, and since configurations that accept are always resolved,
none of them may be the end of the input. -/
namespace Lookahead

namespace Automaton
variable {σ α : Type} [Symbolic α] {a : Automaton} {test : Predicate → StateM σ Bool}
  {input : Stream α} {s : σ}

/-- A prediction that finds no viable alternative stops after `n` symbols, in a state that decides
nothing and whose transition on the next symbol has a gate, if there is one. -/
theorem Sound.exists_dead_end (sound : a.Sound) {rule : String} {d : DecisionId}
    {x : Option Symbol} {i : Nat} (h : ((a.predict test input).run s).1.result =
      .error (.noViableAlternative rule d x i)) :
    let w := input.ahead.map Symbolic.symbol
    ∃ n id, n ≤ w.length ∧ a.walk start (w.take n) = some id ∧ rule = a.ruleName ∧
      d = a.decision ∧ i = input.index + n ∧ x = w[n]? ∧ (a.state id).terminal = none ∧
      (a.state id).accept = none ∧
      ∀ y t, x = some y → (a.state id).edge? y = some t → t.gate ≠ none := by
  intro w
  rw [predict_eq_foreseen sound, foreseen, foreseenFrom, concluded] at h
  split at h
  · next r _ =>
    obtain ⟨_, hfailed⟩ := exists_of_settled_eq_error h
    cases hfailed
  · next hending =>
    obtain ⟨hterminal, haccept⟩ := Option.or_eq_none_iff.mp hending
    obtain ⟨rfl, rfl, rfl, rfl⟩ := RecognitionError.noViableAlternative.inj (Except.error.inj h)
    refine ⟨_, _, a.length_trail_le _ start w, sound.walk_trail start w, rfl, rfl, rfl, rfl,
      hterminal, haccept, fun y t hy ht hgate => ?_⟩
    rw [sound.edge?_eq_covering?] at ht
    have hshut := opens_eq_false_of_trail_end hterminal hy ht
    rw [Transition.opens, hgate] at hshut
    cases hshut

end Automaton

open Construction

/-- **No viable alternative means that none is viable.** Without gates, a prediction that ends so
names the symbol at its index, or the end of the input. Before it some alternative has a live run
through the symbols from the start up to the index, unless nothing has been read. With it no
alternative has one, and none may end after what has been read. -/
theorem predict_noViable {definition : GrammarDefinition} {a : Analyzer}
    (hgrammar : definition.build = .ok a.grammar)
    (hungated : ∀ q ∈ a.grammar.predicates, q.isGated = false) {d : Decision} {site : Site}
    (hsite : outcome (a.plan a.terrain d) = (.ok (), site)) {σ α : Type} [Symbolic α]
    {test : Predicate → StateM σ Bool} {input : Stream α} {s : σ} {rule : String} {id : DecisionId}
    {x : Option Symbol} {i : Nat}
    (h : (((a.automatonOf d site).predict test input).run s).1.result =
      .error (.noViableAlternative rule id x i)) :
    let w := ((input.items.take i).drop input.index).map Symbolic.symbol
    rule = a.grammar.ruleName d.rule ∧ id = d.id ∧ input.index ≤ i ∧
      x = input.items[i]?.map Symbolic.symbol ∧
      (i = input.index ∨ ∃ alt ps q, LookaheadRun a.terrain d.id alt ps q ∧ q.Live a.terrain ∧
        Passage.symbols ps = w) ∧
      (∀ y, x = some y → ¬∃ alt ps q, LookaheadRun a.terrain d.id alt ps q ∧ q.Live a.terrain ∧
        Passage.symbols ps = w ++ [y]) ∧
      ¬∃ alt ps q, LookaheadRun a.terrain d.id alt ps q ∧ q.Accepting a.terrain ∧
        Passage.symbols ps = w := by
  intro w
  have sound := Analyzer.sound_terrain hgrammar
  obtain ⟨n, state, hle, hwalk, hrule, hid, rfl, rfl, hterminal, haccept, hgates⟩ :=
    (sound_automaton sound hsite).exists_dead_end h
  have hread : w = (input.ahead.map Symbolic.symbol).take n := by
    rw [← List.map_take, Stream.ahead, List.take_drop]
  have hnext : (input.ahead.map Symbolic.symbol)[n]? =
      input.items[input.index + n]?.map Symbolic.symbol := by
    rw [List.getElem?_map, Stream.ahead, List.getElem?_drop]
  rw [← hread] at hwalk
  have hbuilt := (built_of_outcome hsite).1
  obtain ⟨configs, hknown, hempty, hw⟩ := represents_of_walk sound hsite hwalk
  obtain ⟨_, hstate⟩ := getElem?_of_known hknown
  rw [state_automaton hstate] at hterminal haccept hgates
  refine ⟨hrule, hid, Nat.le_add_right .., hnext, ?_, ?_, ?_⟩
  · refine hempty.imp (fun hnil => ?_) fun hne => ?_
    · rw [hread, List.take_eq_nil_iff] at hnil
      have hn : n = 0 := hnil.elim (fun hn => hn) fun hnil => by simpa [hnil] using hle
      rw [hn, Nat.add_zero]
    · obtain ⟨c, hc⟩ := List.exists_mem_of_ne_nil configs hne
      obtain ⟨hlive, ps, hrun, hsymbols⟩ := hw.exists_run hc
      exact ⟨c.alt, ps, c.position, hrun, hlive, hsymbols⟩
  · rintro y hy ⟨alt, ps, q, hrun, hlive, hsymbols⟩
    obtain ⟨t, ht⟩ := exists_edge?_of_run sound hbuilt hstate hterminal hw hlive hrun hsymbols
    exact hgates y t hy ht (gate_eq_none_of_ungated sound hsite hungated hwalk hstate ht).2
  · rintro ⟨alt, ps, q, hrun, haccepting, hsymbols⟩
    obtain ⟨c, hc, _, rfl⟩ := hw.exists_configuration (.inr haccepting) hrun hsymbols
    have hends := (hbuilt.made state configs _ hstate).accept_eq_false hw hterminal haccept hc
    rw [(hw.accept c hc).mpr haccepting] at hends
    exact nomatch hends

/-- Two alternatives that differ only after any number of `A`. The second one has a predicate. -/
def twoEnds : GrammarDefinition where
  name := "TwoEnds"
  kind := .parser
  rules := [⟨"s", .choice [.seq [.repeated .star (.ref "A"), .ref "B"],
    .seq [.predicate "slow" .validating none, .repeated .star (.ref "A"), .ref "C"]], false⟩]
  tokens := []

def twoEndsAnalyzer : Analyzer := ⟨twoEnds.grammar, .standard, none⟩

def twoEndsDecision : Decision := ⟨0, 0, .block, 2⟩

def twoEndsSite : Site :=
  (outcome (twoEndsAnalyzer.plan twoEndsAnalyzer.terrain twoEndsDecision)).2

/-- The second of three `A`s is next. After them comes a token that the grammar does not have. -/
def twoEndsInput : Stream Token := ⟨[4, 4, 4, 9].map fun type => ⟨type, "", 0, 0⟩, 1⟩

/-- Two more `A`s are read by live runs. No run reads the unknown token, and none ends before it. -/
theorem predict_noViable_twoEnds :
    (((twoEndsAnalyzer.automatonOf twoEndsDecision twoEndsSite).predict
      (fun _ => (return true : StateM Unit Bool)) twoEndsInput).run ()).1.result =
        .error (.noViableAlternative "s" 0 (some 9) 3) ∧
      (∃ alt ps q, LookaheadRun twoEndsAnalyzer.terrain 0 alt ps q ∧
        q.Live twoEndsAnalyzer.terrain ∧ Passage.symbols ps = [4, 4]) ∧
      (¬∃ alt ps q, LookaheadRun twoEndsAnalyzer.terrain 0 alt ps q ∧
        q.Live twoEndsAnalyzer.terrain ∧ Passage.symbols ps = [4, 4, 9]) ∧
      ¬∃ alt ps q, LookaheadRun twoEndsAnalyzer.terrain 0 alt ps q ∧
        q.Accepting twoEndsAnalyzer.terrain ∧ Passage.symbols ps = [4, 4] := by
  have hbuilds : twoEnds.build = .ok twoEndsAnalyzer.grammar :=
    GrammarDefinition.build_eq_ok (by decide +kernel)
  have hsite : outcome (twoEndsAnalyzer.plan twoEndsAnalyzer.terrain twoEndsDecision) =
      (.ok (), twoEndsSite) := outcome_eq_ok (by decide +kernel)
  have hresult : (((twoEndsAnalyzer.automatonOf twoEndsDecision twoEndsSite).predict
      (fun _ => (return true : StateM Unit Bool)) twoEndsInput).run ()).1.result =
        .error (.noViableAlternative "s" 0 (some 9) 3) := by decide +kernel
  obtain ⟨_, _, _, _, hread, hnext, hends⟩ :=
    predict_noViable hbuilds (by decide +kernel) hsite hresult
  exact ⟨hresult, hread.resolve_left (by decide), hnext 9 rfl, hends⟩

end Lookahead
