import Lookahead.Proofs.Prediction.Gates
import Lookahead.Proofs.Prediction.Told

/-! What is asked has a run behind it.

Alternatives that the symbols read so far exclude take no part in a prediction any more, so
none of their predicates is asked for. `predictNoting` predicts and keeps for each question the
symbols that have been read by then. In a built automaton some lookahead run that reads these
symbols passes the predicate. -/
namespace Lookahead

/-- A predicate that the host is asked for, and the symbols that have been read by then. -/
structure Question where
  predicate : Predicate
  read : List Symbol
  deriving DecidableEq

/-- The host, with a list of its questions. -/
def noting {σ : Type} (test : Predicate → StateM σ Bool) (read : List Symbol) (p : Predicate) :
    StateM (σ × List Question) Bool := fun (host, asked) =>
  let (value, host) := (test p).run host
  (value, (host, asked ++ [⟨p, read⟩]))

namespace Automaton
variable {σ α : Type} [Symbolic α]

/-- Predicts and keeps a list of the questions. -/
def predictNoting (a : Automaton) (test : Predicate → StateM σ Bool) (input : Stream α) :
    StateM (σ × List Question) Verdict := fun host =>
  let (verdict, inquiry) :=
    (a.predictTelling (noting test) start input.index [] input.ahead).run ⟨host, []⟩
  (verdict, inquiry.host)

/-- A host and the same one with a list of its questions, all of which are good. -/
def Noted (good : Question → Prop) (x : σ × Log) (y : σ × List Question) : Prop :=
  x.1 = y.1 ∧ y.2.map (·.predicate) = x.2.map (·.1) ∧ ∀ question ∈ y.2, good question

theorem alike_noting {good : Question → Prop} (test : Predicate → StateM σ Bool)
    {read : List Symbol} {q : Predicate} (h : good ⟨q, read⟩) :
    Alike (Noted good) (recording test q) (noting test read q) := by
  rintro ⟨s, log⟩ ⟨_, asked⟩ ⟨rfl, hsame, hgood⟩
  refine ⟨rfl, rfl, ?_, fun question hquestion => ?_⟩
  · show (asked ++ [(⟨q, read⟩ : Question)]).map (·.predicate) =
      (log ++ [(q, ((test q).run s).1)]).map (·.1)
    rw [List.map_append, List.map_append, hsame]
    rfl
  · rcases List.mem_append.mp hquestion with hquestion | hquestion
    · exact hgood question hquestion
    · rw [List.mem_singleton.mp hquestion]
      exact h

/-- Keeping the list changes nothing else about a prediction, and it holds good questions only
if what states and transitions on the input may lead to are good ones. -/
theorem predictNoting_eq {a : Automaton} (sound : a.Sound) (good : Question → Prop)
    (test : Predicate → StateM σ Bool) (input : Stream α) (s : σ)
    (hresolution : ∀ u id r, u <+: input.ahead.map Symbolic.symbol → a.walk start u = some id →
      ((a.state id).terminal = some r ∨ (a.state id).accept = some r) →
        ∀ q ∈ r.predicates, good ⟨q, u⟩)
    (hgate : ∀ u x id t g, u ++ [x] <+: input.ahead.map Symbolic.symbol →
      a.walk start u = some id → (a.state id).edge? x = some t → t.gate = some g →
        ∀ q ∈ g.predicates, good ⟨q, u ++ [x]⟩) :
    ∃ asked, (a.predictNoting test input).run (s, []) =
        (((a.predict test input).run s).1, (((a.predict test input).run s).2, asked)) ∧
      asked.map (·.predicate) = (a.questions test input s).map (·.1) ∧
      ∀ question ∈ asked, good question := by
  have halike : Alike (Inquiry.Same (Noted good))
      (a.predictTelling (fun _ => recording test) start input.index [] input.ahead)
      (a.predictTelling (noting test) start input.index [] input.ahead) :=
    alike_predictTelling
      (fun u id r hu hwalk hr q hq => alike_noting test (hresolution u id r hu hwalk hr q hq))
      (fun u x id t g hu hwalk ht hg q hq => alike_noting test (hgate u x id t g hu hwalk ht hg q hq))
      rfl rfl
  rw [predictTelling_const] at halike
  obtain ⟨hverdict, ⟨hhost, hsame, hgood⟩, _⟩ :=
    halike ⟨(s, []), []⟩ ⟨(s, []), []⟩ ⟨⟨rfl, rfl, nofun⟩, rfl⟩
  obtain ⟨hrecording, _⟩ := predict_recording sound test input s
  have hverdict' := (congrArg Prod.fst hrecording).symm.trans hverdict
  have hhost' := (congrArg (·.2.1) hrecording).symm.trans hhost
  have hlog := congrArg (·.2.2.map (·.1)) hrecording
  exact ⟨_, Prod.ext hverdict'.symm (Prod.ext hhost'.symm rfl), hsame.trans hlog, hgood⟩

end Automaton

open Construction in
/-- **Predicates of excluded alternatives are never asked for.** Whatever the host is asked for
in a prediction, it is a predicate of the grammar that some alternative passes before its first
symbol: on a lookahead run that reads exactly the symbols of the transitions followed so far,
with the next one where the gate of the transition on it asks, and that ends live. -/
theorem predict_asks_passed {definition : GrammarDefinition} {a : Analyzer}
    (hgrammar : definition.build = .ok a.grammar) {d : Decision} {site : Site}
    (hsite : outcome (a.plan a.terrain d) = (.ok (), site)) {σ α : Type} [Symbolic α]
    (test : Predicate → StateM σ Bool) (input : Stream α) (s : σ) :
    let automaton := a.automatonOf d site
    ∃ asked, (automaton.predictNoting test input).run (s, []) =
        (((automaton.predict test input).run s).1,
          (((automaton.predict test input).run s).2, asked)) ∧
      asked.map (·.predicate) = (automaton.questions test input s).map (·.1) ∧
      ∀ question ∈ asked, question.read <+: input.ahead.map Symbolic.symbol ∧
        a.grammar.predicates[question.predicate.id]? = some question.predicate ∧
        ∃ alt ps q, LookaheadRun a.terrain d.id alt ps q ∧ q.Live a.terrain ∧
          Passage.symbols ps = question.read ∧ question.predicate.id ∈ Passage.leading ps := by
  intro automaton
  have sound := a.sound_terrain hgrammar
  obtain ⟨asked, hrun, hquestions, hgood⟩ := Automaton.predictNoting_eq
    (sound_automaton sound hsite)
    (fun question => question.read <+: input.ahead.map Symbolic.symbol ∧
      PassedLive a.terrain d.id question.read question.predicate)
    test input s
    (fun u id r hu hwalk hr q hq => ⟨hu, passedLive_of_resolution sound hsite hwalk hr hq⟩)
    (fun u x id t g hu hwalk ht hg q hq => ⟨hu, passedLive_of_gate sound hsite hwalk ht hg hq⟩)
  refine ⟨asked, hrun, hquestions, fun question hquestion => ?_⟩
  obtain ⟨hread, ⟨alt, q⟩, hlive, hgrammar, ps, hps, hsymbols, hleading⟩ := hgood question hquestion
  exact ⟨hread, hgrammar, alt, ps, q, hps, hlive, hsymbols, hleading⟩

/-- What a host that opens the gate is asked for on the way through the automaton of the grammar
with two ways. -/
def twoWaysAsked (input : Stream Token) : List Question :=
  ((twoWaysAutomaton.predictNoting (knowing fastOpen) input).run (0, [])).2.2

/-- The tokens `A C`. -/
def twoWaysOther : Stream Token := .ofList [⟨4, "a", 0, 1⟩, ⟨6, "c", 1, 2⟩]

/-- On `A A B` the gate is asked for once the `B` has been seen, and a run that passes it reads
`A A B`. On `A C`, which the alternative with the gate does not read, it is not asked for. -/
theorem predict_asks_passed_twoWays :
    twoWaysAsked twoWaysInput = [⟨⟨0, "fast", .gated, "s", none⟩, [4, 4, 5]⟩] ∧
      (∃ alt ps q, LookaheadRun twoWaysAnalyzer.terrain 0 alt ps q ∧
        q.Live twoWaysAnalyzer.terrain ∧ Passage.symbols ps = [4, 4, 5] ∧
        0 ∈ Passage.leading ps) ∧
      twoWaysAsked twoWaysOther = [] := by
  have hasked : twoWaysAsked twoWaysInput = [⟨⟨0, "fast", .gated, "s", none⟩, [4, 4, 5]⟩] := by
    decide +kernel
  have hother : twoWaysAsked twoWaysOther = [] := by decide +kernel
  obtain ⟨asked, hrun, _, hpassed⟩ := predict_asks_passed twoWays_builds twoWays_outcome
    (knowing fastOpen) twoWaysInput 0
  have hnoted : twoWaysAsked twoWaysInput = asked := by
    rw [twoWaysAsked, twoWaysAutomaton, hrun]
  rw [← hnoted, hasked] at hpassed
  obtain ⟨_, _, alt, ps, q, hps⟩ := hpassed _ (.head _)
  exact ⟨hasked, ⟨alt, ps, q, hps⟩, hother⟩

end Lookahead
