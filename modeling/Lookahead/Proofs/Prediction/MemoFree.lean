import Lookahead.Proofs.Prediction.Foreseen

/-! A prediction asks each question once and comes to what its answers foresee.

The answers to a prediction's questions may depend on one another. Whatever they are, they
fix the values of the predicates, and under these values the prediction could have been
foreseen. What it asked is what is met on the way that foresight takes. -/
namespace Lookahead

namespace Automaton
variable {σ α : Type} [Symbolic α]

/-- What a prediction asks of the host, and the answers. -/
def questions (a : Automaton) (test : Predicate → StateM σ Bool) (input : Stream α) (s : σ) : Log :=
  ((a.predict (recording test) input).run (s, [])).2.2

variable {a : Automaton}

theorem run_predict (a : Automaton) (test : Predicate → StateM σ Bool) (input : Stream α) (s : σ) :
    (a.predict test input).run s =
      (((a.predictFrom test start input.index input.ahead).run ⟨s, []⟩).1,
        ((a.predictFrom test start input.index input.ahead).run ⟨s, []⟩).2.host) := rfl

/-- Keeping a log changes nothing else about a prediction, what is logged are answers of the
host to questions, and values that respect them foresee the prediction. -/
theorem predict_recording (sound : a.Sound) (test : Predicate → StateM σ Bool) (input : Stream α)
    (s : σ) :
    (a.predict (recording test) input).run (s, []) =
        (((a.predict test input).run s).1,
          (((a.predict test input).run s).2, a.questions test input s)) ∧
      (∀ e ∈ a.questions test input s,
        e.1.constant = none ∧ ∃ s, ((test e.1).run s).1 = e.2) ∧
      ∀ v, Respects v (a.questions test input s).byNumber →
        ((a.predict test input).run s).1 = a.foreseen v input ∧
          (a.questions test input s).map (·.1) = Predicate.toAsk [] (a.met v input) := by
  obtain ⟨verdict, host, log, hrun, hlog, htest, hvalue⟩ :=
    realizes_predictFrom sound start input.index input.ahead σ test s [] []
  have hpredict : (a.predict test input).run s = (verdict, host) := by
    rw [run_predict, hrun]
  have hrecording : (a.predict (recording test) input).run (s, []) = (verdict, (host, log)) := by
    rw [run_predict, hlog]
    rfl
  have hquestions : a.questions test input s = log := by rw [questions, hrecording]
  rw [hpredict, hrecording, hquestions]
  refine ⟨rfl, fun e he => ⟨?_, htest e he⟩, fun v hv => ⟨(hvalue v hv).1.symm,
    (hvalue v hv).2.symm⟩⟩
  have hlogged := (hvalue log.valuation log.respects_valuation).2
  exact Predicate.constant_of_mem_toAsk (hlogged.symm ▸ List.mem_map_of_mem he)

/-- A prediction comes to what is foreseen under the values that its answers leave. -/
theorem predict_eq_foreseen (sound : a.Sound) (test : Predicate → StateM σ Bool)
    (input : Stream α) (s : σ) :
    ((a.predict test input).run s).1 = a.foreseen (a.questions test input s).valuation input :=
  ((predict_recording sound test input s).2.2 _ (Log.respects_valuation _)).1

/-- Transitions that are followed lead to states. -/
theorem Sound.target_lt_of_mem_trail (sound : a.Sound) {v : Predicate → Bool} {id : StateId}
    {w : List Symbol} {t : Transition} (h : t ∈ a.trail v id w) : t.target < a.states.length := by
  obtain ⟨_, id, ht⟩ := exists_of_mem_trail h
  exact sound.targets _ (mem_states_of_mem_transitions a ht) t ht

/-- From the first state on, a prediction comes only to numbers that have a state. -/
theorem Sound.lt_of_mem_visited (sound : a.Sound) (hstates : a.states ≠ []) {v : Predicate → Bool}
    {w : List Symbol} {id : StateId} (h : id ∈ start :: (a.trail v start w).map (·.target)) :
    id < a.states.length := by
  rcases List.mem_cons.mp h with rfl | h
  · exact List.length_pos_iff.mpr hstates
  · obtain ⟨t, ht, rfl⟩ := List.mem_map.mp h
    exact sound.target_lt_of_mem_trail ht

/-- **A prediction equals its specification, in which nothing is remembered.** No number is
asked for twice, and no predicate that says its own value. Under the values that the
answers leave, the verdict is the one that is foreseen, with its report, and the questions
are for what is met on the way, in this order. The way starts in a state, and each transition
that is followed leads to one. -/
theorem predict_memo_free (sound : a.Sound) (hstates : a.states ≠ [])
    (test : Predicate → StateM σ Bool) (input : Stream α) (s : σ) :
    let log := a.questions test input s
    (a.predict (recording test) input).run (s, []) =
        (((a.predict test input).run s).1, (((a.predict test input).run s).2, log)) ∧
      (log.map (·.1.id)).Nodup ∧ (∀ e ∈ log, e.1.constant = none) ∧
      ((a.predict test input).run s).1 = a.foreseen log.valuation input ∧
      log.map (·.1) = Predicate.toAsk [] (a.met log.valuation input) ∧
      ∀ id ∈ start ::
          (a.trail log.valuation start (input.ahead.map Symbolic.symbol)).map (·.target),
        id < a.states.length := by
  intro log
  obtain ⟨hrecording, hlogged, hforeseen⟩ := predict_recording sound test input s
  obtain ⟨hverdict, hlog⟩ := hforeseen log.valuation log.respects_valuation
  refine ⟨hrecording, ?_, fun e he => (hlogged e he).1, hverdict, hlog,
    fun id => sound.lt_of_mem_visited hstates⟩
  have hnodup := Predicate.nodup_toAsk [] (a.met log.valuation input) List.nodup_nil
  rw [← hlog, List.map_map] at hnodup
  exact hnodup

/-! ### Guards behind a gate of the same predicates -/

namespace GateAndGuards

def first : Predicate := ⟨0, "first", .gated, "s", none⟩

def second : Predicate := ⟨1, "second", .validating, "s", none⟩

def literal : Predicate := ⟨2, "false", .validating, "s", none⟩

def automaton : Automaton where
  decision := 0
  rule := 0
  ruleName := "s"
  kind := .optional
  altCount := 3
  states :=
    [⟨[⟨1, 5, 1, some (.all [.leaf first, .not (.leaf second)])⟩], none, none⟩,
      ⟨[], none, some (.predicated
        [⟨1, some (.any [.leaf literal, .not (.leaf first)]), false⟩, ⟨2, none, false⟩,
          ⟨3, some (.leaf second), true⟩])⟩]

/-- A host that answers yes and no in turn. -/
def alternating (_ : Predicate) : StateM Nat Bool := fun n => (n % 2 == 0, n + 1)

theorem sound : automaton.Sound := by
  constructor <;> decide

end GateAndGuards

open GateAndGuards in
theorem predict_memo_free_alternating :
    let input := Stream.ofList [(⟨3, "x", 0, 1⟩ : Token)]
    let log := automaton.questions alternating input 0
    automaton.Sound ∧ automaton.states ≠ [] ∧ log = [(first, true), (second, false)] ∧
      (automaton.predict (recording alternating) input).run (0, []) =
        (⟨.ok 2, some (.ambiguity 0 2 [1, 2, 3])⟩, (2, log)) ∧
      (log.map (·.1.id)).Nodup ∧ (∀ e ∈ log, e.1.constant = none) ∧
      automaton.foreseen log.valuation input = ⟨.ok 2, some (.ambiguity 0 2 [1, 2, 3])⟩ ∧
      automaton.met log.valuation input = [first, second, second, literal, first] ∧
      log.map (·.1) = Predicate.toAsk [] [first, second, second, literal, first] ∧
      ∀ id ∈ start :: (automaton.trail log.valuation start [3]).map (·.target),
        id < automaton.states.length := by
  intro input log
  have hlog : log = [(first, true), (second, false)] := by decide +kernel
  have hrun : ((automaton.predict alternating input).run 0) =
      (⟨.ok 2, some (.ambiguity 0 2 [1, 2, 3])⟩, 2) := rfl
  have hmet : automaton.met log.valuation input = [first, second, second, literal, first] := by
    decide +kernel
  obtain ⟨hrecording, hnodup, hconstant, hverdict, hmap, htrail⟩ :=
    predict_memo_free GateAndGuards.sound (by decide) alternating input 0
  refine ⟨GateAndGuards.sound, by decide, hlog, ?_, hnodup, hconstant, ?_, hmet, ?_, htrail⟩
  · rw [hrecording, hrun]
  · rw [← hverdict, hrun]
  · rw [← hmet]
    exact hmap

end Automaton
end Lookahead
