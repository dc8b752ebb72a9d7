import Lookahead.Proofs.Grammar.Derivation
import Lookahead.Proofs.Outcome
import Lookahead.Recognition.Recognizer

/-! What events make of the progress of a recognizer.

An event that happens reads the next symbol, passes a predicate that is true, has the host
perform an action or predicts an alternative. Only symbols move the input on. What can not
happen where a derivation is cut off raises an error instead. -/
namespace Lookahead

/-- A token without text. -/
def Token.ofType (type : TokenType) : Token := ⟨type, "", 0, 0⟩

/-- What is left of a stream after some symbols have been read. -/
structure Stream.Reads {α : Type} [Symbolic α] (s : Stream α) (w : List Symbol) (t : Stream α) :
    Prop where
  items : t.items = s.items
  index : t.index = s.index + w.length
  ahead : s.ahead.map Symbolic.symbol = w ++ t.ahead.map Symbolic.symbol

namespace Stream
variable {α : Type} [Symbolic α] {s t u : Stream α} {v w : List Symbol} {x : Symbol}

theorem Reads.refl (s : Stream α) : s.Reads [] s := ⟨rfl, rfl, rfl⟩

theorem Reads.trans (h : s.Reads v t) (h' : t.Reads w u) : s.Reads (v ++ w) u := by
  refine ⟨h'.items.trans h.items, ?_, ?_⟩
  · rw [h'.index, h.index, List.length_append, Nat.add_assoc]
  · rw [h.ahead, h'.ahead, List.append_assoc]

theorem symbol?_succ (s : Stream α) (n : Nat) :
    s.symbol? (n + 1) = (s.ahead.drop n).head?.map Symbolic.symbol := by
  rw [symbol?, peek?, ahead, List.drop_drop, List.head?_drop]
  rfl

theorem symbol?_one (s : Stream α) : s.symbol? 1 = s.ahead.head?.map Symbolic.symbol :=
  s.symbol?_succ 0

theorem symbol?_one_eq_some (h : s.ahead.map Symbolic.symbol = x :: w) : s.symbol? 1 = some x := by
  rw [symbol?_one, ← List.head?_map, h]
  rfl

theorem reads_consume (h : s.symbol? 1 = some x) : s.Reads [x] s.consume := by
  rw [symbol?_one, Option.map_eq_some_iff] at h
  obtain ⟨item, hitem, rfl⟩ := h
  have hlt : s.index < s.items.length := by
    rw [ahead, List.head?_drop] at hitem
    exact (List.getElem?_eq_some_iff.mp hitem).1
  refine ⟨s.items_consume, ?_, ?_⟩
  · rw [consume, if_pos hlt]
    rfl
  · obtain ⟨rest, hrest⟩ := List.head?_eq_some_iff.mp hitem
    rw [ahead_consume, hrest]
    rfl

/-- A stream moves on exactly if symbols have been read. -/
theorem Reads.index_eq_iff (h : s.Reads w t) : t.index = s.index ↔ w = [] := by
  rw [h.index, ← List.length_eq_zero_iff]
  exact Nat.add_eq_left

theorem Reads.length_ahead (h : s.Reads w t) : s.ahead.length = w.length + t.ahead.length := by
  have hlength := congrArg List.length h.ahead
  rwa [List.length_append, List.length_map, List.length_map] at hlength

end Stream

namespace Recognizer
variable {α σ : Type} [Symbolic α] (r : Recognizer σ)

/-- What an event makes of the progress. -/
inductive Step : Progress α σ → Event → Progress α σ → Prop where
  | symbol {p x} (hx : p.input.symbol? 1 = some x) :
    Step p (.symbol x) { p with input := p.input.consume }
  /-- A predicate that is known to be true. -/
  | known {p id} (h : r.analysis.staticValue id = some true) : Step p (.predicate id) p
  /-- A predicate that the host says is true. -/
  | asked {p id predicate host} (hp : r.analysis.grammar.predicates[id]? = some predicate)
    (hs : r.analysis.staticValue id = none)
    (h : (r.host.test predicate).run p.host = (true, host)) :
    Step p (.predicate id) { p with host := host }
  | action {p id a} (ha : r.analysis.grammar.actions[id]? = some a) :
    Step p (.action id) { p with host := ((r.host.perform a).run p.host).2 }
  | choice {p d automaton alt report host} (ha : r.analysis.automaton? d = some automaton)
    (h : (automaton.predict r.host.test p.input).run p.host = (⟨.ok alt, report⟩, host)) :
    Step p (.choice d alt) { p with host := host, reports := p.reports ++ report.toList }

/-- What events make of the progress, one after the other. -/
inductive Does : Progress α σ → List Event → Progress α σ → Prop where
  | nil {p} : Does p [] p
  | cons {p e p' es q} (h : r.Step p e p') (hrest : Does p' es q) : Does p (e :: es) q

/-- The error that comes where a derivation is cut off, and what is left then. -/
inductive Raises : Progress α σ → Cut → RecognitionError → Progress α σ → Prop where
  | symbols {p rule set} (h : ∀ x, p.input.symbol? 1 = some x → x ∉ set) :
    Raises p (.symbols rule set)
      (.mismatchedSymbol rule set (p.input.symbol? 1) p.input.index) p
  /-- A predicate that is known to be false. -/
  | known {p rule id predicate} (hp : r.analysis.grammar.predicates[id]? = some predicate)
    (h : r.analysis.staticValue id = some false) :
    Raises p (.predicate rule id) (.failedPredicate rule predicate.text)
      { p with reports := p.reports ++ [.failure rule predicate.text] }
  /-- A predicate that the host says is false. -/
  | asked {p rule id predicate host} (hp : r.analysis.grammar.predicates[id]? = some predicate)
    (hs : r.analysis.staticValue id = none)
    (h : (r.host.test predicate).run p.host = (false, host)) :
    Raises p (.predicate rule id) (.failedPredicate rule predicate.text)
      { p with host := host, reports := p.reports ++ [.failure rule predicate.text] }
  | decision {p rule d automaton e report host} (ha : r.analysis.automaton? d = some automaton)
    (h : (automaton.predict r.host.test p.input).run p.host = (⟨.error e, report⟩, host)) :
    Raises p (.decision rule d) e { p with host := host, reports := p.reports ++ report.toList }
  | loop {p rule d} : Raises p (.loop rule d) (.earlyExit rule d p.input.index) p

variable {r}

theorem Does.single {p q : Progress α σ} {e : Event} (h : r.Step p e q) : r.Does p [e] q :=
  .cons h .nil

theorem Does.append {p q s : Progress α σ} {es fs : List Event} (h : r.Does p es q)
    (h' : r.Does q fs s) : r.Does p (es ++ fs) s := by
  induction h with
  | nil => exact h'
  | cons hstep _ ih => exact .cons hstep (ih h')

theorem Does.exists_of_append {p q : Progress α σ} {es fs : List Event}
    (h : r.Does p (es ++ fs) q) : ∃ p', r.Does p es p' ∧ r.Does p' fs q := by
  induction es generalizing p with
  | nil => exact ⟨p, .nil, h⟩
  | cons e es ih =>
    cases h with
    | cons hstep hrest =>
      obtain ⟨p', hes, hfs⟩ := ih hrest
      exact ⟨p', .cons hstep hes, hfs⟩

theorem Step.reads {p q : Progress α σ} {e : Event} (h : r.Step p e q) :
    p.input.Reads (Event.symbols [e]) q.input := by
  cases h with
  | symbol hx => exact Stream.reads_consume hx
  | _ => exact .refl _

/-- A choice leaves the input as it is. -/
theorem Step.input_choice {p q : Progress α σ} {d : DecisionId} {alt : Ordinal}
    (h : r.Step p (.choice d alt) q) : q.input = p.input := by
  cases h
  rfl

/-- Only the symbols move the input on, and they are those of the input. -/
theorem Does.reads {p q : Progress α σ} {es : List Event} (h : r.Does p es q) :
    p.input.Reads (Event.symbols es) q.input := by
  induction h with
  | nil => exact .refl _
  | @cons _ e _ es _ hstep _ ih =>
    rw [← List.singleton_append, Event.symbols_append]
    exact hstep.reads.trans ih

/-- An error leaves the input where it came. -/
theorem Raises.input {p q : Progress α σ} {c : Cut} {e : RecognitionError} (h : r.Raises p c e q) :
    q.input = p.input := by
  cases h <;> rfl

end Recognizer
end Lookahead
