import Lookahead.Automaton.Cycle
import Lookahead.Automaton.Text
import Lookahead.Recognition.Prediction
import Lookahead.Wire.Automaton

/-! What is written as plain data is read back as it was.

One lemma for each type says so, `ofWire?_toWire`, with the types of its fields done
before it. All of them are about equality in every field: two predicates with one
number are the same to the order of guards, yet a text or a mode that got lost would
show here. Guards are read as they were written, whether canonical or not. -/
namespace Lookahead

namespace Wire

theorem field_record (name key : String) (value : Wire) (fields : List (String × Wire)) :
    (record ((key, value) :: fields)).field name =
      if name = key then value else (record fields).field name := by
  by_cases h : name = key
  · simp [field, h]
  · simp [field, h, List.lookup_cons, beq_false_of_ne h]

/-- What may be missing is read back unless it is itself written as what is not
there. -/
theorem option?_ofOption {read : Wire → Option α} {write : α → Wire}
    (there : ∀ a, write a ≠ .null) (back : ∀ a, read (write a) = some a) (o : Option α) :
    (ofOption write o).option? read = some o := by
  cases o with
  | none => rfl
  | some a =>
    have : (write a).option? read = (read (write a)).map some := by
      unfold option?
      split
      · next h => exact absurd h (there a)
      · rfl
    simpa [ofOption, back a] using this

theorem list?_map {read : Wire → Option α} {write : α → Wire}
    (back : ∀ a, read (write a) = some a) (as : List α) :
    (Wire.list (as.map write)).list? read = some as :=
  readAll_map fun a _ => back a

theorem list?_numbers (ns : List Nat) : (Wire.list (ns.map .number)).list? number? = some ns :=
  have back : ∀ n, number? (.number n) = some n := fun _ => rfl
  list?_map back ns

end Wire

/-! ### Guards -/

theorem PredicateMode.ofWire?_toWire (m : PredicateMode) : ofWire? m.toWire = some m := by
  cases m <;> rfl

theorem SourceLocation.ofWire?_toWire (l : SourceLocation) : ofWire? l.toWire = some l := rfl

theorem SourceLocation.toWire_ne_null (l : SourceLocation) : l.toWire ≠ .null := nofun

theorem Predicate.ofWire?_toWire (p : Predicate) : ofWire? p.toWire = some p := by
  have hmode := p.mode.ofWire?_toWire
  have hlocation := Wire.option?_ofOption SourceLocation.toWire_ne_null
    SourceLocation.ofWire?_toWire p.location
  simp [ofWire?, toWire, Wire.field_record, hmode, hlocation, Wire.number?, Wire.text?]

namespace Guard

mutual
theorem ofWire?_toWire : (g : Guard) → ofWire? g.toWire = some g
  | .never | .always => by simp [toWire, ofWire?]
  | .leaf p => by simp [toWire, Wire.shape, ofWire?, p.ofWire?_toWire]
  | .not g => by simp [toWire, Wire.shape, ofWire?, ofWire?_toWire g]
  | .all gs => by simp [toWire, Wire.shape, ofWire?, ofWires?_toWires gs]
  | .any gs => by simp [toWire, Wire.shape, ofWire?, ofWires?_toWires gs]

theorem ofWires?_toWires : (gs : List Guard) → ofWires? (toWires gs) = some gs
  | [] => by simp [toWires, ofWires?]
  | g :: gs => by simp [toWires, ofWires?, ofWire?_toWire g, ofWires?_toWires gs]
end

theorem toWire_ne_null (g : Guard) : g.toWire ≠ .null := by
  cases g <;> simp [toWire, Wire.shape]

theorem option?_toWire (o : Option Guard) :
    (Wire.ofOption toWire o).option? ofWire? = some o :=
  Wire.option?_ofOption toWire_ne_null ofWire?_toWire o

end Guard

/-! ### Automata -/

theorem Symbol.ofWire?_toWire (s : Symbol) : Symbol.ofWire? (Symbol.toWire s) = some s := by
  have hs : s.toNat < UInt32.size := s.toNat_lt_size
  simp [Symbol.ofWire?, Symbol.toWire, Wire.number?, Option.filter, hs]

theorem Transition.ofWire?_toWire (t : Transition) : ofWire? t.toWire = some t := by
  have hlo := Symbol.ofWire?_toWire t.lo
  have hhi := Symbol.ofWire?_toWire t.hi
  have hgate := Guard.option?_toWire t.gate
  simp [ofWire?, toWire, Wire.field_record, hlo, hhi, hgate, Wire.number?]

theorem Candidate.ofWire?_toWire (c : Candidate) : ofWire? c.toWire = some c := by
  have hguard := Guard.option?_toWire c.guard
  simp [ofWire?, toWire, Wire.field_record, hguard, Wire.number?, Wire.bool?]

namespace Resolution

theorem ofWire?_toWire (r : Resolution) : ofWire? r.toWire = some r := by
  cases r with
  | unique alt => rfl
  | ambiguous chosen alternatives =>
    have halternatives := Wire.list?_numbers alternatives
    simp [ofWire?, toWire, Wire.shape, Wire.field_record, halternatives, Wire.number?]
  | predicated candidates =>
    have hcandidates := Wire.list?_map Candidate.ofWire?_toWire candidates
    simp [ofWire?, toWire, Wire.shape, hcandidates]

theorem toWire_ne_null (r : Resolution) : r.toWire ≠ .null := by
  cases r <;> simp [toWire, Wire.shape]

theorem option?_toWire (o : Option Resolution) :
    (Wire.ofOption toWire o).option? ofWire? = some o :=
  Wire.option?_ofOption toWire_ne_null ofWire?_toWire o

end Resolution

theorem State.ofWire?_toWire (s : State) : ofWire? s.toWire = some s := by
  have htransitions := Wire.list?_map Transition.ofWire?_toWire s.transitions
  have haccept := Resolution.option?_toWire s.accept
  have hterminal := Resolution.option?_toWire s.terminal
  simp [ofWire?, toWire, Wire.field_record, htransitions, haccept, hterminal]

theorem DecisionKind.ofWire?_toWire (k : DecisionKind) : ofWire? k.toWire = some k := by
  cases k <;> rfl

namespace Automaton

theorem ofWire?_toWire (a : Automaton) : ofWire? a.toWire = some a := by
  have hkind := a.kind.ofWire?_toWire
  have hstates := Wire.list?_map State.ofWire?_toWire a.states
  simp [ofWire?, toWire, Wire.field_record, hkind, hstates, Wire.number?, Wire.text?]

/-- Automata that are written alike are alike. -/
theorem toWire_injective : Function.Injective toWire := by
  intro a b h
  have ha := ofWire?_toWire a
  rw [h, ofWire?_toWire b] at ha
  exact (Option.some.inj ha).symm

/-- **The wire form of an automaton loses nothing.** What is written can be read, and the automaton
that is read is the one that was written in every field. It is written the same way again, and no
other automaton is. The two are the same as text, have or have not a cycle together, lead on from
each state in the same way, and predict the same for every input and host, which is asked the same
questions. -/
theorem wire_lossless (a : Automaton) :
    ∃ b, ofWire? a.toWire = some b ∧ b = a ∧ b.toWire = a.toWire ∧
      (∀ c, c.toWire = a.toWire ↔ c = a) ∧ b.text = a.text ∧ b.isCyclic = a.isCyclic ∧
      (∀ (id : StateId) (x : Symbol), (b.state id).next? x = (a.state id).next? x) ∧
      ∀ {σ α : Type} [Symbolic α] (test : Predicate → StateM σ Bool) (input : Stream α),
        b.predict test input = a.predict test input :=
  ⟨a, ofWire?_toWire a, rfl, rfl, fun _ => toWire_injective.eq_iff, rfl, rfl, fun _ _ => rfl,
    fun _ _ => rfl⟩

end Automaton
end Lookahead
