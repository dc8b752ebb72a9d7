import Lookahead.Guard.Eval
import Lookahead.Recognition.Error
import Lookahead.Report
import Lookahead.Token

/-! Predicting an alternative: running an automaton ahead of the input.

The input is only looked at. Where guards have to decide, the host is asked for
their predicates, for each one at most once in a prediction, and never for one that
says its own value. -/
namespace Lookahead

/-- What a prediction comes to. -/
structure Verdict where
  result : Except RecognitionError Ordinal
  report : Option Report

/-- A host, and what it has answered during a prediction, in the order of the
questions. -/
structure Inquiry (σ : Type) where
  host : σ
  answers : List (PredicateId × Bool)

namespace Inquiry
variable {σ : Type} (test : Predicate → StateM σ Bool)

/-- The value of a predicate. The host is asked for it only once. -/
def leaf (p : Predicate) : StateM (Inquiry σ) Bool := do
  match p.constant with
  | some value => return value
  | none =>
    let inquiry ← get
    match inquiry.answers.lookup p.id with
    | some value => return value
    | none =>
      let (value, host) := (test p).run inquiry.host
      set (⟨host, inquiry.answers ++ [(p.id, value)]⟩ : Inquiry σ)
      return value

def holds (g : Guard) : StateM (Inquiry σ) Bool := g.ask (leaf test)

/-- A transition without a gate is open. -/
def isOpen (t : Transition) : StateM (Inquiry σ) Bool :=
  match t.gate with
  | some gate => holds test gate
  | none => return true

/-- The first candidate with a guard that holds. -/
def firstTrue : List Candidate → StateM (Inquiry σ) (Option Ordinal)
  | [] => return none
  | c :: cs =>
    match c.guard with
    | none => firstTrue cs
    | some g => do if ← holds test g then return some c.alt else firstTrue cs

end Inquiry

namespace Candidate

/-- Candidates in the order in which their guards are tested: those that leave the
block come first. -/
def inTestingOrder (cs : List Candidate) : List Candidate :=
  cs.filter (·.exit) ++ cs.filter (!·.exit)

/-- The text of the guard that is tested first. -/
def firstGuardText (cs : List Candidate) : String :=
  match (inTestingOrder cs).findSome? (·.guard) with
  | some g => g.text
  | none => ""

end Candidate

namespace Automaton
variable {σ : Type} (a : Automaton) (test : Predicate → StateM σ Bool)

/-- The alternative that a resolution comes to. Where no guard holds, it is the first
one without a guard, and that is reported, since nothing spoke for it. -/
def settle : Resolution → StateM (Inquiry σ) Verdict
  | .unique alt | .ambiguous alt _ => return ⟨.ok alt, none⟩
  | .predicated candidates => do
    match ← Inquiry.firstTrue test (Candidate.inTestingOrder candidates) with
    | some alt => return ⟨.ok alt, none⟩
    | none =>
      match candidates.find? (·.guard.isNone) with
      | some c =>
        return ⟨.ok c.alt, some (.ambiguity a.decision c.alt (candidates.map (·.alt)))⟩
      | none =>
        let predicate := Candidate.firstGuardText candidates
        return ⟨.error (.failedPredicate a.ruleName predicate), some (.failure a.ruleName predicate)⟩

/-- What is decided in a state from which `symbol`, at `index`, does not lead on. -/
def settleHere (s : State) (symbol : Option Symbol) (index : Nat) : StateM (Inquiry σ) Verdict :=
  match s.accept with
  | some r => a.settle test r
  | none => return ⟨.error (.noViableAlternative a.ruleName a.decision symbol index), none⟩

/-- What the automaton comes to from a state, with the items from `index` on ahead. -/
def predictFrom [Symbolic α] (id : StateId) (index : Nat) :
    (ahead : List α) → StateM (Inquiry σ) Verdict
  | [] =>
    let s := a.state id
    match s.terminal with
    | some r => a.settle test r
    | none => a.settleHere test s none index
  | item :: ahead => do
    let s := a.state id
    match s.terminal with
    | some r => a.settle test r
    | none =>
      let symbol := Symbolic.symbol item
      match s.edge? symbol with
      | none => a.settleHere test s (some symbol) index
      | some t =>
        if ← Inquiry.isOpen test t then predictFrom t.target (index + 1) ahead
        else a.settleHere test s (some symbol) index

/-- The alternative for the input ahead. -/
def predict [Symbolic α] (input : Stream α) : StateM σ Verdict := fun host =>
  let (verdict, inquiry) := (a.predictFrom test start input.index input.ahead).run ⟨host, []⟩
  (verdict, inquiry.host)

end Automaton
end Lookahead
