import Lookahead.Proofs.Construction.Traced
import Lookahead.Proofs.Prediction
import Lookahead.Proofs.Prediction.MemoFree

/-! Predicting with a host that is told how far the automaton has read.

`predictTelling` is prediction with one thing more: with each question the host is told the
symbols that have been read by then. `Alike` compares programs that ask related hosts. A
prediction asks for nothing but predicates of gates and resolutions on its way, so hosts that
stay related by these questions stay related by all of it (`alike_predictTelling`). -/
namespace Lookahead

/-- From related states both programs come to the same value and to related states. -/
def Alike {σ τ β : Type} (R : σ → τ → Prop) (m : StateM σ β) (m' : StateM τ β) : Prop :=
  ∀ s t, R s t → (m.run s).1 = (m'.run t).1 ∧ R (m.run s).2 (m'.run t).2

namespace Alike
variable {σ τ β γ : Type} {R : σ → τ → Prop}

theorem pure (R : σ → τ → Prop) (b : β) : Alike R (pure b) (pure b) := fun _ _ h => ⟨rfl, h⟩

theorem bind {m : StateM σ β} {m' : StateM τ β} {k : β → StateM σ γ} {k' : β → StateM τ γ}
    (hm : Alike R m m') (hk : ∀ b, Alike R (k b) (k' b)) : Alike R (m >>= k) (m' >>= k') := by
  intro s t h
  obtain ⟨hvalue, hstates⟩ := hm s t h
  have hrest := hk (m.run s).1 (m.run s).2 (m'.run t).2 hstates
  rw [StateT.run_bind, StateT.run_bind]
  show ((k (m.run s).1).run (m.run s).2).1 = ((k' (m'.run t).1).run (m'.run t).2).1 ∧
    R ((k (m.run s).1).run (m.run s).2).2 ((k' (m'.run t).1).run (m'.run t).2).2
  rwa [← hvalue]

end Alike

namespace Inquiry
variable {σ τ : Type} {R : σ → τ → Prop}

/-- The hosts are related, and they have given the same answers. -/
structure Same (R : σ → τ → Prop) (i : Inquiry σ) (j : Inquiry τ) : Prop where
  host : R i.host j.host
  answers : i.answers = j.answers

variable {test : Predicate → StateM σ Bool} {test' : Predicate → StateM τ Bool}

theorem alike_leaf {q : Predicate} (h : Alike R (test q) (test' q)) :
    Alike (Same R) (leaf test q) (leaf test' q) := by
  rintro ⟨s, answers⟩ ⟨t, _⟩ ⟨hR, rfl⟩
  cases hconstant : q.constant with
  | some value =>
    rw [run_leaf_of_constant test s hconstant, run_leaf_of_constant test' t hconstant]
    exact ⟨rfl, hR, rfl⟩
  | none =>
    cases hlookup : answers.lookup q.id with
    | some value =>
      rw [run_leaf_of_known test s hconstant hlookup, run_leaf_of_known test' t hconstant hlookup]
      exact ⟨rfl, hR, rfl⟩
    | none =>
      obtain ⟨hvalue, hhosts⟩ := h s t hR
      rw [run_leaf_of_new test s hconstant hlookup, run_leaf_of_new test' t hconstant hlookup]
      exact ⟨hvalue, hhosts, by rw [hvalue]⟩

mutual
theorem alike_ask : (g : Guard) → (∀ q ∈ g.predicates, Alike R (test q) (test' q)) →
    Alike (Same R) (g.ask (leaf test)) (g.ask (leaf test'))
  | .never, _ => by
    simp only [Guard.ask]
    exact .pure _ _
  | .always, _ => by
    simp only [Guard.ask]
    exact .pure _ _
  | .leaf p, h => by
    simp only [Guard.ask]
    exact alike_leaf (h p (by simp [Guard.predicates]))
  | .not g, h => by
    simp only [Guard.ask]
    exact (alike_ask g (by simpa only [Guard.predicates] using h)).bind fun _ => .pure _ _
  | .all gs, h => by
    simp only [Guard.ask]
    exact alike_askAll gs (by simpa only [Guard.predicates] using h)
  | .any gs, h => by
    simp only [Guard.ask]
    exact alike_askAny gs (by simpa only [Guard.predicates] using h)

theorem alike_askAll : (gs : List Guard) →
    (∀ q ∈ Guard.predicatesOf gs, Alike R (test q) (test' q)) →
    Alike (Same R) (Guard.askAll (leaf test) gs) (Guard.askAll (leaf test') gs)
  | [], _ => by
    simp only [Guard.askAll]
    exact .pure _ _
  | g :: gs, h => by
    simp only [Guard.predicatesOf, List.mem_append] at h
    simp only [Guard.askAll]
    refine (alike_ask g fun q hq => h q (.inl hq)).bind fun b => ?_
    cases b with
    | false => exact .pure _ _
    | true => exact alike_askAll gs fun q hq => h q (.inr hq)

theorem alike_askAny : (gs : List Guard) →
    (∀ q ∈ Guard.predicatesOf gs, Alike R (test q) (test' q)) →
    Alike (Same R) (Guard.askAny (leaf test) gs) (Guard.askAny (leaf test') gs)
  | [], _ => by
    simp only [Guard.askAny]
    exact .pure _ _
  | g :: gs, h => by
    simp only [Guard.predicatesOf, List.mem_append] at h
    simp only [Guard.askAny]
    refine (alike_ask g fun q hq => h q (.inl hq)).bind fun b => ?_
    cases b with
    | false => exact alike_askAny gs fun q hq => h q (.inr hq)
    | true => exact .pure _ _
end

theorem alike_isOpen {t : Transition}
    (h : ∀ g, t.gate = some g → ∀ q ∈ g.predicates, Alike R (test q) (test' q)) :
    Alike (Same R) (isOpen test t) (isOpen test' t) := by
  unfold isOpen
  cases hgate : t.gate with
  | none => exact .pure _ _
  | some g => exact alike_ask g (h g hgate)

theorem alike_firstTrue {cs : List Candidate}
    (h : ∀ c ∈ cs, ∀ g, c.guard = some g → ∀ q ∈ g.predicates, Alike R (test q) (test' q)) :
    Alike (Same R) (firstTrue test cs) (firstTrue test' cs) := by
  induction cs with
  | nil => exact .pure _ _
  | cons c cs ih =>
    have hrest := ih fun c' hc' => h c' (.tail _ hc')
    unfold firstTrue
    cases hguard : c.guard with
    | none => exact hrest
    | some g =>
      refine (alike_ask g (h c (.head _) g hguard)).bind fun b => ?_
      cases b with
      | false => exact hrest
      | true => exact .pure _ _

end Inquiry

namespace Automaton
variable {σ τ α : Type} [Symbolic α] (a : Automaton)

/-- Predicting, where the host is told the symbols of the transitions that have been followed,
and the next one besides where the gate of the transition on it is asked for. -/
def predictTelling (test : List Symbol → Predicate → StateM σ Bool) (id : StateId) (index : Nat)
    (read : List Symbol) : (ahead : List α) → StateM (Inquiry σ) Verdict
  | [] =>
    let s := a.state id
    match s.terminal with
    | some r => a.settle (test read) r
    | none => a.settleHere (test read) s none index
  | item :: ahead => do
    let s := a.state id
    match s.terminal with
    | some r => a.settle (test read) r
    | none =>
      let symbol := Symbolic.symbol item
      match s.edge? symbol with
      | none => a.settleHere (test read) s (some symbol) index
      | some t =>
        if ← Inquiry.isOpen (test (read ++ [symbol])) t then
          predictTelling test t.target (index + 1) (read ++ [symbol]) ahead
        else a.settleHere (test read) s (some symbol) index

/-- A host that does not listen is asked as usual. -/
theorem predictTelling_const (test : Predicate → StateM σ Bool) (id : StateId) (index : Nat)
    (read : List Symbol) (ahead : List α) :
    a.predictTelling (fun _ => test) id index read ahead = a.predictFrom test id index ahead := by
  induction ahead generalizing id index read with
  | nil => rfl
  | cons item ahead ih =>
    cases hterminal : (a.state id).terminal with
    | some r => simp only [predictTelling, predictFrom, hterminal]
    | none =>
      cases hedge : (a.state id).edge? (Symbolic.symbol item) with
      | none => simp only [predictTelling, predictFrom, hterminal, hedge]
      | some t => simp only [predictTelling, predictFrom, hterminal, hedge, ih]

variable {a} {R : σ → τ → Prop}

theorem alike_settle {test : Predicate → StateM σ Bool} {test' : Predicate → StateM τ Bool}
    {r : Resolution} (h : ∀ q ∈ r.predicates, Alike R (test q) (test' q)) :
    Alike (Inquiry.Same R) (a.settle test r) (a.settle test' r) := by
  cases r with
  | unique | ambiguous => exact .pure _ _
  | predicated cs =>
    unfold settle
    refine (Inquiry.alike_firstTrue fun c hc g hg q hq => h q ?_).bind fun spoken => ?_
    · exact Resolution.mem_predicates_predicated.mpr
        ⟨c, Candidate.mem_inTestingOrder.mp hc, g, hg, hq⟩
    · cases spoken with
      | some alt => exact .pure _ _
      | none =>
        dsimp only
        split
        · exact .pure _ _
        · exact .pure _ _

theorem alike_settleHere {test : Predicate → StateM σ Bool} {test' : Predicate → StateM τ Bool}
    {s : State} (h : ∀ r, s.accept = some r → ∀ q ∈ r.predicates, Alike R (test q) (test' q))
    (symbol : Option Symbol) (index : Nat) :
    Alike (Inquiry.Same R) (a.settleHere test s symbol index)
      (a.settleHere test' s symbol index) := by
  unfold settleHere
  cases haccept : s.accept with
  | none => exact .pure _ _
  | some r => exact alike_settle (h r haccept)

section
variable {test : List Symbol → Predicate → StateM σ Bool}
  {test' : List Symbol → Predicate → StateM τ Bool} {w : List Symbol}

/-- Predictions on a word stay alike where hosts are related by the questions that states and
transitions on the word may lead to. -/
theorem alike_predictTelling
    (hresolution : ∀ u id r, u <+: w → a.walk start u = some id →
      ((a.state id).terminal = some r ∨ (a.state id).accept = some r) →
        ∀ q ∈ r.predicates, Alike R (test u q) (test' u q))
    (hgate : ∀ u x id t g, u ++ [x] <+: w → a.walk start u = some id →
      (a.state id).edge? x = some t → t.gate = some g →
        ∀ q ∈ g.predicates, Alike R (test (u ++ [x]) q) (test' (u ++ [x]) q))
    {id : StateId} {index : Nat} {read : List Symbol} {ahead : List α}
    (hw : read ++ ahead.map Symbolic.symbol = w) (hwalk : a.walk start read = some id) :
    Alike (Inquiry.Same R) (a.predictTelling test id index read ahead)
      (a.predictTelling test' id index read ahead) := by
  have hsettle {id : StateId} {read : List Symbol} (hread : read <+: w)
      (hwalk : a.walk start read = some id) {r : Resolution}
      (hr : (a.state id).terminal = some r) :
      Alike (Inquiry.Same R) (a.settle (test read) r) (a.settle (test' read) r) :=
    alike_settle (hresolution read id r hread hwalk (.inl hr))
  have hhere {id : StateId} {read : List Symbol} (hread : read <+: w)
      (hwalk : a.walk start read = some id) (symbol : Option Symbol) (index : Nat) :
      Alike (Inquiry.Same R) (a.settleHere (test read) (a.state id) symbol index)
        (a.settleHere (test' read) (a.state id) symbol index) :=
    alike_settleHere (fun r hr => hresolution read id r hread hwalk (.inr hr)) symbol index
  induction ahead generalizing id index read with
  | nil =>
    have hread : read <+: w := ⟨_, hw⟩
    simp only [predictTelling]
    split
    · next r hr => exact hsettle hread hwalk hr
    · exact hhere hread hwalk none index
  | cons item ahead ih =>
    have hread : read <+: w := ⟨_, hw⟩
    rw [List.map_cons, ← List.singleton_append, ← List.append_assoc] at hw
    simp only [predictTelling]
    split
    · next r hr => exact hsettle hread hwalk hr
    · split
      · exact hhere hread hwalk _ index
      · next t ht =>
        have hopen := Inquiry.alike_isOpen fun g hg =>
          hgate read (Symbolic.symbol item) id t g ⟨_, hw⟩ hwalk ht hg
        refine hopen.bind fun b => ?_
        cases b with
        | false => exact hhere hread hwalk _ index
        | true =>
          refine ih hw ?_
          rw [walk_snoc, hwalk, Option.bind_some, State.next?, ht]
          rfl

end
end Automaton
end Lookahead
