import Lookahead.Proofs.Bisection
import Lookahead.Proofs.Prediction.Inquiry

/-! What a prediction comes to where the values of all predicates are fixed.

Under fixed values nothing is asked and nothing remembered. A prediction follows a trail of
transitions that are open, and where the trail ends the state decides. `realizes_predictFrom`
says that predicting by asking comes to this under the values that the answers leave. -/
namespace Lookahead

/-- The first transition that has a symbol in its range. -/
def State.covering? (s : State) (x : Symbol) : Option Transition :=
  s.transitions.find? fun t => t.lo ≤ x ∧ x ≤ t.hi

namespace Transition

/-- A transition without a gate is open, and any other one where its gate holds. -/
def opens (v : Predicate → Bool) (t : Transition) : Bool := t.gate.all (·.holds v)

def visited (v : Predicate → Bool) (t : Transition) : List Predicate :=
  t.gate.elim [] (·.visited v)

end Transition

/-- The candidate has a guard, and the guard holds. -/
def Candidate.speaks (v : Predicate → Bool) (c : Candidate) : Bool := c.guard.any (·.holds v)

/-- The predicates that settling a resolution meets: those of the guards in testing order up
to the first guard that holds. -/
def Resolution.visited (v : Predicate → Bool) : Resolution → List Predicate
  | unique _ | ambiguous _ _ => []
  | predicated candidates =>
    Guard.visitedUntil v true ((Candidate.inTestingOrder candidates).filterMap (·.guard))

namespace Automaton
variable (a : Automaton) (v : Predicate → Bool)

/-- What candidates come to where a guard speaks for `spoken`: that one, or else the first
without a guard, which is reported. If there is none, the prediction fails, and that is
reported. -/
def decided (candidates : List Candidate) : (spoken : Option Ordinal) → Verdict
  | some alt => ⟨.ok alt, none⟩
  | none =>
    match candidates.find? (·.guard.isNone) with
    | some c => ⟨.ok c.alt, some (.ambiguity a.decision c.alt (candidates.map (·.alt)))⟩
    | none =>
      ⟨.error (.failedPredicate a.ruleName (Candidate.firstGuardText candidates)),
        some (.failure a.ruleName (Candidate.firstGuardText candidates))⟩

/-- What a resolution is settled for. Of several candidates the guard of the first exit that
has one that holds is what speaks, or else that of the first other one. -/
def settled : Resolution → Verdict
  | .unique alt | .ambiguous alt _ => ⟨.ok alt, none⟩
  | .predicated candidates =>
    let spoken := (candidates.find? fun c => c.exit && c.speaks v).or
      (candidates.find? fun c => !c.exit && c.speaks v)
    a.decided candidates (spoken.map (·.alt))

/-- The transitions that are followed on a word: none from a state that ends the prediction,
and from any other one the open transition on the next symbol and those after it. -/
def trail : StateId → List Symbol → List Transition
  | _, [] => []
  | id, x :: w =>
    if (a.state id).terminal.isSome then []
    else
      match (a.state id).covering? x with
      | some t => if t.opens v then t :: trail t.target w else []
      | none => []

/-- The state that transitions lead to, one after the other. -/
def destination (id : StateId) (ts : List Transition) : StateId :=
  ts.foldl (fun _ t => t.target) id

/-- What a state decides where the trail ends, with `symbol` ahead. -/
def concluded (s : State) (symbol : Option Symbol) (index : Nat) : Verdict :=
  match s.terminal.or s.accept with
  | some r => a.settled v r
  | none => ⟨.error (.noViableAlternative a.ruleName a.decision symbol index), none⟩

/-- The predicates met where the trail ends: those of the gate that is shut, if a transition
is on the next symbol, and those of the resolution. -/
def metAtEnd (s : State) (symbol : Option Symbol) : List Predicate :=
  (if s.terminal.isSome then [] else (symbol.bind s.covering?).elim [] (·.visited v)) ++
    (s.terminal.or s.accept).elim [] (·.visited v)

/-- What a prediction comes to from a state, with a word ahead. -/
def foreseenFrom (id : StateId) (index : Nat) (w : List Symbol) : Verdict :=
  let ts := a.trail v id w
  a.concluded v (a.state (destination id ts)) w[ts.length]? (index + ts.length)

/-- The predicates that are met on the way: those of the gates on the trail, and those met
at its end. -/
def metFrom (id : StateId) (w : List Symbol) : List Predicate :=
  let ts := a.trail v id w
  ts.flatMap (·.visited v) ++ metAtEnd v (a.state (destination id ts)) w[ts.length]?

section
variable {α : Type} [Symbolic α] (input : Stream α)

def foreseen : Verdict := a.foreseenFrom v start input.index (input.ahead.map Symbolic.symbol)

def met : List Predicate := a.metFrom v start (input.ahead.map Symbolic.symbol)

/-- The resolution that a prediction ends in, if the state where the trail ends has one. -/
def ending : Option Resolution :=
  let s := a.state (destination start (a.trail v start (input.ahead.map Symbolic.symbol)))
  s.terminal.or s.accept

end

/-- The transitions of each state are on ranges, they ascend without overlapping, and they
lead to states. -/
structure Sound : Prop where
  bounds : ∀ s ∈ a.states, ∀ t ∈ s.transitions, t.lo ≤ t.hi
  ascending : ∀ s ∈ a.states, s.transitions.Pairwise fun t u => t.hi < u.lo
  targets : ∀ s ∈ a.states, ∀ t ∈ s.transitions, t.target < a.states.length

/-! ### The trail -/

section
variable {a v} {id : StateId} {x : Symbol} {w : List Symbol} {t : Transition}

@[simp] theorem trail_nil : a.trail v id [] = [] := by rw [trail]

theorem trail_eq_nil_of_terminal (h : (a.state id).terminal.isSome = true) :
    a.trail v id w = [] := by
  cases w <;> simp [trail, h]

theorem trail_cons_of_open (hterminal : (a.state id).terminal = none)
    (ht : (a.state id).covering? x = some t) (hopen : t.opens v = true) :
    a.trail v id (x :: w) = t :: a.trail v t.target w := by
  simp [trail, hterminal, ht, hopen]

theorem trail_eq_nil_of_shut (h : ∀ t, (a.state id).covering? x = some t → t.opens v = false) :
    a.trail v id (x :: w) = [] := by
  cases hedge : (a.state id).covering? x with
  | none => simp [trail, hedge]
  | some t => simp [trail, hedge, h t hedge]

/-- A trail ends at once or starts with an open transition on the next symbol. -/
theorem trail_cons_cases (a : Automaton) (v : Predicate → Bool) (id : StateId) (x : Symbol)
    (w : List Symbol) :
    a.trail v id (x :: w) = [] ∨ ∃ t, (a.state id).terminal = none ∧
      (a.state id).covering? x = some t ∧ t.opens v = true ∧
      a.trail v id (x :: w) = t :: a.trail v t.target w := by
  by_cases h : (a.state id).terminal = none ∧
      ∃ t, (a.state id).covering? x = some t ∧ t.opens v = true
  · obtain ⟨hterminal, t, ht, hopen⟩ := h
    exact .inr ⟨t, hterminal, ht, hopen, trail_cons_of_open hterminal ht hopen⟩
  · left
    cases hterminal : (a.state id).terminal with
    | some r => exact trail_eq_nil_of_terminal (by simp [hterminal])
    | none => exact trail_eq_nil_of_shut (by simpa [hterminal] using h)

/-- No transition is followed without a symbol. -/
theorem length_trail_le (a : Automaton) (v : Predicate → Bool) (id : StateId) (w : List Symbol) :
    (a.trail v id w).length ≤ w.length := by
  induction w generalizing id with
  | nil => simp
  | cons x w ih =>
    rcases trail_cons_cases a v id x w with hnil | ⟨t, _, _, _, hcons⟩
    · rw [hnil]
      exact Nat.zero_le _
    · rw [hcons]
      exact Nat.succ_le_succ (ih t.target)

/-- Each transition of a trail is an open one of some state. -/
theorem exists_of_mem_trail (h : t ∈ a.trail v id w) :
    t.opens v = true ∧ ∃ id, t ∈ (a.state id).transitions := by
  induction w generalizing id with
  | nil => simp at h
  | cons x w ih =>
    rcases trail_cons_cases a v id x w with hnil | ⟨u, _, hu, hopen, hcons⟩
    · simp [hnil] at h
    · rw [hcons] at h
      rcases List.mem_cons.mp h with rfl | h
      · exact ⟨hopen, id, List.mem_of_find?_eq_some hu⟩
      · exact ih h

/-- A trail that is not empty leads to where its last transition does. -/
theorem exists_destination_eq (id : StateId) {ts : List Transition} (h : ts ≠ []) :
    ∃ t ∈ ts, destination id ts = t.target := by
  obtain ⟨ts, t, rfl⟩ := List.eq_nil_or_concat ts |>.resolve_left h
  exact ⟨t, by simp, by simp [destination]⟩

/-- Where a trail ends and the state does not decide, the transition on the next symbol is shut. -/
theorem opens_eq_false_of_trail_end
    (hterminal : (a.state (destination id (a.trail v id w))).terminal = none)
    (hx : w[(a.trail v id w).length]? = some x)
    (ht : (a.state (destination id (a.trail v id w))).covering? x = some t) :
    t.opens v = false := by
  induction w generalizing id with
  | nil => exact nomatch hx
  | cons y w ih =>
    rcases trail_cons_cases a v id y w with hnil | ⟨u, _, _, _, hcons⟩
    · rw [hnil] at hterminal hx ht
      obtain rfl : y = x := Option.some.inj hx
      refine Bool.eq_false_iff.mpr fun hopen => ?_
      exact nomatch hnil.symm.trans (trail_cons_of_open hterminal ht hopen)
    · rw [hcons] at hterminal hx ht
      exact ih hterminal hx ht

theorem foreseenFrom_of_trail_eq_nil (index : Nat) (h : a.trail v id w = []) :
    a.foreseenFrom v id index w = a.concluded v (a.state id) w.head? index := by
  simp [foreseenFrom, h, destination, List.head?_eq_getElem?]

theorem metFrom_of_trail_eq_nil (h : a.trail v id w = []) :
    a.metFrom v id w = metAtEnd v (a.state id) w.head? := by
  simp [metFrom, h, destination, List.head?_eq_getElem?]

theorem foreseenFrom_of_trail_eq_cons (index : Nat)
    (h : a.trail v id (x :: w) = t :: a.trail v t.target w) :
    a.foreseenFrom v id index (x :: w) = a.foreseenFrom v t.target (index + 1) w := by
  simp [foreseenFrom, h, destination, Nat.add_assoc, Nat.add_comm 1]

theorem metFrom_of_trail_eq_cons (h : a.trail v id (x :: w) = t :: a.trail v t.target w) :
    a.metFrom v id (x :: w) = t.visited v ++ a.metFrom v t.target w := by
  simp [metFrom, h, destination]

end

/-- A resolution comes to an alternative unless a predicate fails. -/
theorem exists_of_settled_eq_error {a : Automaton} {v : Predicate → Bool} {r : Resolution}
    {e : RecognitionError} (h : (a.settled v r).result = .error e) :
    ∃ text, e = .failedPredicate a.ruleName text := by
  cases r with
  | unique | ambiguous => exact nomatch h
  | predicated cs =>
    simp only [settled, decided] at h
    split at h
    · exact nomatch h
    · split at h
      · exact nomatch h
      · exact ⟨_, (Except.error.inj h).symm⟩

/-- What is foreseen is what the resolution is settled for, or that there is none. -/
theorem foreseen_eq {α : Type} [Symbolic α] (a : Automaton) (v : Predicate → Bool)
    (input : Stream α) :
    (∃ r, a.ending v input = some r ∧ a.foreseen v input = a.settled v r) ∨
      a.ending v input = none ∧ ∃ symbol index, a.foreseen v input =
        ⟨.error (.noViableAlternative a.ruleName a.decision symbol index), none⟩ := by
  unfold foreseen foreseenFrom concluded
  cases h : a.ending v input with
  | some r => exact .inl ⟨r, rfl, by rw [ending] at h; simp only [h]⟩
  | none => exact .inr ⟨rfl, _, _, by rw [ending] at h; simp only [h]; rfl⟩

/-- Where an alternative is foreseen, there is a resolution that is settled. -/
theorem exists_ending_of_foreseen {α : Type} [Symbolic α] {a : Automaton} {v : Predicate → Bool}
    {input : Stream α} {alt : Ordinal} (h : (a.foreseen v input).result = .ok alt) :
    ∃ r, a.ending v input = some r ∧ a.foreseen v input = a.settled v r := by
  refine (a.foreseen_eq v input).resolve_right fun ⟨_, _, _, hnone⟩ => ?_
  rw [hnone] at h
  cases h

/-! ### Sound automata -/

theorem mem_states_of_ne_blank {id : StateId} (h : a.state id ≠ .blank) :
    a.state id ∈ a.states := by
  cases hid : a.states[id]? with
  | none => simp [state, hid] at h
  | some s =>
    simp only [state, hid, Option.getD_some]
    exact List.mem_of_getElem? hid

theorem mem_states_of_mem_transitions {id : StateId} {t : Transition}
    (ht : t ∈ (a.state id).transitions) : a.state id ∈ a.states := by
  refine mem_states_of_ne_blank a fun hblank => ?_
  simp [hblank, State.blank] at ht

theorem side_eq_iff {t : Transition} {x : Symbol} : t.side x = .eq ↔ t.lo ≤ x ∧ x ≤ t.hi := by
  simp only [Transition.side, UInt32.lt_iff_toNat_lt, UInt32.le_iff_toNat_le]
  grind

/-- Halving finds the transition that has the symbol in its range. -/
theorem Sound.edge?_eq_covering? {a : Automaton} (h : a.Sound) (id : StateId) (x : Symbol) :
    (a.state id).edge? x = (a.state id).covering? x := by
  have hascending : Ascending (·.side x) (a.state id).transitions := by
    by_cases hnil : (a.state id).transitions = []
    · simp [hnil, Ascending]
    · obtain ⟨t, ht⟩ := List.exists_mem_of_ne_nil _ hnil
      have hmem := mem_states_of_mem_transitions a ht
      refine (h.ascending _ hmem).imp_of_mem fun {t u} ht hu htu => ?_
      have := h.bounds _ hmem t ht
      have := h.bounds _ hmem u hu
      simp only [Transition.side, UInt32.lt_iff_toNat_lt, UInt32.le_iff_toNat_le] at *
      grind
  simp only [State.edge?, bisect_eq_find? hascending, side_eq_iff, State.covering?]

end Automaton

/-! ### Predicting by asking -/

theorem Inquiry.realizes_isOpen (t : Transition) :
    Realizes (fun _ test => isOpen test t) (fun v => t.opens v) fun v => t.visited v := by
  unfold isOpen Transition.opens Transition.visited
  cases t.gate with
  | none => exact Realizes.pure true
  | some g => exact realizes_holds g

theorem Inquiry.realizes_firstTrue (cs : List Candidate) :
    Realizes (fun _ test => firstTrue test cs) (fun v => (cs.find? (·.speaks v)).map (·.alt))
      fun v => Guard.visitedUntil v true (cs.filterMap (·.guard)) := by
  induction cs with
  | nil => exact Realizes.pure none
  | cons c cs ih =>
    unfold firstTrue
    cases hguard : c.guard with
    | none =>
      simp only [List.find?_cons, Candidate.speaks, hguard, List.filterMap_cons]
      exact ih
    | some g =>
      have hrest (b : Bool) : Realizes
          (fun _ test => if b then pure (some c.alt) else firstTrue test cs)
          (fun v => if b then some c.alt else (cs.find? (·.speaks v)).map (·.alt))
          (fun v => if b = true then [] else
            Guard.visitedUntil v true (cs.filterMap (·.guard))) := by
        cases b with
        | false => exact ih
        | true => exact Realizes.pure _
      refine ((realizes_holds g).bind hrest).of_eq (fun v => ?_) fun v => ?_
      · simp only [List.find?_cons, Candidate.speaks, hguard, Option.any_some]
        cases g.holds v <;> rfl
      · simp only [List.filterMap_cons, hguard, Guard.visitedUntil]

theorem Candidate.find?_inTestingOrder (cs : List Candidate) (p : Candidate → Bool) :
    (inTestingOrder cs).find? p =
      (cs.find? fun c => c.exit && p c).or (cs.find? fun c => !c.exit && p c) := by
  simp [inTestingOrder, List.find?_append, List.find?_filter]

namespace Automaton
variable (a : Automaton)

theorem realizes_settle (r : Resolution) :
    Realizes (fun _ test => a.settle test r) (fun v => a.settled v r) fun v => r.visited v := by
  cases r with
  | unique | ambiguous => exact Realizes.pure _
  | predicated cs =>
    unfold settle
    refine ((Inquiry.realizes_firstTrue _).map (a.decided cs) fun spoken σ test => ?_).of_eq
      (fun v => ?_) fun v => rfl
    · cases spoken with
      | some alt => rfl
      | none =>
        simp only [decided]
        cases cs.find? (·.guard.isNone) <;> rfl
    · simp only [settled, Candidate.find?_inTestingOrder]

theorem realizes_settleHere (s : State) (hterminal : s.terminal = none) (symbol : Option Symbol)
    (index : Nat) :
    Realizes (fun _ test => a.settleHere test s symbol index)
      (fun v => a.concluded v s symbol index)
      fun v => (s.terminal.or s.accept).elim [] (·.visited v) := by
  unfold settleHere concluded
  simp only [hterminal, Option.none_or]
  cases s.accept with
  | none => exact Realizes.pure _
  | some r => exact realizes_settle a r

/-- From a state that ends the prediction. -/
theorem realizes_terminal {id : StateId} {r : Resolution} (h : (a.state id).terminal = some r)
    (index : Nat) (w : List Symbol) :
    Realizes (fun _ test => a.settle test r) (fun v => a.foreseenFrom v id index w)
      fun v => a.metFrom v id w := by
  refine (a.realizes_settle r).of_eq (fun v => ?_) fun v => ?_
  · rw [foreseenFrom_of_trail_eq_nil index (trail_eq_nil_of_terminal (by simp [h]))]
    simp [concluded, h]
  · rw [metFrom_of_trail_eq_nil (trail_eq_nil_of_terminal (by simp [h]))]
    simp [metAtEnd, h]

variable {a}

/-- Predicting by asking comes to what is foreseen under the answers. -/
theorem realizes_predictFrom {α : Type} [Symbolic α] (ha : a.Sound) (id : StateId) (index : Nat)
    (ahead : List α) :
    Realizes (fun _ test => a.predictFrom test id index ahead)
      (fun v => a.foreseenFrom v id index (ahead.map Symbolic.symbol))
      fun v => a.metFrom v id (ahead.map Symbolic.symbol) := by
  induction ahead generalizing id index with
  | nil =>
    cases hterminal : (a.state id).terminal with
    | some r =>
      simp only [predictFrom, hterminal]
      exact a.realizes_terminal hterminal index _
    | none =>
      simp only [predictFrom, hterminal]
      refine (a.realizes_settleHere _ hterminal none index).of_eq (fun v => ?_) fun v => ?_
      · exact (foreseenFrom_of_trail_eq_nil index trail_nil).symm
      · simp [metFrom_of_trail_eq_nil trail_nil, metAtEnd, hterminal]
  | cons item ahead ih =>
    cases hterminal : (a.state id).terminal with
    | some r =>
      simp only [predictFrom, hterminal]
      exact a.realizes_terminal hterminal index _
    | none =>
      have hhere := a.realizes_settleHere _ hterminal (some (Symbolic.symbol item)) index
      simp only [predictFrom, hterminal, ha.edge?_eq_covering?, List.map_cons]
      cases hedge : (a.state id).covering? (Symbolic.symbol item) with
      | none =>
        have htrail (v : Predicate → Bool) :
            a.trail v id (Symbolic.symbol item :: ahead.map Symbolic.symbol) = [] :=
          trail_eq_nil_of_shut (by simp [hedge])
        refine hhere.of_eq (fun v => ?_) fun v => ?_
        · exact (foreseenFrom_of_trail_eq_nil index (htrail v)).symm
        · simp [metFrom_of_trail_eq_nil (htrail v), metAtEnd, hedge]
      | some t =>
        have hnext (b : Bool) : Realizes
            (fun _ test => if b then a.predictFrom test t.target (index + 1) ahead
              else a.settleHere test (a.state id) (some (Symbolic.symbol item)) index)
            (fun v => if b then a.foreseenFrom v t.target (index + 1) (ahead.map Symbolic.symbol)
              else a.concluded v (a.state id) (some (Symbolic.symbol item)) index)
            (fun v => if b then a.metFrom v t.target (ahead.map Symbolic.symbol)
              else ((a.state id).terminal.or (a.state id).accept).elim [] (·.visited v)) := by
          cases b with
          | false => exact hhere
          | true => exact ih t.target (index + 1)
        refine ((Inquiry.realizes_isOpen t).bind hnext).of_eq (fun v => ?_) fun v => ?_
        · by_cases hopen : t.opens v = true
          · rw [if_pos hopen,
              foreseenFrom_of_trail_eq_cons index (trail_cons_of_open hterminal hedge hopen)]
          · rw [if_neg hopen, foreseenFrom_of_trail_eq_nil index
              (trail_eq_nil_of_shut (by simpa [hedge] using hopen))]
            rfl
        · by_cases hopen : t.opens v = true
          · rw [if_pos hopen, metFrom_of_trail_eq_cons (trail_cons_of_open hterminal hedge hopen)]
          · rw [if_neg hopen, metFrom_of_trail_eq_nil
              (trail_eq_nil_of_shut (by simpa [hedge] using hopen))]
            simp [metAtEnd, hterminal, hedge]

end Automaton
end Lookahead
