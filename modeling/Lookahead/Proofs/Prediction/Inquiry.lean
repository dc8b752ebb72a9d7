import Lookahead.Recognition.Prediction

/-! What is asked of the host.

Evaluating a guard meets predicates from left to right and stops where the value is
known. Not each predicate that is met is asked for: one that says its own value never is,
and a number that has been asked for is not asked for again. `Realizes` ties a program that
asks to what it amounts to under fixed values, its outcome and the predicates that it
meets. It holds of small programs at once and of their sequences by `Realizes.bind`, so
the answers given on the way need not be looked at again. -/
namespace Lookahead

namespace Guard

mutual
/-- The predicates that are met where a guard is evaluated from left to right, and no
further than its value takes. -/
def visited (v : Predicate → Bool) : Guard → List Predicate
  | .never | .always => []
  | .leaf p => [p]
  | .not g => visited v g
  | .all gs => visitedUntil v false gs
  | .any gs => visitedUntil v true gs

/-- The predicates that are met in guards up to the first one with the value `last`. -/
def visitedUntil (v : Predicate → Bool) (last : Bool) : List Guard → List Predicate
  | [] => []
  | g :: gs => visited v g ++ if holds v g = last then [] else visitedUntil v last gs
end

end Guard

/-- Of predicates met in turn those that are asked for: they do not say their own value,
and their number is neither known nor met before. -/
def Predicate.toAsk (known : List PredicateId) : List Predicate → List Predicate
  | [] => []
  | p :: ps =>
    if p.constant.isSome || known.contains p.id then toAsk known ps
    else p :: toAsk (known ++ [p.id]) ps

/-- Questions to a host and its answers, in order. -/
abbrev Log := List (Predicate × Bool)

namespace Log

/-- The answers by the numbers of the predicates. -/
def byNumber (log : Log) : List (PredicateId × Bool) := log.map fun e => (e.1.id, e.2)

/-- The values of predicates after some answers: a predicate that says its own value has
that one, and any other one the first answer to its number. -/
def valuation (log : Log) (p : Predicate) : Bool :=
  p.constant.getD ((log.byNumber.lookup p.id).getD false)

end Log

/-- The host with a log of what it is asked. -/
def recording {σ : Type} (test : Predicate → StateM σ Bool) (p : Predicate) :
    StateM (σ × Log) Bool := fun (host, log) =>
  let (value, host) := (test p).run host
  (value, (host, log ++ [(p, value)]))

/-! ### Predicates to ask for -/

namespace Predicate
variable {known : List PredicateId} {ps qs : List Predicate}

theorem toAsk_append (known : List PredicateId) (ps qs : List Predicate) :
    toAsk known (ps ++ qs) =
      toAsk known ps ++ toAsk (known ++ (toAsk known ps).map (·.id)) qs := by
  induction ps generalizing known with
  | nil => simp [toAsk]
  | cons p ps ih =>
    simp only [List.cons_append, toAsk]
    split
    · exact ih known
    · simp [ih]

theorem constant_of_mem_toAsk {p : Predicate} (h : p ∈ toAsk known ps) : p.constant = none := by
  induction ps generalizing known with
  | nil => exact nomatch h
  | cons q qs ih =>
    simp only [toAsk] at h
    split at h
    · exact ih h
    · next hq =>
      rcases List.mem_cons.mp h with rfl | h
      · simp only [Bool.or_eq_true, not_or, Option.not_isSome_iff_eq_none] at hq
        exact hq.1
      · exact ih h

/-- No number that is known is asked for, and none twice. -/
theorem nodup_toAsk (known : List PredicateId) (ps : List Predicate) (h : known.Nodup) :
    (known ++ (toAsk known ps).map (·.id)).Nodup := by
  induction ps generalizing known with
  | nil => simpa [toAsk] using h
  | cons p ps ih =>
    simp only [toAsk]
    split
    · exact ih known h
    · next hp =>
      simp only [Bool.or_eq_true, not_or, List.contains_iff_mem] at hp
      have := ih (known ++ [p.id]) (by
        rw [List.nodup_append]
        simp only [List.nodup_cons, List.mem_singleton]
        grind)
      simpa using this

end Predicate

/-! ### Values that respect answers -/

/-- The values say what predicates say of themselves and what has been answered. -/
structure Respects (v : Predicate → Bool) (answers : List (PredicateId × Bool)) : Prop where
  constants : ∀ {p : Predicate} {value}, p.constant = some value → v p = value
  answers : ∀ {p : Predicate} {value}, p.constant = none →
    answers.lookup p.id = some value → v p = value

namespace Respects
variable {v : Predicate → Bool} {answers answers' : List (PredicateId × Bool)}

theorem of_append (h : Respects v (answers ++ answers')) : Respects v answers where
  constants := h.constants
  answers hp hlookup := h.answers hp (by rw [List.lookup_append, hlookup, Option.some_or])

end Respects

theorem Log.exists_of_lookup {log : Log} {id : PredicateId} {value : Bool}
    (h : log.byNumber.lookup id = some value) : ∃ e ∈ log, e.1.id = id ∧ e.2 = value := by
  obtain ⟨before, after, hlog, _⟩ := List.lookup_eq_some_iff.mp h
  have hmem : (id, value) ∈ log.byNumber := by simp [hlog]
  obtain ⟨e, he, heq⟩ := List.mem_map.mp hmem
  exact ⟨e, he, Prod.mk.inj heq⟩

theorem Log.respects_valuation (log : Log) : Respects log.valuation log.byNumber where
  constants h := by simp [valuation, h]
  answers h hlookup := by simp [valuation, h, hlookup]

section
variable {answers : List (PredicateId × Bool)} {id : PredicateId} {value : Bool}

theorem mem_map_of_lookup (h : answers.lookup id = some value) : id ∈ answers.map (·.1) := by
  obtain ⟨e, he, hid⟩ := List.lookup_isSome_iff.mp (h ▸ rfl : (answers.lookup id).isSome)
  exact List.mem_map.mpr ⟨e, he, (beq_iff_eq.mp hid).symm⟩

theorem not_mem_map_of_lookup (h : answers.lookup id = none) : id ∉ answers.map (·.1) := by
  intro hmem
  obtain ⟨e, he, rfl⟩ := List.mem_map.mp hmem
  simpa using List.lookup_eq_none_iff.mp h e he

/-- An answer that was not known before is the one that counts. -/
theorem lookup_append_of_fresh (h : answers.lookup id = none) :
    (answers ++ [(id, value)]).lookup id = some value := by
  simp [List.lookup_append, h]

end

/-! ### Programs that ask -/

/-- A program that may ask any host. -/
abbrev Asking (β : Type) := (σ : Type) → (Predicate → StateM σ Bool) → StateM (Inquiry σ) β

/-- Whatever is known before, the program asks for those predicates that `met` lists and that
are not known, in this order, and comes to `value`, both under the values that come out.
The log gets what is asked, and keeping it has no effect besides. -/
def Realizes {β : Type} (m : Asking β) (value : (Predicate → Bool) → β)
    (met : (Predicate → Bool) → List Predicate) : Prop :=
  ∀ (σ : Type) (test : Predicate → StateM σ Bool) (host : σ) (log : Log)
    (answers : List (PredicateId × Bool)), ∃ b host' new,
      (m σ test).run ⟨host, answers⟩ = (b, ⟨host', answers ++ Log.byNumber new⟩) ∧
      (m _ (recording test)).run ⟨(host, log), answers⟩ =
        (b, ⟨(host', log ++ new), answers ++ Log.byNumber new⟩) ∧
      (∀ e ∈ new, ∃ s, ((test e.1).run s).1 = e.2) ∧
      ∀ v, Respects v (answers ++ Log.byNumber new) →
        value v = b ∧ Predicate.toAsk (answers.map (·.1)) (met v) = new.map (·.1)

namespace Realizes
variable {β γ : Type} {m : Asking β} {value : (Predicate → Bool) → β}
  {met : (Predicate → Bool) → List Predicate}

theorem pure (b : β) : Realizes (fun _ _ => Pure.pure b) (fun _ => b) fun _ => [] := by
  intro σ test host log answers
  refine ⟨b, host, [], ?_, ?_, nofun, fun v _ => ⟨rfl, rfl⟩⟩
  · simp [Log.byNumber]
    rfl
  · simp [Log.byNumber]
    rfl

theorem bind {k : β → Asking γ} {value' : β → (Predicate → Bool) → γ}
    {met' : β → (Predicate → Bool) → List Predicate} (hm : Realizes m value met)
    (hk : ∀ b, Realizes (k b) (value' b) (met' b)) :
    Realizes (fun σ test => m σ test >>= fun b => k b σ test) (fun v => value' (value v) v)
      fun v => met v ++ met' (value v) v := by
  intro σ test host log answers
  obtain ⟨b, host₁, new₁, hrun₁, hlog₁, htest₁, hvalue₁⟩ := hm σ test host log answers
  obtain ⟨c, host₂, new₂, hrun₂, hlog₂, htest₂, hvalue₂⟩ :=
    hk b σ test host₁ (log ++ new₁) (answers ++ Log.byNumber new₁)
  have hanswers : answers ++ Log.byNumber new₁ ++ Log.byNumber new₂ =
      answers ++ Log.byNumber (new₁ ++ new₂) := by
    simp [Log.byNumber]
  rw [hanswers] at hrun₂ hlog₂ hvalue₂
  refine ⟨c, host₂, new₁ ++ new₂, ?_, ?_, ?_, ?_⟩
  · rw [StateT.run_bind, hrun₁]
    exact hrun₂
  · rw [StateT.run_bind, hlog₁, ← List.append_assoc]
    exact hlog₂
  · intro e he
    exact (List.mem_append.mp he).elim (htest₁ e) (htest₂ e)
  · intro v hv
    obtain ⟨rfl, hmet₁⟩ := hvalue₁ v (by rw [← hanswers] at hv; exact hv.of_append)
    obtain ⟨hc, hmet₂⟩ := hvalue₂ v hv
    refine ⟨hc, ?_⟩
    have hknown : (answers ++ Log.byNumber new₁).map (·.1) =
        answers.map (·.1) ++ (new₁.map (·.1)).map (·.id) := by
      simp [Log.byNumber]
    rw [Predicate.toAsk_append, hmet₁, ← hknown, hmet₂, List.map_append]

theorem of_eq {value' : (Predicate → Bool) → β} {met' : (Predicate → Bool) → List Predicate}
    (h : Realizes m value met) (hvalue : ∀ v, value v = value' v) (hmet : ∀ v, met v = met' v) :
    Realizes m value' met' := by
  obtain rfl := funext hvalue
  obtain rfl := funext hmet
  exact h

/-- What comes after a program that asks for nothing more. -/
theorem map {k : β → Asking γ} (f : β → γ) (hm : Realizes m value met)
    (hk : ∀ b σ test, k b σ test = Pure.pure (f b)) :
    Realizes (fun σ test => m σ test >>= fun b => k b σ test) (fun v => f (value v)) met := by
  have hkf : k = fun b _ _ => Pure.pure (f b) := funext fun b => funext fun σ => funext (hk b σ)
  rw [hkf]
  exact (hm.bind fun b => Realizes.pure (f b)).of_eq (fun _ => rfl) fun _ => List.append_nil _

end Realizes

namespace Inquiry
variable {σ : Type} (test : Predicate → StateM σ Bool) {p : Predicate} {value : Bool}
  (host : σ) {answers : List (PredicateId × Bool)}

theorem run_leaf_of_constant (h : p.constant = some value) :
    (leaf test p).run ⟨host, answers⟩ = (value, ⟨host, answers⟩) := by
  simp only [leaf, h]
  rfl

theorem run_leaf_of_known (hconstant : p.constant = none)
    (h : answers.lookup p.id = some value) :
    (leaf test p).run ⟨host, answers⟩ = (value, ⟨host, answers⟩) := by
  simp only [leaf, hconstant, StateT.run_bind, StateT.run_get]
  simp only [pure_bind, h]
  rfl

theorem run_leaf_of_new (hconstant : p.constant = none) (h : answers.lookup p.id = none) :
    (leaf test p).run ⟨host, answers⟩ =
      (((test p).run host).1, ⟨((test p).run host).2,
        answers ++ [(p.id, ((test p).run host).1)]⟩) := by
  simp only [leaf, hconstant, StateT.run_bind, StateT.run_get]
  simp only [pure_bind, h]
  rfl

/-- A predicate is asked for unless it says its own value or has been asked for. -/
theorem realizes_leaf (p : Predicate) :
    Realizes (fun _ test => leaf test p) (fun v => v p) fun _ => [p] := by
  intro σ test host log answers
  cases hconstant : p.constant with
  | some value =>
    refine ⟨value, host, [], ?_, ?_, nofun, fun v hv => ⟨hv.constants hconstant, ?_⟩⟩
    · simpa [Log.byNumber] using run_leaf_of_constant test host hconstant
    · simpa [Log.byNumber] using run_leaf_of_constant (recording test) (host, log) hconstant
    · simp [Predicate.toAsk, hconstant]
  | none =>
    cases hlookup : answers.lookup p.id with
    | some value =>
      refine ⟨value, host, [], ?_, ?_, nofun, fun v hv => ⟨?_, ?_⟩⟩
      · simpa [Log.byNumber] using run_leaf_of_known test host hconstant hlookup
      · simpa [Log.byNumber] using run_leaf_of_known (recording test) (host, log) hconstant hlookup
      · exact hv.of_append.answers hconstant hlookup
      · have hmem : p.id ∈ answers.map (·.1) :=
          mem_map_of_lookup hlookup
        simp [Predicate.toAsk, hmem]
    | none =>
      refine ⟨((test p).run host).1, ((test p).run host).2, [(p, ((test p).run host).1)], ?_, ?_,
        ?_, fun v hv => ⟨?_, ?_⟩⟩
      · exact run_leaf_of_new test host hconstant hlookup
      · exact run_leaf_of_new (recording test) (host, log) hconstant hlookup
      · intro e he
        obtain rfl := List.mem_singleton.mp he
        exact ⟨host, rfl⟩
      · exact hv.answers hconstant (lookup_append_of_fresh hlookup)
      · have hmem : p.id ∉ answers.map (·.1) := not_mem_map_of_lookup hlookup
        simp [Predicate.toAsk, hmem, hconstant]

mutual
theorem realizes_ask : (g : Guard) →
    Realizes (fun _ test => g.ask (leaf test)) (fun v => g.holds v) fun v => g.visited v
  | .never => by simpa only [Guard.ask, Guard.holds, Guard.visited] using Realizes.pure false
  | .always => by simpa only [Guard.ask, Guard.holds, Guard.visited] using Realizes.pure true
  | .leaf p => by simpa only [Guard.ask, Guard.holds, Guard.visited] using realizes_leaf p
  | .not g => by
    have h := (realizes_ask g).map (fun b => !b) fun _ _ _ => rfl
    simpa only [Guard.ask, Guard.holds, Guard.visited] using h
  | .all gs => by
    simpa only [Guard.ask, Guard.holds, Guard.visited] using realizes_askAll gs
  | .any gs => by
    simpa only [Guard.ask, Guard.holds, Guard.visited] using realizes_askAny gs

theorem realizes_askAll : (gs : List Guard) →
    Realizes (fun _ test => Guard.askAll (leaf test) gs) (fun v => Guard.holdAll v gs)
      fun v => Guard.visitedUntil v false gs
  | [] => by
    simpa only [Guard.askAll, Guard.holdAll, Guard.visitedUntil] using Realizes.pure true
  | g :: gs => by
    have h := (realizes_ask g).bind fun b => show
        Realizes (fun _ test => if b then Guard.askAll (leaf test) gs else Pure.pure false)
          (fun v => b && Guard.holdAll v gs)
          (fun v => if b = false then [] else Guard.visitedUntil v false gs) by
      cases b with
      | false => exact Realizes.pure false
      | true => simpa using realizes_askAll gs
    simpa only [Guard.askAll, Guard.holdAll, Guard.visitedUntil] using h

theorem realizes_askAny : (gs : List Guard) →
    Realizes (fun _ test => Guard.askAny (leaf test) gs) (fun v => Guard.holdAny v gs)
      fun v => Guard.visitedUntil v true gs
  | [] => by
    simpa only [Guard.askAny, Guard.holdAny, Guard.visitedUntil] using Realizes.pure false
  | g :: gs => by
    have h := (realizes_ask g).bind fun b => show
        Realizes (fun _ test => if b then Pure.pure true else Guard.askAny (leaf test) gs)
          (fun v => b || Guard.holdAny v gs)
          (fun v => if b = true then [] else Guard.visitedUntil v true gs) by
      cases b with
      | false => simpa using realizes_askAny gs
      | true => exact Realizes.pure true
    simpa only [Guard.askAny, Guard.holdAny, Guard.visitedUntil] using h
end

theorem realizes_holds (g : Guard) :
    Realizes (fun _ test => holds test g) (fun v => g.holds v) fun v => g.visited v :=
  realizes_ask g

end Inquiry
end Lookahead
