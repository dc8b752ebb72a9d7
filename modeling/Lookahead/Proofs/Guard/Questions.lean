import Lookahead.Proofs.Prediction.Inquiry

/-! What evaluating a guard asks.

Where each predicate has a value, evaluation finds the value of the guard and asks for the
predicates that `visited` lists (`run_ask_noting`). These are some of the predicates of the
guard in their order, and nothing depends on the value of any other one: each operand is reached
or not by the values of operands before it, whose questions have been answered. -/
namespace Lookahead.Guard
variable {v v' : Predicate → Bool}

/-- Answers with the value of a predicate, and notes the question. -/
def noting (v : Predicate → Bool) (p : Predicate) : StateM (List Predicate) Bool :=
  fun asked => (v p, asked ++ [p])

mutual
theorem run_ask_noting (v : Predicate → Bool) : (g : Guard) → ∀ asked,
    (g.ask (noting v)).run asked = (g.holds v, asked ++ g.visited v)
  | .never, asked => by
    rw [ask, holds, visited, List.append_nil]
    rfl
  | .always, asked => by
    rw [ask, holds, visited, List.append_nil]
    rfl
  | .leaf p, asked => by
    rw [ask, holds, visited]
    rfl
  | .not g, asked => by
    rw [ask, holds, visited, StateT.run_bind, run_ask_noting v g asked]
    rfl
  | .all gs, asked => by
    rw [ask, holds, visited]
    exact run_askAll_noting v gs asked
  | .any gs, asked => by
    rw [ask, holds, visited]
    exact run_askAny_noting v gs asked

theorem run_askAll_noting (v : Predicate → Bool) : (gs : List Guard) → ∀ asked,
    (askAll (noting v) gs).run asked = (holdAll v gs, asked ++ visitedUntil v false gs)
  | [], asked => by
    rw [askAll, holdAll, visitedUntil, List.append_nil]
    rfl
  | g :: gs, asked => by
    rw [askAll, holdAll, visitedUntil, StateT.run_bind, run_ask_noting v g asked]
    cases g.holds v with
    | false =>
      rw [if_pos rfl, List.append_nil]
      rfl
    | true =>
      rw [if_neg Bool.false_ne_true.symm, ← List.append_assoc]
      exact run_askAll_noting v gs (asked ++ g.visited v)

theorem run_askAny_noting (v : Predicate → Bool) : (gs : List Guard) → ∀ asked,
    (askAny (noting v) gs).run asked = (holdAny v gs, asked ++ visitedUntil v true gs)
  | [], asked => by
    rw [askAny, holdAny, visitedUntil, List.append_nil]
    rfl
  | g :: gs, asked => by
    rw [askAny, holdAny, visitedUntil, StateT.run_bind, run_ask_noting v g asked]
    cases g.holds v with
    | true =>
      rw [if_pos rfl, List.append_nil]
      rfl
    | false =>
      rw [if_neg Bool.false_ne_true, ← List.append_assoc]
      exact run_askAny_noting v gs (asked ++ g.visited v)
end

mutual
/-- What is met are some of the predicates, in their order. -/
theorem visited_sublist (v : Predicate → Bool) :
    (g : Guard) → (g.visited v).Sublist g.predicates
  | .never | .always => by simp [visited, predicates]
  | .leaf p => by simp [visited, predicates]
  | .not g => by
    rw [visited, predicates]
    exact visited_sublist v g
  | .all gs => by
    rw [visited, predicates]
    exact visitedUntil_sublist v false gs
  | .any gs => by
    rw [visited, predicates]
    exact visitedUntil_sublist v true gs

theorem visitedUntil_sublist (v : Predicate → Bool) (last : Bool) :
    (gs : List Guard) → (visitedUntil v last gs).Sublist (predicatesOf gs)
  | [] => by simp [visitedUntil]
  | g :: gs => by
    rw [visitedUntil, predicatesOf]
    refine (visited_sublist v g).append ?_
    split
    · exact List.nil_sublist _
    · exact visitedUntil_sublist v last gs
end

mutual
/-- Values that agree where one of them is looked at meet the same and come to the same. -/
theorem visited_congr : (g : Guard) → (∀ p ∈ g.visited v, v p = v' p) →
    g.holds v' = g.holds v ∧ g.visited v' = g.visited v
  | .never, _ | .always, _ => by simp [holds, visited]
  | .leaf p, h => by
    rw [visited] at h
    simp [holds, visited, h p (.head _)]
  | .not g, h => by
    rw [visited] at h
    obtain ⟨hholds, hvisited⟩ := visited_congr g h
    simp [holds, visited, hholds, hvisited]
  | .all gs, h => by
    rw [visited] at h
    obtain ⟨hany, hvisited⟩ := visitedUntil_congr false gs h
    refine ⟨?_, by rw [visited, visited, hvisited]⟩
    rw [holds, holds, holdAll_eq_all, holdAll_eq_all, List.all_eq_not_any_not,
      List.all_eq_not_any_not]
    simpa using hany
  | .any gs, h => by
    rw [visited] at h
    obtain ⟨hany, hvisited⟩ := visitedUntil_congr true gs h
    refine ⟨?_, by rw [visited, visited, hvisited]⟩
    rw [holds, holds, holdAny_eq_any, holdAny_eq_any]
    simpa using hany

theorem visitedUntil_congr (last : Bool) : (gs : List Guard) →
    (∀ p ∈ visitedUntil v last gs, v p = v' p) →
    gs.any (fun g => g.holds v' == last) = gs.any (fun g => g.holds v == last) ∧
      visitedUntil v' last gs = visitedUntil v last gs
  | [], _ => ⟨rfl, rfl⟩
  | g :: gs, h => by
    rw [visitedUntil] at h
    obtain ⟨hholds, hvisited⟩ := visited_congr g fun p hp => h p (List.mem_append_left _ hp)
    rw [visitedUntil, visitedUntil, List.any_cons, List.any_cons, hholds, hvisited]
    by_cases hlast : g.holds v = last
    · simp [hlast]
    · rw [if_neg hlast] at h
      obtain ⟨hany, hrest⟩ := visitedUntil_congr last gs fun p hp =>
        h p (List.mem_append_right _ hp)
      simp [hlast, hany, hrest]
end

/-- **Evaluation asks for no more than it needs.** It finds the value of the guard, its
questions are some of the predicates in their order, and with other values that agree on these
it comes to the same and asks the same. -/
theorem ask_faithful (g : Guard) (v : Predicate → Bool) :
    let run (v : Predicate → Bool) : Bool × List Predicate := (g.ask (noting v)).run []
    (run v).1 = g.holds v ∧ (run v).2.Sublist g.predicates ∧
      ∀ v', (∀ p ∈ (run v).2, v p = v' p) → run v' = run v := by
  intro run
  have hrun (v : Predicate → Bool) : run v = (g.holds v, g.visited v) := run_ask_noting v g []
  simp only [hrun]
  refine ⟨trivial, visited_sublist v g, fun v' hagree => ?_⟩
  obtain ⟨hholds, hvisited⟩ := visited_congr g hagree
  rw [hholds, hvisited]

namespace Spared

def first : Predicate := ⟨0, "first", .validating, "s", none⟩

def second : Predicate := ⟨1, "second", .validating, "s", none⟩

def third : Predicate := ⟨2, "third", .validating, "s", none⟩

def fourth : Predicate := ⟨3, "fourth", .validating, "s", none⟩

/-- Where the second predicate is false, the fourth one says nothing. -/
def guard : Guard := .any [.not (.leaf first), .all [.leaf second, .leaf fourth], .leaf third]

end Spared

open Spared in
/-- Of four predicates three are asked for, whatever the value of the other one. -/
theorem ask_faithful_spared :
    guard.predicates = [first, second, fourth, third] ∧
      (guard.ask (noting (·.id == 0))).run [] = (false, [first, second, third]) ∧
      (guard.ask (noting (·.id % 3 == 0))).run [] = (false, [first, second, third]) := by
  have hasked : (guard.ask (noting (·.id == 0))).run [] = (false, [first, second, third]) := rfl
  have hsame := (ask_faithful guard (·.id == 0)).2.2 (·.id % 3 == 0)
  simp only [hasked] at hsame
  exact ⟨rfl, hasked, hsame (by decide)⟩

end Lookahead.Guard
