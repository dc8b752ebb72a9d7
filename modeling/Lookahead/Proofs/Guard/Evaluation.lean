import Lookahead.Proofs.Guard.Meaning

/-! What evaluating a guard comes to.

Evaluating asks for one predicate after the other and stops where the value is known. Where
the answers are values of numbers, whatever else asking does, this finds the value of the
guard (`run_ask`). So `ask_canonical` can say of evaluation what canonical form keeps: the
operations on guards are those on truth values, for any trees, and so is each rewriting of
operands on its own. -/
namespace Lookahead

namespace Guard
variable {σ : Type} {test : Predicate → StateM σ Bool} {v : PredicateId → Bool}

mutual
/-- Asking one that answers by number finds the value under these answers. -/
theorem run_ask (htest : ∀ p s, ((test p).run s).1 = v p.id) :
    (g : Guard) → ∀ s, ((g.ask test).run s).1 = g.under v
  | .never, _ => by
    rw [under_never, ask]
    rfl
  | .always, _ => by
    rw [under_always, ask]
    rfl
  | .leaf p, s => by simpa [ask] using htest p s
  | .not g, s => by
    have ih := run_ask htest g s
    rw [under_not, ← ih, ask, StateT.run_bind]
    rfl
  | .all gs, s => by
    rw [under_all, ask]
    exact run_askAll htest gs s
  | .any gs, s => by
    rw [under_any, ask]
    exact run_askAny htest gs s

theorem run_askAll (htest : ∀ p s, ((test p).run s).1 = v p.id) :
    (gs : List Guard) → ∀ s, ((askAll test gs).run s).1 = gs.all (under v)
  | [], _ => rfl
  | g :: gs, s => by
    have hfirst := run_ask htest g s
    rw [askAll, StateT.run_bind, List.all_cons, ← hfirst]
    rcases (g.ask test).run s with ⟨_ | _, s'⟩
    · rfl
    · exact run_askAll htest gs s'

theorem run_askAny (htest : ∀ p s, ((test p).run s).1 = v p.id) :
    (gs : List Guard) → ∀ s, ((askAny test gs).run s).1 = gs.any (under v)
  | [], _ => rfl
  | g :: gs, s => by
    have hfirst := run_ask htest g s
    rw [askAny, StateT.run_bind, List.any_cons, ← hfirst]
    rcases (g.ask test).run s with ⟨_ | _, s'⟩
    · exact run_askAny htest gs s'
    · rfl
end

@[simp] theorem under_negate (g : Guard) : g.negate.under v = !g.under v := by
  cases g <;> simp [negate]

theorem under_allOf_eq (gs : List Guard) : (allOf gs).under v = gs.all (under v) := by
  rw [Bool.eq_iff_iff, under_allOf, List.all_eq_true]

theorem under_anyOf_eq (gs : List Guard) : (anyOf gs).under v = gs.any (under v) := by
  rw [Bool.eq_iff_iff, under_anyOf, List.any_eq_true]

end Guard

namespace Junction
open Guard
variable {v : PredicateId → Bool} {j : Junction} {gs hs : List Guard}

/-- Junctions have one value where the same operands decide them. -/
theorem under_make_congr (h : j.Meets v gs ↔ j.Meets v hs) :
    (j.make gs).under v = (j.make hs).under v := by
  have hvalues : ∀ x y z : Bool, (x = z ↔ y = z) → x = y := by decide
  refine hvalues _ _ j.decisive ?_
  rw [under_make, under_make, h]

/-- Operands that contradict each other leave only the value that decides the junction. -/
theorem under_make_of_contradicts (h : gs.any (j.contradicts gs) = true) :
    (j.make gs).under v = j.absorbing.under v := by
  obtain ⟨g, hg, hc⟩ := List.any_eq_true.mp h
  rw [under_absorbing, under_make]
  exact meets_of_contradicts hg hc

end Junction

namespace Guard
open Junction

/-- **Canonical form keeps meaning.** For any trees, canonical or not, and any way to answer
by number, the operations on guards are those on the values that evaluation finds. This
holds of each rewriting of operands on its own: of opening, sorting and leaving out what
stands twice or is absorbed, and of giving up at a contradiction. -/
theorem ask_canonical {σ : Type} {test : Predicate → StateM σ Bool} {v : PredicateId → Bool}
    (htest : ∀ p s, ((test p).run s).1 = v p.id) (s : σ) :
    let eval (g : Guard) : Bool := ((g.ask test).run s).1
    (∀ gs, eval (allOf gs) = gs.all eval) ∧ (∀ gs, eval (anyOf gs) = gs.any eval) ∧
      (∀ g h : Guard, eval (g.and h) = (eval g && eval h)) ∧
      (∀ g h : Guard, eval (g.or h) = (eval g || eval h)) ∧
      (∀ g : Guard, eval g.negate = !eval g) ∧
      ∀ (j : Junction) gs,
        eval (j.make (j.flatten gs)) = eval (j.make gs) ∧
        eval (j.make (sortBy (fun g h => (g.compare h).isLE) gs)) = eval (j.make gs) ∧
        eval (j.make (distinctRuns Guard.same gs)) = eval (j.make gs) ∧
        (gs.any (j.contradicts gs) = true → eval (j.make gs) = eval j.absorbing) ∧
        eval (j.make (gs.filter fun g => !j.absorbs gs g)) = eval (j.make gs) := by
  intro eval
  have heval : eval = under v := funext fun g => run_ask htest g s
  rw [heval]
  refine ⟨under_allOf_eq, under_anyOf_eq, fun g h => ?_, fun g h => ?_, under_negate, fun j gs =>
    ⟨under_make_congr meets_flatten, under_make_congr (meets_sortBy _),
      under_make_congr meets_distinctRuns, under_make_of_contradicts,
      under_make_congr meets_filter_absorbs⟩⟩
  · rw [Guard.and, under_allOf_eq]
    simp
  · rw [Guard.or, under_anyOf_eq]
    simp

namespace Scattered

def first : Guard := .leaf ⟨0, "first", .validating, "s", none⟩

def second : Guard := .leaf ⟨1, "second", .gated, "s", none⟩

/-- Operands out of order, with constants inside, one of them twice and one that is absorbed
by an absorbed one. -/
def operands : List Guard :=
  [.any [.always, second], second, .any [second, .any [second, first]], .all [.always, second],
    .any [second, first]]

/-- Operands among which a conjunction is denied whose parts are there. -/
def denied : List Guard := [.not (.all [second, first]), .all [first], second]

/-- A host that knows the second predicate only and counts the questions. -/
def host (p : Predicate) : StateM Nat Bool := fun n => (p.id == 1, n + 1)

end Scattered

open Scattered in
/-- Evaluating the canonical forms of scattered operands finds what their values come to. -/
theorem ask_canonical_scattered :
    (∀ p n, ((host p).run n).1 = (p.id == 1)) ∧
      (((allOf operands).ask host).run 0).1 = operands.all (fun g => ((g.ask host).run 0).1) ∧
      allOf denied = .never ∧ denied.all (fun g => ((g.ask host).run 0).1) = false := by
  have hhost : ∀ p n, ((host p).run n).1 = (p.id == 1) := fun _ _ => rfl
  obtain ⟨hall, _⟩ := ask_canonical (v := (· == 1)) hhost 0
  refine ⟨hhost, hall operands, by decide +kernel, ?_⟩
  rw [← hall denied, show allOf denied = .never by decide +kernel]
  rfl

end Guard
end Lookahead
