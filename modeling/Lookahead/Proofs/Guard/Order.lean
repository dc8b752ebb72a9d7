import Lookahead.Proofs.Guard.Meaning
import Mathlib.Data.List.Pairwise
import Mathlib.Data.List.Sort

/-! The order of guards.

A guard is spelled as a list of numbers, its shape first, and no spelling is the beginning of
another one. So guards compare as their spellings do (`compare_eq_compare_spelling`), and
their order is as good as that of lists of numbers. Arranged operands therefore ascend
strictly, and which list they make depends only on which operands there are (`arrange_eq`). -/
namespace Lookahead.Guard

mutual
/-- The rank of a guard, and then what it holds. -/
def spelling : Guard → List Nat
  | .never => [0]
  | .always => [1]
  | .leaf p => [2, p.id]
  | .not g => 3 :: spelling g
  | .all gs => 4 :: spellings gs
  | .any gs => 5 :: spellings gs

/-- A one before each guard and a zero after the last one, so a shorter list comes first. -/
def spellings : List Guard → List Nat
  | [] => [0]
  | g :: gs => 1 :: (spelling g ++ spellings gs)
end

mutual
/-- What follows two spellings counts only where the guards are the same. -/
theorem compare_spelling_append : (g h : Guard) → ∀ r s : List Nat,
    Ord.compare (g.spelling ++ r) (h.spelling ++ s) = (g.compare h).then (Ord.compare r s)
  | .leaf p, .leaf q, r, s => by simp [spelling, compare]
  | .not g, .not h, r, s => by
    have ih := compare_spelling_append g h r s
    simpa [spelling, compare] using ih
  | .all gs, .all hs, r, s => by
    have ih := compare_spellings_append gs hs r s
    simpa [spelling, compare] using ih
  | .any gs, .any hs, r, s => by
    have ih := compare_spellings_append gs hs r s
    simpa [spelling, compare] using ih
  | .never, h, r, s => by cases h <;> rfl
  | .always, h, r, s => by cases h <;> rfl
  | .leaf _, .never, _, _ | .leaf _, .always, _, _ | .leaf _, .not _, _, _ | .leaf _, .all _, _, _
  | .leaf _, .any _, _, _ | .not _, .never, _, _ | .not _, .always, _, _ | .not _, .leaf _, _, _
  | .not _, .all _, _, _ | .not _, .any _, _, _ | .all _, .never, _, _ | .all _, .always, _, _
  | .all _, .leaf _, _, _ | .all _, .not _, _, _ | .all _, .any _, _, _ | .any _, .never, _, _
  | .any _, .always, _, _ | .any _, .leaf _, _, _ | .any _, .not _, _, _
  | .any _, .all _, _, _ => rfl

theorem compare_spellings_append : (gs hs : List Guard) → ∀ r s : List Nat,
    Ord.compare (spellings gs ++ r) (spellings hs ++ s) =
      (compareLists gs hs).then (Ord.compare r s)
  | [], [], r, s => by simp [spellings, compareLists]
  | [], _ :: _, _, _ | _ :: _, [], _, _ => rfl
  | g :: gs, h :: hs, r, s => by
    have ih := compare_spelling_append g h (spellings gs ++ r) (spellings hs ++ s)
    rw [compare_spellings_append gs hs] at ih
    simpa [spellings, compareLists, Ordering.then_assoc] using ih
end

theorem compare_eq_compare_spelling (g h : Guard) :
    g.compare h = Ord.compare g.spelling h.spelling := by
  have happend := compare_spelling_append g h [] []
  rw [List.append_nil, List.append_nil, List.compare_nil_nil, Ordering.then_eq] at happend
  exact happend.symm

instance : Std.OrientedCmp compare where
  eq_swap {g h} := by
    rw [compare_eq_compare_spelling, compare_eq_compare_spelling]
    exact Std.OrientedOrd.eq_swap

instance : Std.TransCmp compare where
  isLE_trans {g h k} hgh hhk := by
    rw [compare_eq_compare_spelling] at hgh hhk ⊢
    exact Std.TransOrd.isLE_trans hgh hhk

@[simp] theorem same_self (g : Guard) : g.same g = true := same_iff.mpr rfl

theorem same_comm (g h : Guard) : g.same h = h.same g := by
  rw [Bool.eq_iff_iff, same_iff, same_iff, eq_comm]

/-- Each guard lies below all that follow it. -/
def Increasing (gs : List Guard) : Prop := gs.Pairwise fun g h => g.compare h = .lt

theorem compare_self (g : Guard) : g.compare g = .eq := (compare_eq_iff g g).mpr rfl

namespace Increasing
variable {gs hs : List Guard} {g h : Guard}

/-- No operand is listed twice. -/
theorem not_same (hgs : Increasing gs) : gs.Pairwise fun g h => g.same h = false := by
  refine hgs.imp fun hlt => ?_
  rw [same, hlt]
  rfl

theorem eq_of_same (hgs : Increasing gs) (hg : g ∈ gs) (hh : h ∈ gs) (hsame : g.same h = true) :
    g = h := by
  by_contra hne
  have : Std.Symm fun g h : Guard => g.same h = false := ⟨fun g h hgh => same_comm h g ▸ hgh⟩
  have hapart : g.same h = false := hgs.not_same.forall hg hh hne
  exact absurd (hsame.symm.trans hapart) Bool.noConfusion

theorem eq_of_mem_iff (hgs : Increasing gs) (hhs : Increasing hs) (hmem : ∀ g, g ∈ gs ↔ g ∈ hs) :
    gs = hs := by
  have hirrefl (g : Guard) : ¬ g.compare g = .lt := by simp [compare_self]
  have : Std.Irrefl fun g h : Guard => g.compare h = .lt := ⟨hirrefl⟩
  have : Std.Antisymm fun g h : Guard => g.compare h = .lt :=
    ⟨fun g _ hgh hhg => absurd (Std.TransCmp.lt_trans hgh hhg) (hirrefl g)⟩
  exact List.Pairwise.eq_of_mem_iff hgs hhs hmem

end Increasing

theorem pairwise_isLE_sortBy (gs : List Guard) :
    (sortBy (fun g h => (g.compare h).isLE) gs).Pairwise fun g h => (g.compare h).isLE = true := by
  refine sortBy_pairwise _ (fun g h => ?_) (fun _ _ _ => Std.TransCmp.isLE_trans) gs
  rw [← Std.OrientedCmp.isGE_iff_isLE (a := h)]
  cases h.compare g <;> decide

/-- A list that ascends weakly ascends strictly without its repeated guards. -/
theorem increasing_distinctRuns {gs : List Guard}
    (hgs : gs.Pairwise fun g h => (g.compare h).isLE = true) :
    Increasing (distinctRuns same gs) := by
  refine distinctRuns_pairwise (fun g h hle hne => ?_)
    (fun _ _ _ => Std.TransCmp.lt_of_lt_of_isLE) hgs
  rw [same, beq_eq_false_iff_ne] at hne
  exact (Ordering.isLE_iff_eq_lt_or_eq_eq.mp hle).resolve_right hne

end Lookahead.Guard

namespace Lookahead.Junction
open Guard
variable {gs ops : List Guard} {g : Guard}

theorem increasing_arrange (gs : List Guard) : Increasing (arrange gs) :=
  increasing_distinctRuns (pairwise_isLE_sortBy gs)

theorem mem_of_mem_arrange (h : g ∈ arrange gs) : g ∈ gs :=
  mem_sortBy.mp ((distinctRuns_sublist _ _).subset h)

/-- Of operands that are the same one is kept. -/
theorem exists_mem_arrange (h : g ∈ gs) : ∃ k ∈ arrange gs, k.same g = true := by
  have hsorted : g ∈ sortBy (fun g h => (g.compare h).isLE) gs := mem_sortBy.mpr h
  obtain ⟨k, hk, heq⟩ := exists_mem_distinctRuns Guard.same hsorted
  exact ⟨k, hk, heq.elim (fun heq => heq ▸ same_self k) fun hsame => hsame⟩

/-- Operands that ascend are what comes of arranging them, however often each of them stands. -/
theorem arrange_eq (hops : Increasing ops) (hmem : ∀ g, g ∈ gs ↔ g ∈ ops) : arrange gs = ops := by
  refine (increasing_arrange gs).eq_of_mem_iff hops fun g =>
    ⟨fun hg => (hmem g).mp (mem_of_mem_arrange hg), fun hg => ?_⟩
  obtain ⟨k, hk, hsame⟩ := exists_mem_arrange ((hmem g).mpr hg)
  exact hops.eq_of_same ((hmem k).mp (mem_of_mem_arrange hk)) hg hsame ▸ hk

end Lookahead.Junction
