import Lookahead.Guard.Text
import Lookahead.Proofs.Guard.Laws
import Lookahead.Proofs.Guard.Predicates
import Lookahead.Proofs.Guard.Sessions
import Mathlib.Data.Fintype.EquivFin

/-! How far absorption goes.

An operand is absorbed by a part that it shares with the junction, and a part is looked for
among the operands as they are once junctions are opened. So what is no junction absorbs every
junction of the other kind that it stands in (`of_of_eq_self`). A junction does not: joined
with a predicate that it does not mention it is opened, here or within the other operand, and
what it should absorb is left (`not_same_of_fresh`). -/
namespace Lookahead

namespace Guard
variable {g h : Guard} {gs : List Guard} {id : PredicateId}

/-- What the operations make of nothing, in any nesting. -/
inductive Formed : Guard → Prop where
  | of {gs : List Guard} {g : Guard} (hgs : ∀ h ∈ gs, Formed h) (hg : Made gs g) : Formed g

theorem Formed.leaf (p : Predicate) : Formed (.leaf p) := .of (List.forall_mem_nil _) (.leaf p)

theorem Formed.negate (hg : g.Formed) : g.negate.Formed :=
  .of (List.forall_mem_singleton.mpr hg) (.negate (.head _))

theorem Formed.and (hg : g.Formed) (hh : h.Formed) : (g.and h).Formed := by
  have hgs : ∀ k ∈ [g, h], k.Formed := by simp [hg, hh]
  exact .of hgs (.and (.head _) (.tail _ (.head _)))

theorem Formed.canonical (hg : g.Formed) : g.Canonical := by
  induction hg with
  | of _ hmade ih => exact hmade.canonical ih

/-! ### The predicates that a guard mentions -/

/-- The numbers of the predicates of a guard. -/
def numbers (g : Guard) : List PredicateId := g.predicates.map (·.id)

mutual
theorem predicates_bare : (g : Guard) → g.bare.predicates = g.predicates.map bareLeaf
  | .never | .always | .leaf _ => by simp [bare, predicates]
  | .not g => by rw [bare, predicates, predicates, predicates_bare g]
  | .all gs => by rw [bare, predicates, predicates, predicatesOf_bareList gs]
  | .any gs => by rw [bare, predicates, predicates, predicatesOf_bareList gs]

theorem predicatesOf_bareList : (gs : List Guard) →
    predicatesOf (bareList gs) = (predicatesOf gs).map bareLeaf
  | [] => rfl
  | g :: gs => by
    rw [bareList, predicatesOf, predicatesOf, predicates_bare g, predicatesOf_bareList gs,
      List.map_append]
end

theorem numbers_eq_of_same (hsame : g.same h = true) : g.numbers = h.numbers := by
  have hbare (k : Guard) : k.bare.numbers = k.numbers := by
    simp [numbers, predicates_bare, bareLeaf, Function.comp_def]
  rw [← hbare, same_iff.mp hsame, hbare]

/-- Guards are told apart by what only one of them mentions. -/
theorem not_same_of_numbers (hg : id ∉ g.numbers) (hh : id ∈ h.numbers) : g.same h = false :=
  Bool.eq_false_iff.mpr fun hsame => hg (numbers_eq_of_same hsame ▸ hh)

theorem mem_numbers_of_part (hpart : Part h g) (hid : id ∈ h.numbers) : id ∈ g.numbers := by
  obtain ⟨q, hq, rfl⟩ := List.mem_map.mp hid
  refine List.mem_map_of_mem ?_
  cases hpart with
  | denied => simpa [predicates] using hq
  | operand hmem =>
    rw [Junction.predicates_make]
    exact mem_predicatesOf.mpr ⟨h, hmem, hq⟩

theorem mem_numbers_of_inside (hinside : Relation.TransGen Part h g) (hid : id ∈ h.numbers) :
    id ∈ g.numbers := by
  induction hinside with
  | single hpart => exact mem_numbers_of_part hpart hid
  | tail _ hpart ih => exact mem_numbers_of_part hpart ih

end Guard

namespace Junction
open Guard
variable {j k : Junction} {gs ops ops' parts : List Guard} {g h x : Guard} {id : PredicateId}

/-! ### A junction absorbs nothing that mentions more -/

section Fresh
variable {w : Guard} {p : Predicate}

/-- What does not mention a number looks past an operand that does. -/
theorem has_append_fresh (hg : id ∉ g.numbers) (hw : id ∈ w.numbers) :
    has (ops ++ [w]) g = has ops g := by
  have hlast : has [w] g = false := by simp [has, not_same_of_numbers hg hw]
  rw [has_append, hlast, Bool.or_false]

/-- Next to a guard that mentions more, what a canonical guard is opened to keeps its place. -/
theorem settled_append_fresh (hx : x.Canonical) (hfresh : id ∉ x.numbers) (hw : id ∈ w.numbers)
    (hg : g ∈ j.opened x) :
    j.contradicts (j.opened x ++ [w]) g = false ∧ j.absorbs (j.opened x ++ [w]) g = false := by
  have hinside {k : Guard} (hk : Relation.TransGen Part k g) :
      has (j.opened x ++ [w]) k = has (j.opened x) k := by
    refine has_append_fresh (fun hid => hfresh ?_) hw
    rcases opened_inside hg with rfl | hpart
    · exact mem_numbers_of_inside hk hid
    · exact mem_numbers_of_inside (hk.tail hpart) hid
  obtain ⟨hconsistent, hunabsorbed⟩ := settled_opened hx hg
  refine ⟨(contradicts_eq_of_inside fun _ => hinside).trans hconsistent,
    (absorbs_eq_of_parts ?_).trans hunabsorbed⟩
  rintro parts rfl k hk
  exact hinside (.single (.operand hk))

theorem any_contradicts_append_fresh (hx : x.Canonical) (hfresh : id ∉ x.numbers)
    (hw : id ∈ w.numbers) (hnot : ∀ h, w ≠ .not h) :
    (j.opened x ++ [w]).any (j.contradicts (j.opened x ++ [w])) = false := by
  refine List.any_eq_false.mpr fun g hg => Bool.eq_false_iff.mp ?_
  rcases List.mem_append.mp hg with hg | hg
  · exact (settled_append_fresh hx hfresh hw hg).1
  · obtain rfl := List.mem_singleton.mp hg
    exact contradicts_eq_false_of_ne_not hnot

theorem not_mem_numbers_of_opened (hfresh : id ∉ x.numbers) (hg : g ∈ j.opened x) :
    id ∉ g.numbers := by
  rcases opened_inside hg with rfl | hpart
  · exact hfresh
  · exact fun hid => hfresh (mem_numbers_of_part hpart hid)

theorem exists_mem_opened (j : Junction) (hx : x.Canonical) : ∃ g, g ∈ j.opened x := by
  rcases j.opened_cases x with ⟨_, hopened⟩ | ⟨parts, rfl, hopened⟩
  · exact ⟨x, hopened ▸ .head _⟩
  · rw [hopened]
    exact List.exists_mem_of_length_pos (Nat.zero_lt_of_lt (canonical_make_iff.mp hx).2.several)

theorem build_eq_make (hg : g ∈ ops) (hh : h ∈ ops) (hne : g ≠ h) : j.build ops = j.make ops := by
  match ops with
  | [_] => exact absurd ((List.mem_singleton.mp hg).trans (List.mem_singleton.mp hh).symm) hne
  | _ :: _ :: _ => rfl

@[simp] theorem numbers_leaf (p : Predicate) : (Guard.leaf p).numbers = [p.id] := by
  simp [numbers, predicates]

/-- Everything stays where a predicate that is not mentioned is one more operand. -/
theorem absorbs_append_leaf (hx : x.Canonical) (hfresh : p.id ∉ x.numbers)
    (hg : g ∈ j.opened x ++ [.leaf p]) : j.absorbs (j.opened x ++ [.leaf p]) g = false := by
  rcases List.mem_append.mp hg with hg | hg
  · exact (settled_append_fresh hx hfresh (by simp) hg).2
  · obtain rfl := List.mem_singleton.mp hg
    cases j <;> rfl

/-- A guard beside a predicate that it does not mention. -/
theorem of_leaf_fresh (j : Junction) (hx : x.Canonical) (hproper : ¬ x.IsConstant)
    (hfresh : p.id ∉ x.numbers) : ∃ ops, j.of [x, .leaf p] = j.make ops ∧ .leaf p ∈ ops ∧
      ∀ g ∈ ops, g = .leaf p ∨ g ∈ j.opened x := by
  have hid : p.id ∈ (Guard.leaf p).numbers := by simp
  rw [isConstant_iff (j := j), not_or] at hproper
  have hleaf : Guard.leaf p ≠ j.neutral ∧ Guard.leaf p ≠ j.absorbing ∧
      j.opened (.leaf p) = [.leaf p] := by
    cases j <;> exact ⟨nofun, nofun, rfl⟩
  have habsorbing : j.absorbing ∉ [x, .leaf p] := by
    simp [Ne.symm hproper.2, Ne.symm hleaf.2.1]
  have hflatten : j.flatten [x, .leaf p] = j.opened x ++ [.leaf p] := by
    rw [flatten_pair hproper.1 hleaf.1, hleaf.2.2]
  have hmem {g : Guard} (hg : g ∈ j.kept (j.opened x ++ [.leaf p])) :
      g = .leaf p ∨ g ∈ j.opened x := by
    simpa [or_comm] using mem_of_mem_kept hg
  obtain ⟨part, hpart⟩ := exists_mem_opened j hx
  have hpart' := List.mem_append_left [Guard.leaf p] hpart
  have hleaf' := List.mem_append_right (j.opened x) (List.mem_singleton_self (Guard.leaf p))
  obtain ⟨k, hk, hsamek⟩ := exists_mem_kept hpart' (absorbs_append_leaf hx hfresh hpart')
  obtain ⟨l, hl, hsamel⟩ := exists_mem_kept hleaf' (absorbs_append_leaf hx hfresh hleaf')
  have hlast : l = .leaf p := (hmem hl).resolve_right fun hopened =>
    not_mem_numbers_of_opened hfresh hopened (numbers_eq_of_same hsamel ▸ hid)
  have hfirst : k ≠ .leaf p := by
    rintro rfl
    exact not_mem_numbers_of_opened hfresh hpart (numbers_eq_of_same hsamek ▸ hid)
  subst hlast
  refine ⟨j.kept (j.opened x ++ [.leaf p]), ?_, hl, fun g => hmem⟩
  rw [of_eq habsorbing, hflatten, any_contradicts_append_fresh hx hfresh hid nofun, if_neg nofun,
    build_eq_make hk hl hfirst]

/-- What an operand that is not absorbed mentions, the junction mentions. -/
theorem mem_numbers_of (habsorbing : j.absorbing ∉ gs)
    (hconsistent : (j.flatten gs).any (j.contradicts (j.flatten gs)) = false)
    (hg : g ∈ j.flatten gs) (hunabsorbed : j.absorbs (j.flatten gs) g = false)
    (hid : id ∈ g.numbers) : id ∈ (j.of gs).numbers := by
  obtain ⟨k, hk, hsame⟩ := exists_mem_kept hg hunabsorbed
  rw [numbers_eq_of_same hsame] at hid
  obtain ⟨q, hq, rfl⟩ := List.mem_map.mp hid
  rw [of_eq habsorbing, hconsistent, if_neg nofun, numbers, predicates_build]
  exact List.mem_map_of_mem (mem_predicatesOf.mpr ⟨k, hk, hq⟩)

/-- Of a junction one kind takes the parts and the other one the whole. -/
theorem not_same_of_opened {i : Junction} (hg : g ∈ k.other.opened (i.make gs))
    (hh : h ∈ k.opened (i.make gs)) : g.same h = false := by
  have hpart {g : Guard} (hg : g ∈ gs) : g.same (i.make gs) = false :=
    not_same_of_inside (.single (.operand hg))
  have hkind : i = k ∨ i = k.other := by cases i <;> cases k <;> decide
  rcases hkind with rfl | rfl
  · rw [opened_make] at hh
    obtain rfl : g = i.make gs := by cases i <;> simpa [opened, other, make, parts?] using hg
    exact (same_comm _ _).trans (hpart hh)
  · rw [opened_make] at hg
    obtain rfl := List.mem_singleton.mp (opened_make_other k gs ▸ hh)
    exact hpart hg

/-- **A junction does not absorb** what it is joined with next to a predicate that it does not
mention. -/
theorem not_same_of_fresh {i : Junction} (k : Junction) (hx : (i.make gs).Canonical)
    (hfresh : p.id ∉ (i.make gs).numbers) :
    (k.of [i.make gs, k.other.of [i.make gs, .leaf p]]).same (i.make gs) = false := by
  have hproper : ¬ (i.make gs).IsConstant := by cases i <;> simp [make, IsConstant]
  obtain ⟨ops, heq, hleaf, hops⟩ := of_leaf_fresh k.other hx hproper hfresh
  have hid : p.id ∈ (k.other.make ops).numbers :=
    mem_numbers_of_part (.operand hleaf) (by simp)
  have hflatten : k.flatten [i.make gs, k.other.make ops] =
      k.opened (i.make gs) ++ [k.other.make ops] := by
    rw [flatten_pair (make_ne_neutral i k gs) (make_ne_neutral _ k ops), opened_make_other]
  have hunabsorbed : k.absorbs (k.opened (i.make gs) ++ [k.other.make ops])
      (k.other.make ops) = false := by
    rw [absorbs_make]
    refine List.any_eq_false.mpr fun g hg => Bool.eq_false_iff.mp ?_
    have hwhole : has [k.other.make ops] g = false := has_singleton_of_inside (.single (.operand hg))
    rw [has_append, hwhole, Bool.or_false]
    refine has_eq_false_iff.mpr fun h hh => ?_
    rcases hops g hg with rfl | hg
    · rw [same_comm]
      exact not_same_of_numbers (not_mem_numbers_of_opened hfresh hh) (by simp)
    · exact not_same_of_opened hg hh
  rw [heq, same_comm]
  refine not_same_of_numbers hfresh (mem_numbers_of ?_ ?_ ?_ ?_ hid)
  · simp [Ne.symm (make_ne_absorbing _ k _)]
  · rw [hflatten]
    exact any_contradicts_append_fresh hx hfresh hid (make_ne_not k.other ops)
  · rw [hflatten]
    exact List.mem_append_right _ (.head _)
  · rwa [hflatten]

end Fresh

/-! ### What is no junction absorbs -/

section Atom
variable {y : Guard}

/-- An operand that nothing can absorb is kept itself, and not another one that is the same. -/
theorem head_mem_kept (hunabsorbed : j.absorbs (x :: ops) x = false) : x ∈ j.kept (x :: ops) := by
  have hle (g h : Guard) (hsame : h.same g = true) : (g.compare h).isLE = true := by
    rw [(compare_eq_iff g h).mpr (same_iff.mp hsame).symm]
    rfl
  exact List.mem_filter.mpr ⟨mem_distinctRuns_insertBy hle, by rw [hunabsorbed]; rfl⟩

theorem build_cases (hmem : x ∈ ops) : j.build ops = x ∨ j.build ops = j.make ops := by
  match ops with
  | [g] => exact .inl (List.mem_singleton.mp hmem).symm
  | g :: h :: gs => exact .inr rfl

/-- Joined with anything, what is no junction is left, alone or among others, unless all is
decided. -/
theorem of_atom_cases (hneutral : x ≠ j.neutral) (hatom : ∀ i : Junction, i.parts? x = none) :
    j.of [x, y] = j.absorbing ∨ j.of [x, y] = x ∨ ∃ ops, j.of [x, y] = j.make ops ∧ x ∈ ops := by
  by_cases habsorbing : j.absorbing ∈ [x, y]
  · exact .inl (of_eq_of_absorbing habsorbing)
  have hflatten : j.flatten [x, y] = x :: j.flatten [y] := by
    simp [flatten, hneutral, hatom]
  have hmem : x ∈ j.kept (j.flatten [x, y]) := by
    rw [hflatten]
    exact head_mem_kept (by simp [absorbs, hatom])
  rw [of_eq habsorbing]
  split
  · exact .inl rfl
  · exact .inr ((build_cases hmem).imp_right fun hbuild => ⟨_, hbuild, hmem⟩)

/-- What is no junction is left of itself and a junction of the other kind that it stands in. -/
theorem of_make_other_eq (hx : x.Canonical) (hproper : ¬ x.IsConstant)
    (hatom : ∀ i : Junction, i.parts? x = none) (hmem : x ∈ ops) :
    k.of [x, k.other.make ops] = x := by
  have hinside : Part x (k.other.make ops) := .operand hmem
  rw [isConstant_iff (j := k), not_or] at hproper
  have habsorbing : k.absorbing ∉ [x, k.other.make ops] := by
    simp [Ne.symm hproper.2, Ne.symm (make_ne_absorbing _ k _)]
  have hflatten : k.flatten [x, k.other.make ops] = [x, k.other.make ops] := by
    rw [flatten_pair hproper.1 (make_ne_neutral _ k ops), opened_of_parts?_eq_none (hatom k), opened_make_other]
    rfl
  -- What stands inside the first operand stands inside the second one too.
  have hconsistent : k.contradicts [x, k.other.make ops] x = false := by
    refine (contradicts_eq_of_inside fun g hg => ?_).trans (contradicts_singleton hx)
    rw [← List.singleton_append, has_append, has_singleton_of_inside (hg.tail hinside),
      Bool.or_false]
  have hothers : k.contradicts [x, k.other.make ops] (k.other.make ops) = false := by
    cases k <;> rfl
  have habsorbs : k.absorbs [x, k.other.make ops] (k.other.make ops) = true := by
    rw [absorbs_make]
    exact List.any_eq_true.mpr ⟨x, hmem, has_of_mem (.head _)⟩
  have hkept : k.kept [x, k.other.make ops] = [x] := by
    refine (increasing_kept _ _).eq_of_mem_iff (List.pairwise_singleton _ _) fun g => ?_
    rw [List.mem_singleton]
    constructor
    · intro hg
      refine (List.mem_pair.mp (mem_of_mem_kept hg)).resolve_right ?_
      rintro rfl
      simpa [habsorbs] using (List.mem_filter.mp hg).2
    · rintro rfl
      exact head_mem_kept (by simp [absorbs, hatom])
  rw [of_eq habsorbing, hflatten, hkept, if_neg (by simp [hconsistent, hothers]), build]

/-- **What is no junction absorbs** what it is joined with, whatever that is. -/
theorem of_of_eq_self (k : Junction) (hx : x.Canonical)
    (hatom : ∀ i : Junction, i.parts? x = none) (y : Guard) : k.of [x, k.other.of [x, y]] = x := by
  by_cases hconstant : x.IsConstant
  · rcases (isConstant_iff (j := k)).mp hconstant with rfl | rfl
    · have hdecided : k.other.of [k.neutral, y] = k.neutral := by
        cases k <;> rfl
      rw [hdecided]
      exact hx.of_eq_self (.head _) (by simp)
    · cases k <;> rfl
  · have hneutral : x ≠ k.other.neutral := fun heq => hconstant (isConstant_iff.mpr (.inl heq))
    rcases of_atom_cases (y := y) hneutral hatom with h | h | ⟨ops, h, hmem⟩
    · rw [h, absorbing, other_other]
      exact hx.of_eq_self (.head _) (by simp)
    · rw [h]
      exact hx.of_eq_self (.head _) (by simp)
    · rw [h]
      exact of_make_other_eq hx hconstant hatom hmem

end Atom

/-- A guard absorbs all that it is joined with exactly if it is no junction. -/
theorem absorbs_all_iff (k : Junction) (hx : x.Formed) :
    (∀ y : Guard, y.Formed → (k.of [x, k.other.of [x, y]]).same x = true) ↔
      x.isJunction = false := by
  constructor
  · intro hall
    refine Bool.eq_false_iff.mpr fun hjunction => ?_
    obtain ⟨i, gs, rfl⟩ := isJunction_iff.mp hjunction
    obtain ⟨id, hid⟩ := Infinite.exists_notMem_finset (i.make gs).numbers.toFinset
    rw [List.mem_toFinset] at hid
    have hleaf := hall (.leaf ⟨id, "", .validating, "", none⟩) (.leaf _)
    rw [not_same_of_fresh k hx.canonical hid] at hleaf
    exact nomatch hleaf
  · intro hjunction y _
    have hatom (i : Junction) : i.parts? x = none := by
      refine Option.eq_none_iff_forall_ne_some.mpr fun gs hgs => ?_
      rw [isJunction_iff.mpr ⟨i, gs, eq_make_of_parts? hgs⟩] at hjunction
      exact nomatch hjunction
    rw [of_of_eq_self k hx.canonical hatom y]
    exact same_self x

end Junction

namespace Guard
open Junction

/-- **How far absorption goes.** Each of the two laws of absorption holds of a guard, whatever
stands beside it, exactly if the guard is no junction. -/
theorem absorption_iff {x : Guard} (hx : x.Formed) :
    ((∀ y : Guard, y.Formed → (x.or (x.and y)).same x = true) ↔ x.isJunction = false) ∧
      ((∀ y : Guard, y.Formed → (x.and (x.or y)).same x = true) ↔ x.isJunction = false) :=
  ⟨absorbs_all_iff .any hx, absorbs_all_iff .all hx⟩

namespace Nested

def both : Guard := first.and second

theorem formed_both : both.Formed := .and (.leaf _) (.leaf _)

end Nested

open Nested in
/-- A conjunction does not absorb, and its negation does. -/
theorem absorption_iff_both :
    both.Formed ∧ both.negate.Formed ∧
      (¬ ∀ y : Guard, y.Formed → (both.or (both.and y)).same both = true) ∧
      (both.negate.or (both.negate.and third)).same both.negate = true := by
  have hfails := (absorption_iff formed_both).1
  have hholds := (absorption_iff formed_both.negate).1.mpr (by decide +kernel)
  refine ⟨formed_both, formed_both.negate, fun hall => ?_, hholds third (.leaf _)⟩
  exact absurd (hfails.mp hall) (by decide +kernel)

open Nested in
/-- Neither law holds of a conjunction of two predicates beside a third one. -/
theorem not_absorbed_both :
    both.Formed ∧ third.Formed ∧ (both.or (both.and third)).same both = false ∧
      (both.and (both.or third)).same both = false :=
  ⟨formed_both, .leaf _, by decide +kernel, by decide +kernel⟩

end Guard
end Lookahead
