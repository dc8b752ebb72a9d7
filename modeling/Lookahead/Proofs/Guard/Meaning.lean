import Lookahead.Guard.Eval
import Lookahead.Guard.Junction
import Lookahead.Proofs.Sorting

/-! The canonical form of a junction has the junction's meaning.

Guards that the order takes for one differ at most in what their predicates carry
besides their numbers (`same_iff`), so they agree under every valuation of the numbers.
`meets_of` then says that a canonical conjunction is false, and a canonical disjunction
true, exactly where one of the operands is: opening, sorting and dropping operands
changes nothing, and neither does giving up at a contradiction. -/
namespace Lookahead.Guard

/-! ### What the order sees of a guard -/

/-- A predicate with nothing but its number. -/
def bareLeaf (p : Predicate) : Predicate := ⟨p.id, "", .validating, "", none⟩

mutual
/-- A guard with nothing but the numbers of its predicates. -/
def bare : Guard → Guard
  | .never => .never
  | .always => .always
  | .leaf p => .leaf (bareLeaf p)
  | .not g => .not (bare g)
  | .all gs => .all (bareList gs)
  | .any gs => .any (bareList gs)

def bareList : List Guard → List Guard
  | [] => []
  | g :: gs => bare g :: bareList gs
end

theorem bareList_eq_map (gs : List Guard) : bareList gs = gs.map bare := by
  induction gs with
  | nil => rfl
  | cons g gs ih => simp [bareList, ih]

theorem bareLeaf_eq_iff {p q : Predicate} : bareLeaf p = bareLeaf q ↔ p.id = q.id := by
  simp [bareLeaf]

mutual
theorem compare_eq_iff : (g h : Guard) → (compare g h = .eq ↔ g.bare = h.bare)
  | .leaf p, .leaf q => by
    simp only [compare, bare, leaf.injEq, bareLeaf_eq_iff]
    exact Nat.compare_eq_eq
  | .not g, .not h => by
    simp only [compare, bare, not.injEq]
    exact compare_eq_iff g h
  | .all gs, .all hs => by
    simp only [compare, bare, all.injEq]
    exact compareLists_eq_iff gs hs
  | .any gs, .any hs => by
    simp only [compare, bare, any.injEq]
    exact compareLists_eq_iff gs hs
  | .never, h => by cases h <;> simp [compare, bare, rank]
  | .always, h => by cases h <;> simp [compare, bare, rank]
  | .leaf _, .never | .leaf _, .always | .leaf _, .not _ | .leaf _, .all _ | .leaf _, .any _
  | .not _, .never | .not _, .always | .not _, .leaf _ | .not _, .all _ | .not _, .any _
  | .all _, .never | .all _, .always | .all _, .leaf _ | .all _, .not _ | .all _, .any _
  | .any _, .never | .any _, .always | .any _, .leaf _ | .any _, .not _ | .any _, .all _ => by
    simp [compare, bare, rank]

theorem compareLists_eq_iff : (gs hs : List Guard) →
    (compareLists gs hs = .eq ↔ bareList gs = bareList hs)
  | [], [] => by simp [compareLists]
  | [], _ :: _ | _ :: _, [] => by simp [compareLists, bareList]
  | g :: gs, h :: hs => by
    simp only [compareLists, bareList, List.cons.injEq, Ordering.then_eq_eq]
    exact and_congr (compare_eq_iff g h) (compareLists_eq_iff gs hs)
end

theorem same_iff {g h : Guard} : g.same h = true ↔ g.bare = h.bare := by
  rw [same, beq_iff_eq, compare_eq_iff]

/-! ### Valuations of the numbers -/

/-- The value of a guard where `v` gives the values of predicates by their numbers. -/
def under (v : PredicateId → Bool) (g : Guard) : Bool := g.holds fun p => v p.id

variable {v : PredicateId → Bool}

@[simp] theorem under_never : under v .never = false := by simp [under, holds]

@[simp] theorem under_always : under v .always = true := by simp [under, holds]

@[simp] theorem under_leaf (p : Predicate) : under v (.leaf p) = v p.id := by simp [under, holds]

@[simp] theorem under_not (g : Guard) : under v (.not g) = !under v g := by simp [under, holds]

@[simp] theorem under_all (gs : List Guard) : under v (.all gs) = gs.all (under v) := by
  simp only [under, holds, holdAll_eq_all]
  rfl

@[simp] theorem under_any (gs : List Guard) : under v (.any gs) = gs.any (under v) := by
  simp only [under, holds, holdAny_eq_any]
  rfl

mutual
theorem under_bare (v : PredicateId → Bool) : (g : Guard) → under v g.bare = under v g
  | .never | .always | .leaf _ => by simp [bare, bareLeaf]
  | .not g => by rw [bare, under_not, under_not, under_bare v g]
  | .all gs => by rw [bare, under_all, under_all, all_bareList v gs]
  | .any gs => by rw [bare, under_any, under_any, any_bareList v gs]

theorem all_bareList (v : PredicateId → Bool) :
    (gs : List Guard) → (bareList gs).all (under v) = gs.all (under v)
  | [] => rfl
  | g :: gs => by
    rw [bareList, List.all_cons, List.all_cons, under_bare v g, all_bareList v gs]

theorem any_bareList (v : PredicateId → Bool) :
    (gs : List Guard) → (bareList gs).any (under v) = gs.any (under v)
  | [] => rfl
  | g :: gs => by
    rw [bareList, List.any_cons, List.any_cons, under_bare v g, any_bareList v gs]
end

theorem under_of_same {g h : Guard} (hs : g.same h = true) : under v g = under v h := by
  rw [← under_bare v g, same_iff.mp hs, under_bare]

end Lookahead.Guard

namespace Lookahead.Junction
open Guard
variable {v : PredicateId → Bool} {j : Junction} {gs ops : List Guard} {g : Guard}

/-- The value that one operand gives to the whole junction. -/
def decisive : Junction → Bool
  | all => false
  | any => true

theorem decisive_other (j : Junction) : j.other.decisive = !j.decisive := by
  cases j <;> rfl

/-- Some guard has the value that decides a junction. -/
def Meets (j : Junction) (v : PredicateId → Bool) (gs : List Guard) : Prop :=
  ∃ g ∈ gs, under v g = j.decisive

theorem under_neutral (j : Junction) : under v j.neutral = !j.decisive := by
  cases j <;> simp [neutral, decisive]

theorem under_absorbing (j : Junction) : under v j.absorbing = j.decisive := by
  rw [absorbing, under_neutral, decisive_other, Bool.not_not]

theorem under_make : under v (j.make gs) = j.decisive ↔ j.Meets v gs := by
  cases j <;> simp [make, decisive, Meets]

theorem eq_make_of_parts? (h : j.parts? g = some gs) : g = j.make gs := by
  unfold parts? at h
  split at h
  · exact congrArg _ (Option.some.inj h)
  · exact congrArg _ (Option.some.inj h)
  · exact nomatch h

@[simp] theorem parts?_make (j : Junction) (gs : List Guard) : j.parts? (j.make gs) = some gs := by
  cases j <;> rfl

/-- A guard as it stands among the operands of a junction. -/
def opened (j : Junction) (g : Guard) : List Guard := (j.parts? g).getD [g]

@[simp] theorem opened_make (j : Junction) (gs : List Guard) : j.opened (j.make gs) = gs := by
  simp [opened]

theorem opened_of_parts?_eq_none (h : j.parts? g = none) : j.opened g = [g] := by
  simp [opened, h]

/-- Only a junction of the same kind is opened. -/
theorem opened_cases (j : Junction) (g : Guard) :
    j.parts? g = none ∧ j.opened g = [g] ∨ ∃ parts, g = j.make parts ∧ j.opened g = parts := by
  cases hparts : j.parts? g with
  | none => exact .inl ⟨rfl, opened_of_parts?_eq_none hparts⟩
  | some parts =>
    obtain rfl := eq_make_of_parts? hparts
    exact .inr ⟨parts, rfl, j.opened_make parts⟩

theorem mem_flatten_iff : g ∈ j.flatten gs ↔ ∃ k ∈ gs, k ≠ j.neutral ∧ g ∈ j.opened k := by
  refine List.mem_flatMap.trans (exists_congr fun k => and_congr_right fun _ => ?_)
  split
  · next hneutral => simp [hneutral]
  · next hneutral => exact (and_iff_right hneutral).symm

theorem meets_opened : j.Meets v (j.opened g) ↔ under v g = j.decisive := by
  rcases j.opened_cases g with ⟨_, hopened⟩ | ⟨parts, rfl, hopened⟩
  · simp [hopened, Meets]
  · rw [hopened, under_make]

theorem meets_flatten : j.Meets v (j.flatten gs) ↔ j.Meets v gs := by
  constructor
  · rintro ⟨h, hh, hv⟩
    obtain ⟨g, hg, _, hopened⟩ := mem_flatten_iff.mp hh
    exact ⟨g, hg, meets_opened.mp ⟨h, hopened, hv⟩⟩
  · rintro ⟨g, hg, hv⟩
    obtain ⟨h, hopened, hhv⟩ := meets_opened.mpr hv
    have hneutral : g ≠ j.neutral := by
      rintro rfl
      simp [under_neutral] at hv
    exact ⟨h, mem_flatten_iff.mpr ⟨g, hg, hneutral, hopened⟩, hhv⟩

theorem meets_sortBy (le : Guard → Guard → Bool) : j.Meets v (sortBy le gs) ↔ j.Meets v gs :=
  exists_congr fun _ => and_congr_left fun _ => mem_sortBy

/-- An operand that is left out is the same as one that is kept, so it has its value. -/
theorem meets_distinctRuns : j.Meets v (distinctRuns Guard.same gs) ↔ j.Meets v gs := by
  constructor
  · rintro ⟨g, hg, hv⟩
    exact ⟨g, (distinctRuns_sublist _ _).subset hg, hv⟩
  · rintro ⟨g, hg, hv⟩
    obtain ⟨h, hh, rfl | hs⟩ := exists_mem_distinctRuns Guard.same hg
    · exact ⟨h, hh, hv⟩
    · exact ⟨h, hh, (under_of_same hs).trans hv⟩

theorem meets_arrange : j.Meets v (arrange gs) ↔ j.Meets v gs := by
  rw [arrange, meets_distinctRuns, meets_sortBy]

theorem exists_of_has (h : has ops g = true) : ∃ k ∈ ops, g.same k = true := by
  simpa [has] using h

/-- Operands that contradict each other decide the junction. -/
theorem meets_of_contradicts (hmem : g ∈ ops) (h : j.contradicts ops g = true) : j.Meets v ops := by
  cases g with
  | not g =>
    by_cases hg : under v g = j.decisive
    · simp only [contradicts] at h
      split at h
      · next parts hp =>
        rw [eq_make_of_parts? hp] at hg
        obtain ⟨part, hpart, hv⟩ := under_make.mp hg
        obtain ⟨k, hk, hs⟩ := exists_of_has (List.all_eq_true.mp h part hpart)
        exact ⟨k, hk, (under_of_same hs).symm.trans hv⟩
      · obtain ⟨k, hk, hs⟩ := exists_of_has h
        exact ⟨k, hk, (under_of_same hs).symm.trans hg⟩
    · refine ⟨_, hmem, ?_⟩
      rw [under_not, Bool.not_eq]
      exact hg
  | never | always | leaf | all | any => simp [contradicts] at h

theorem sizeOf_bare_lt_of_mem (h : g ∈ gs) (j : Junction) :
    sizeOf g.bare < sizeOf (j.make gs).bare := by
  have hmem : g.bare ∈ bareList gs := by
    rw [bareList_eq_map]
    exact List.mem_map_of_mem h
  have := List.sizeOf_lt_of_mem hmem
  cases j <;> simp only [make, bare, Guard.all.sizeOf_spec, Guard.any.sizeOf_spec] <;> omega

theorem absorbs_make (j : Junction) (ops parts : List Guard) :
    j.absorbs ops (j.other.make parts) = parts.any (has ops) := by
  rw [absorbs, parts?_make]

/-- What is absorbed is a junction of the other kind that shares a part with the operands. -/
theorem absorbs_iff : j.absorbs ops g = true ↔
    ∃ parts, g = j.other.make parts ∧ ∃ part ∈ parts, has ops part = true := by
  constructor
  · intro h
    unfold absorbs at h
    split at h
    · next parts hparts => exact ⟨parts, eq_make_of_parts? hparts, List.any_eq_true.mp h⟩
    · exact nomatch h
  · rintro ⟨parts, rfl, hshared⟩
    rw [absorbs_make]
    exact List.any_eq_true.mpr hshared

theorem absorbs_eq_false_iff : j.absorbs ops g = false ↔
    ∀ parts, g = j.other.make parts → ∀ part ∈ parts, has ops part = false := by
  rw [← Bool.not_eq_true, absorbs_iff]
  simp

/-- The part that an absorbed operand shares with the others stands for it. It may be
absorbed in turn, but parts get smaller. -/
theorem meets_filter_absorbs :
    j.Meets v (ops.filter fun g => !j.absorbs ops g) ↔ j.Meets v ops := by
  constructor
  · rintro ⟨g, hg, hv⟩
    exact ⟨g, (List.mem_filter.mp hg).1, hv⟩
  · rintro ⟨g, hg, hv⟩
    induction hn : sizeOf g.bare using Nat.strongRecOn generalizing g with
    | ind n ih =>
      cases ha : j.absorbs ops g with
      | false => exact ⟨g, List.mem_filter.mpr ⟨hg, by simp [ha]⟩, hv⟩
      | true =>
        obtain ⟨parts, rfl, part, hpart, hhas⟩ := absorbs_iff.mp ha
        obtain ⟨k, hk, hs⟩ := exists_of_has hhas
        have hvk : under v k = j.decisive := by
          rw [← under_of_same hs]
          refine Decidable.byContradiction fun hne => ?_
          have hmeets : j.other.Meets v parts :=
            ⟨part, hpart, (Bool.eq_not.mpr hne).trans (decisive_other j).symm⟩
          rw [under_make.mpr hmeets, decisive_other] at hv
          exact absurd hv (by simp)
        refine ih _ ?_ k hk hvk rfl
        rw [← hn, ← same_iff.mp hs]
        exact sizeOf_bare_lt_of_mem hpart _

theorem under_build : under v (j.build ops) = j.decisive ↔ j.Meets v ops := by
  unfold build
  split
  · simp [Meets, under_neutral]
  · simp [Meets]
  · exact under_make

/-- The canonical junction of some guards has the value that decides it exactly if one
of the guards has. -/
theorem meets_of : under v (j.of gs) = j.decisive ↔ j.Meets v gs := by
  unfold of
  split
  · next h =>
    refine ⟨fun _ => ⟨j.absorbing, List.contains_iff_mem.mp h, under_absorbing j⟩, fun _ =>
      under_absorbing j⟩
  · simp only
    split
    · next h =>
      obtain ⟨g, hg, hc⟩ := List.any_eq_true.mp h
      refine ⟨fun _ => ?_, fun _ => under_absorbing j⟩
      exact meets_flatten.mp (meets_arrange.mp (meets_of_contradicts hg hc))
    · rw [under_build, meets_filter_absorbs, meets_arrange, meets_flatten]

end Lookahead.Junction

namespace Lookahead.Guard
variable {v : PredicateId → Bool}

theorem under_allOf (gs : List Guard) : under v (allOf gs) = true ↔ ∀ g ∈ gs, under v g = true := by
  have h : under v (allOf gs) = false ↔ _ := Junction.meets_of (j := .all)
  simp only [Junction.decisive, Junction.Meets] at h
  rw [← Bool.not_eq_false, h]
  simp

theorem under_anyOf (gs : List Guard) : under v (anyOf gs) = true ↔ ∃ g ∈ gs, under v g = true :=
  Junction.meets_of (j := .any)

@[simp] theorem under_or (g h : Guard) :
    under v (g.or h) = true ↔ under v g = true ∨ under v h = true := by
  simp [or, under_anyOf]

/-- A disjunction that is put together piece by piece. -/
theorem under_foldl_or (g : Guard) (gs : List Guard) :
    under v (gs.foldl or g) = true ↔ under v g = true ∨ ∃ h ∈ gs, under v h = true := by
  induction gs generalizing g with
  | nil => simp
  | cons h hs ih => simp [ih, or_assoc]

end Lookahead.Guard
