import Lookahead.Proofs.Guard.Meaning

/-! The predicates of a guard.

The value of a guard depends on its predicates only, and a canonical junction has no
predicates besides those of its operands. So guards that are put together from predicates
of a grammar are about predicates of the grammar. -/
namespace Lookahead.Guard

theorem mem_predicatesOf {q : Predicate} {gs : List Guard} :
    q ∈ predicatesOf gs ↔ ∃ g ∈ gs, q ∈ g.predicates := by
  induction gs with
  | nil => simp [predicatesOf]
  | cons g gs ih => simp [predicatesOf, ih]

mutual
theorem holds_congr {v v' : Predicate → Bool} : (g : Guard) →
    (∀ q ∈ g.predicates, v q = v' q) → g.holds v = g.holds v'
  | .never, _ | .always, _ => by simp [holds]
  | .leaf p, h => by
    simp only [holds]
    exact h p (by simp [predicates])
  | .not g, h => by
    simp only [holds]
    rw [holds_congr g (by simpa [predicates] using h)]
  | .all gs, h => by
    simp only [holds]
    exact holdAll_congr gs (by simpa [predicates] using h)
  | .any gs, h => by
    simp only [holds]
    exact holdAny_congr gs (by simpa [predicates] using h)

theorem holdAll_congr {v v' : Predicate → Bool} : (gs : List Guard) →
    (∀ q ∈ predicatesOf gs, v q = v' q) → holdAll v gs = holdAll v' gs
  | [], _ => rfl
  | g :: gs, h => by
    simp only [predicatesOf, List.mem_append] at h
    simp only [holdAll]
    rw [holds_congr g fun q hq => h q (.inl hq), holdAll_congr gs fun q hq => h q (.inr hq)]

theorem holdAny_congr {v v' : Predicate → Bool} : (gs : List Guard) →
    (∀ q ∈ predicatesOf gs, v q = v' q) → holdAny v gs = holdAny v' gs
  | [], _ => rfl
  | g :: gs, h => by
    simp only [predicatesOf, List.mem_append] at h
    simp only [holdAny]
    rw [holds_congr g fun q hq => h q (.inl hq), holdAny_congr gs fun q hq => h q (.inr hq)]
end

end Lookahead.Guard

namespace Lookahead.Junction
open Guard
variable {j : Junction} {q : Predicate} {gs : List Guard}

@[simp] theorem predicates_neutral (j : Junction) : j.neutral.predicates = [] := by
  cases j <;> simp [neutral, predicates]

@[simp] theorem predicates_absorbing (j : Junction) : j.absorbing.predicates = [] :=
  predicates_neutral j.other

@[simp] theorem predicates_make (j : Junction) (gs : List Guard) :
    (j.make gs).predicates = predicatesOf gs := by
  cases j <;> simp [make, predicates]

theorem exists_of_mem_flatten (h : q ∈ predicatesOf (j.flatten gs)) : q ∈ predicatesOf gs := by
  obtain ⟨g, hg, hq⟩ := mem_predicatesOf.mp h
  obtain ⟨k, hk, _, hgk⟩ := mem_flatten_iff.mp hg
  refine mem_predicatesOf.mpr ⟨k, hk, ?_⟩
  rcases j.opened_cases k with ⟨_, hopened⟩ | ⟨parts, rfl, hopened⟩
  · exact List.mem_singleton.mp (hopened ▸ hgk) ▸ hq
  · rw [predicates_make]
    exact mem_predicatesOf.mpr ⟨g, hopened ▸ hgk, hq⟩

theorem predicates_build (j : Junction) (ops : List Guard) :
    (j.build ops).predicates = predicatesOf ops := by
  unfold build
  split <;> simp [predicatesOf]

/-- A canonical junction is about predicates of its operands. -/
theorem exists_of_mem_predicates_of (h : q ∈ (j.of gs).predicates) :
    ∃ g ∈ gs, q ∈ g.predicates := by
  unfold of at h
  split at h
  · simp at h
  · dsimp only at h
    split at h
    · simp at h
    · rw [predicates_build] at h
      obtain ⟨g, hg, hq⟩ := mem_predicatesOf.mp h
      have hg := (List.mem_filter.mp hg).1
      have hg := mem_sortBy.mp ((distinctRuns_sublist _ _).subset hg)
      exact mem_predicatesOf.mp (exists_of_mem_flatten (mem_predicatesOf.mpr ⟨g, hg, hq⟩))

end Lookahead.Junction

namespace Lookahead.Guard

/-- A disjunction that is put together piece by piece. -/
theorem exists_of_mem_predicates_foldl_or {q : Predicate} {g : Guard} {gs : List Guard}
    (h : q ∈ (gs.foldl Guard.or g).predicates) :
    q ∈ g.predicates ∨ ∃ h ∈ gs, q ∈ h.predicates := by
  induction gs generalizing g with
  | nil => exact .inl h
  | cons k gs ih =>
    rcases ih h with h | ⟨k', hk', hq⟩
    · obtain ⟨k', hk', hq⟩ := Junction.exists_of_mem_predicates_of h
      simp at hk'
      grind
    · exact .inr ⟨k', .tail _ hk', hq⟩

end Lookahead.Guard
