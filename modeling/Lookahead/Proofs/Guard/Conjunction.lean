import Lookahead.Proofs.Guard.Order
import Mathlib.Data.List.Nodup
import Mathlib.Data.List.Permutation
import Mathlib.Data.List.Sublists

/-! Conjoining predicates makes only finitely many guards.

Where an operand is added to a conjunction, the conjunction is opened, constants decide or
disappear, and operands that stand twice or are absorbed are dropped. So however often
predicates are conjoined to a guard, the operands are among the predicates and what was in the
guard to begin with, each of them once. -/
namespace Lookahead.Guard
variable {g h : Guard} {gs known : List Guard}

mutual
/-- A guard and all that opening the conjunctions in it comes to. -/
def conjuncts : Guard → List Guard
  | .all gs => .all gs :: conjunctsOf gs
  | g => [g]

def conjunctsOf : List Guard → List Guard
  | [] => []
  | g :: gs => conjuncts g ++ conjunctsOf gs
end

theorem self_mem_conjuncts (g : Guard) : g ∈ g.conjuncts := by
  cases g <;> simp [conjuncts]

/-- A conjunction that is listed is listed with its parts. -/
def Opened (known : List Guard) : Prop := ∀ gs, .all gs ∈ known → gs ⊆ known

theorem subset_conjunctsOf (gs : List Guard) : gs ⊆ conjunctsOf gs := by
  induction gs with
  | nil => exact List.nil_subset _
  | cons g gs ih =>
    rw [conjunctsOf, List.cons_subset]
    exact ⟨List.mem_append_left _ g.self_mem_conjuncts, fun h hh => List.mem_append_right _ (ih hh)⟩

theorem Opened.append {later : List Guard} (h : Opened known) (h' : Opened later) :
    Opened (known ++ later) := by
  intro gs hgs
  rcases List.mem_append.mp hgs with hgs | hgs
  · exact List.subset_append_of_subset_left _ (h gs hgs)
  · exact List.subset_append_of_subset_right _ (h' gs hgs)

/-- What is no conjunction has nothing to open. -/
theorem opened_singleton (hg : ∀ gs, g ≠ .all gs) : Opened [g] :=
  fun gs hgs => absurd (List.mem_singleton.mp hgs).symm (hg gs)

mutual
theorem opened_conjuncts : (g : Guard) → Opened g.conjuncts
  | .all gs => by
    intro hs hhs
    rw [conjuncts, List.mem_cons] at hhs
    rcases hhs with heq | hhs
    · obtain rfl := Guard.all.inj heq
      exact List.subset_cons_of_subset _ (subset_conjunctsOf hs)
    · exact List.subset_cons_of_subset _ (opened_conjunctsOf gs hs hhs)
  | .never | .always | .leaf _ | .not _ | .any _ => opened_singleton nofun

theorem opened_conjunctsOf : (gs : List Guard) → Opened (conjunctsOf gs)
  | [] => nofun
  | g :: gs => (opened_conjuncts g).append (opened_conjunctsOf gs)
end

/-- The constants, the listed guards and the conjunctions of some of them. -/
def conjunctions (known : List Guard) : List Guard :=
  .never :: .always :: (known ++ (known.sublists.flatMap List.permutations).map .all)

theorem mem_conjunctions : g ∈ conjunctions known ↔
    g = .never ∨ g = .always ∨ g ∈ known ∨ ∃ ops, ops.Subperm known ∧ .all ops = g := by
  have hops (ops : List Guard) :
      (∃ sub, sub.Sublist known ∧ ops.Perm sub) ↔ ops.Subperm known :=
    ⟨fun ⟨sub, hsub, hperm⟩ => ⟨sub, hperm.symm, hsub⟩,
      fun ⟨sub, hperm, hsub⟩ => ⟨sub, hsub, hperm.symm⟩⟩
  simp [conjunctions, hops]

/-- What is opened of listed conjunctions is listed. -/
theorem flatten_subset (hopened : Opened known) (hgs : gs ⊆ conjunctions known)
    (hnever : .never ∉ gs) : Junction.all.flatten gs ⊆ known := by
  intro h hh
  obtain ⟨g, hg, hneutral, hopen⟩ := Junction.mem_flatten_iff.mp hh
  rcases mem_conjunctions.mp (hgs hg) with rfl | rfl | hknown | ⟨ops, hops, rfl⟩
  · exact absurd hg hnever
  · exact absurd rfl hneutral
  · rcases Junction.all.opened_cases g with ⟨_, hself⟩ | ⟨parts, rfl, hparts⟩
    · exact List.mem_singleton.mp (hself ▸ hopen) ▸ hknown
    · exact hopened parts hknown (hparts ▸ hopen)
  · exact hops.subset (Junction.opened_make .all ops ▸ hopen)

/-- **Conjoining stays within the conjunctions.** -/
theorem allOf_mem_conjunctions (hopened : Opened known) (hgs : gs ⊆ conjunctions known) :
    allOf gs ∈ conjunctions known := by
  unfold allOf Junction.of
  split
  · exact .head _
  · next hnever =>
    rw [List.contains_iff_mem] at hnever
    have hflatten := flatten_subset hopened hgs hnever
    simp only
    split
    · exact .head _
    · have hsubperm : ((Junction.arrange (Junction.all.flatten gs)).filter fun g =>
          !Junction.all.absorbs (Junction.arrange (Junction.all.flatten gs)) g).Subperm known := by
        have hnodup : (Junction.arrange (Junction.all.flatten gs)).Nodup :=
          (Junction.increasing_arrange _).imp fun hlt heq => by simp [heq, compare_self] at hlt
        refine List.subperm_of_subset (hnodup.filter _) fun g hg => ?_
        exact hflatten (Junction.mem_of_mem_arrange (List.mem_of_mem_filter hg))
      rw [mem_conjunctions]
      generalize (Junction.arrange (Junction.all.flatten gs)).filter _ = kept at hsubperm
      match kept with
      | [] => exact .inr (.inl rfl)
      | [g] => exact .inr (.inr (.inl (hsubperm.subset (.head _))))
      | g :: h :: hs => exact .inr (.inr (.inr ⟨g :: h :: hs, hsubperm, rfl⟩))

end Lookahead.Guard
