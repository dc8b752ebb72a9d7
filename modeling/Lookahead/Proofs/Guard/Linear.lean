import Lookahead.Proofs.Bisection
import Lookahead.Proofs.Guard.Same

/-! The order of guards is linear, so sorted operands can be told apart and found.

`Below` says which of two guards comes first: the one whose shape does, and of one shape the
one that holds what comes first. Guards that differ in nothing but what predicates carry besides
their numbers are equal, and of any others one lies below the other. Whichever of equal operands was
put first in sorting, leaving out repeated ones leaves one of each (`increasing_distinctRuns`,
`mem_map_bare_distinctRuns`), and halving the list finds it (`Increasing.bisect_eq_some_iff`). -/
namespace Lookahead.Guard

mutual
/-- The first guard comes before the second one. -/
inductive Below : Guard → Guard → Prop where
  | shape {g h : Guard} (hrank : g.rank < h.rank) : Below g h
  | leaf {p q : Predicate} (hid : p.id < q.id) : Below (.leaf p) (.leaf q)
  | not {g h : Guard} (hbelow : Below g h) : Below (.not g) (.not h)
  | all {gs hs : List Guard} (hbelow : ListBelow gs hs) : Below (.all gs) (.all hs)
  | any {gs hs : List Guard} (hbelow : ListBelow gs hs) : Below (.any gs) (.any hs)

/-- The first list ends before the second one, or comes first where they differ first. -/
inductive ListBelow : List Guard → List Guard → Prop where
  | ends {h : Guard} {hs : List Guard} : ListBelow [] (h :: hs)
  | differs {g h : Guard} {gs hs : List Guard} (hbelow : Below g h) : ListBelow (g :: gs) (h :: hs)
  | agrees {g h : Guard} {gs hs : List Guard} (heq : g.bare = h.bare) (hbelow : ListBelow gs hs) :
    ListBelow (g :: gs) (h :: hs)
end

/-- Guards of different shapes compare as their shapes do. -/
theorem compare_of_rank_ne {g h : Guard} (hne : g.rank ≠ h.rank) :
    g.compare h = Ord.compare g.rank h.rank := by
  cases g <;> cases h <;> first | rfl | exact absurd rfl hne

mutual
theorem compare_eq_lt_of_below {g h : Guard} : Below g h → g.compare h = .lt
  | .shape hrank => by
    rw [compare_of_rank_ne (Nat.ne_of_lt hrank)]
    exact Nat.compare_eq_lt.mpr hrank
  | .leaf hid => by
    rw [compare]
    exact Nat.compare_eq_lt.mpr hid
  | .not hbelow => by
    rw [compare]
    exact compare_eq_lt_of_below hbelow
  | .all hbelow | .any hbelow => by
    rw [compare]
    exact compareLists_eq_lt_of_below hbelow

theorem compareLists_eq_lt_of_below {gs hs : List Guard} :
    ListBelow gs hs → compareLists gs hs = .lt
  | .ends => rfl
  | .differs hbelow => by
    rw [compareLists, compare_eq_lt_of_below hbelow]
    rfl
  | .agrees heq hbelow => by
    rw [compareLists, (compare_eq_iff _ _).mpr heq]
    exact compareLists_eq_lt_of_below hbelow
end

mutual
theorem below_of_compare_eq_lt : (g h : Guard) → g.compare h = .lt → Below g h
  | .leaf _, .leaf _, hlt => .leaf (Nat.compare_eq_lt.mp (by rwa [compare] at hlt))
  | .not g, .not h, hlt => .not (below_of_compare_eq_lt g h (by rwa [compare] at hlt))
  | .all gs, .all hs, hlt => .all (below_of_compareLists_eq_lt gs hs (by rwa [compare] at hlt))
  | .any gs, .any hs, hlt => .any (below_of_compareLists_eq_lt gs hs (by rwa [compare] at hlt))
  | .never, h, hlt | .always, h, hlt => by
    refine .shape (Nat.compare_eq_lt.mp ?_)
    cases h <;> exact hlt
  | .leaf _, .never, hlt | .leaf _, .always, hlt | .leaf _, .not _, hlt | .leaf _, .all _, hlt
  | .leaf _, .any _, hlt | .not _, .never, hlt | .not _, .always, hlt | .not _, .leaf _, hlt
  | .not _, .all _, hlt | .not _, .any _, hlt | .all _, .never, hlt | .all _, .always, hlt
  | .all _, .leaf _, hlt | .all _, .not _, hlt | .all _, .any _, hlt | .any _, .never, hlt
  | .any _, .always, hlt | .any _, .leaf _, hlt | .any _, .not _, hlt | .any _, .all _, hlt =>
    .shape (Nat.compare_eq_lt.mp hlt)

theorem below_of_compareLists_eq_lt :
    (gs hs : List Guard) → compareLists gs hs = .lt → ListBelow gs hs
  | [], [], hlt | _ :: _, [], hlt => nomatch hlt
  | [], _ :: _, _ => .ends
  | g :: gs, h :: hs, hlt => by
    rw [compareLists, Ordering.then_eq_lt] at hlt
    rcases hlt with hlt | ⟨heq, hlt⟩
    · exact .differs (below_of_compare_eq_lt g h hlt)
    · exact .agrees ((compare_eq_iff g h).mp heq) (below_of_compareLists_eq_lt gs hs hlt)
end

theorem compare_eq_lt_iff {g h : Guard} : g.compare h = .lt ↔ Below g h :=
  ⟨below_of_compare_eq_lt g h, compare_eq_lt_of_below⟩

/-! ### Sorted operands -/

section
variable {gs sorted ops : List Guard} {g h : Guard}

theorem Increasing.nodup_map_bare (hops : Increasing ops) : (ops.map bare).Nodup := by
  rw [List.nodup_map_iff_inj_on]
  · exact fun g hg h hh heq => hops.eq_of_same hg hh (same_iff.mpr heq)
  · refine List.Pairwise.imp (fun hlt heq => ?_) hops
    rw [heq, compare_self] at hlt
    exact nomatch hlt

/-- What lies above a guard that is not too low is too high. -/
theorem compare_eq_gt {k : Guard} (hgh : (h.compare g).isGE = true) (hhk : h.compare k = .lt) :
    k.compare g = .gt := by
  rw [Std.OrientedCmp.isGE_iff_isLE] at hgh
  rw [Std.OrientedCmp.gt_iff_lt]
  exact Std.TransCmp.lt_of_isLE_of_lt hgh hhk

/-- Seen from any guard, operands that ascend lie too low first and too high later. -/
theorem Increasing.ascending (hops : Increasing ops) (g : Guard) :
    Ascending (fun k => k.compare g) ops := by
  refine List.Pairwise.imp (fun {h k} hlt => ?_) hops
  show h.compare g = .lt ∨ k.compare g = .gt
  cases horder : h.compare g with
  | lt => exact .inl rfl
  | eq | gt => exact .inr (compare_eq_gt (by rw [horder]; rfl) hlt)

theorem Increasing.bisect_eq_some_iff (hops : Increasing ops) :
    bisect (fun k => k.compare g) ops = some h ↔ h ∈ ops ∧ h.bare = g.bare := by
  rw [Lookahead.bisect_eq_some_iff (hops.ascending g), compare_eq_iff]

theorem Increasing.isSome_bisect_iff (hops : Increasing ops) :
    (bisect (fun k => k.compare g) ops).isSome ↔ g.bare ∈ ops.map bare := by
  simp only [Option.isSome_iff_exists, hops.bisect_eq_some_iff, List.mem_map]

theorem mem_map_bare_distinctRuns : g.bare ∈ (distinctRuns same sorted).map bare ↔
    g.bare ∈ sorted.map bare := by
  constructor
  · intro hg
    exact (List.Sublist.map _ (distinctRuns_sublist _ _)).subset hg
  · intro hg
    obtain ⟨h, hh, heq⟩ := List.mem_map.mp hg
    obtain ⟨k, hk, hkh⟩ := exists_mem_distinctRuns same hh
    have hbare : k.bare = h.bare := hkh.elim (fun heq => heq ▸ rfl) same_iff.mp
    exact List.mem_map.mpr ⟨k, hk, hbare.trans heq⟩

/-- Which operands ascend is known from what the order sees of them. -/
theorem Increasing.map_bare_eq (hops : Increasing ops) (hsorted : Increasing sorted)
    (hmem : ∀ g : Guard, g.bare ∈ ops.map bare ↔ g.bare ∈ sorted.map bare) :
    ops.map bare = sorted.map bare := by
  refine (increasing_map_bare.mpr hops).eq_of_mem_iff (increasing_map_bare.mpr hsorted) fun h => ?_
  constructor
  · intro hh
    obtain ⟨g, _, rfl⟩ := List.mem_map.mp hh
    exact (hmem g).mp hh
  · intro hh
    obtain ⟨g, _, rfl⟩ := List.mem_map.mp hh
    exact (hmem g).mpr hh

theorem Increasing.has_eq_isSome_bisect (hops : Increasing ops) (g : Guard) :
    Junction.has ops g = (bisect (fun k => k.compare g) ops).isSome := by
  rw [Bool.eq_iff_iff, Junction.has_iff, hops.isSome_bisect_iff]

end

/-- **The order of guards is linear and goes with their equality.** Two guards are level exactly
if they are equal but for what predicates carry besides their numbers, one of two others lies
below the other, and the order is transitive. So of operands put in order in any way, with
repeated ones left out, one of each is left; they are those that a junction arranges, whichever
of equal operands was put first; and halving the list finds exactly what is among them. -/
theorem compare_linear :
    (∀ g h : Guard, (g.compare h = .eq ↔ g.bare = h.bare) ∧ (g.compare h = .lt ↔ Below g h) ∧
      h.compare g = (g.compare h).swap) ∧
    (∀ g h k : Guard, (g.compare h).isLE → (h.compare k).isLE → (g.compare k).isLE) ∧
    ∀ gs sorted : List Guard, sorted.Perm gs →
      (sorted.Pairwise fun g h => (g.compare h).isLE) →
        let ops := distinctRuns same sorted
        Increasing ops ∧ ops ⊆ gs ∧ (∀ g ∈ gs, (ops.map bare).count g.bare = 1) ∧
          ops.map bare = (Junction.arrange gs).map bare ∧
          ∀ g, (∀ h, bisect (fun k => k.compare g) ops = some h ↔ h ∈ ops ∧ h.bare = g.bare) ∧
            ((bisect (fun k => k.compare g) ops).isSome ↔ g.bare ∈ gs.map bare) ∧
            Junction.has ops g = (bisect (fun k => k.compare g) ops).isSome := by
  refine ⟨fun g h => ⟨compare_eq_iff g h, compare_eq_lt_iff, Std.OrientedCmp.eq_swap⟩,
    fun _ _ _ => Std.TransCmp.isLE_trans, ?_⟩
  intro gs sorted hperm hsorted ops
  have hops : Increasing ops := increasing_distinctRuns hsorted
  have hmem (g : Guard) : g.bare ∈ ops.map bare ↔ g.bare ∈ gs.map bare :=
    mem_map_bare_distinctRuns.trans (hperm.map bare).mem_iff
  have harranged (g : Guard) : g.bare ∈ (Junction.arrange gs).map bare ↔ g.bare ∈ gs.map bare := by
    rw [← Junction.has_iff, ← Junction.has_iff, Junction.has_arrange]
  refine ⟨hops, ?_, ?_, ?_, ?_⟩
  · exact fun g hg => hperm.subset ((distinctRuns_sublist _ _).subset hg)
  · exact fun g hg =>
      List.count_eq_one_of_mem hops.nodup_map_bare ((hmem g).mpr (List.mem_map_of_mem hg))
  · exact hops.map_bare_eq (Junction.increasing_arrange gs) fun g => (hmem g).trans (harranged g).symm
  · exact fun g => ⟨fun h => hops.bisect_eq_some_iff, hops.isSome_bisect_iff.trans (hmem g),
      hops.has_eq_isSome_bisect g⟩

namespace Repeated

def first : Guard := .leaf ⟨0, "p", .validating, "s", none⟩

/-- The same predicate, written elsewhere. -/
def again : Guard := .leaf ⟨0, "q", .gated, "t", some ⟨1, 2⟩⟩

def second : Guard := .leaf ⟨1, "q", .validating, "s", none⟩

def operands : List Guard :=
  [.any [first, second], .all [second], .not first, again, .any [first], .never, first, .not again]

/-- The operands in order, of two that are level the one that came later first. -/
def ordered : List Guard :=
  [.never, first, again, .not again, .not first, .all [second], .any [first],
    .any [first, second]]

end Repeated

open Repeated in
theorem compare_linear_repeated :
    ordered.Perm operands ∧ (ordered.Pairwise fun g h => (g.compare h).isLE) ∧
      distinctRuns same ordered =
        [.never, first, .not again, .all [second], .any [first], .any [first, second]] ∧
      ((distinctRuns same ordered).map bare).count again.bare = 1 ∧
      (bisect (fun k => k.compare (.not first)) (distinctRuns same ordered) = some (.not again) ↔
        .not again ∈ distinctRuns same ordered ∧ (Guard.not again).bare = (Guard.not first).bare) ∧
      bisect (fun k => k.compare second) (distinctRuns same ordered) = none := by
  have hperm : ordered.Perm operands := by decide
  have hsorted : ordered.Pairwise fun g h => (g.compare h).isLE := by decide
  obtain ⟨_, _, hsorts⟩ := compare_linear
  obtain ⟨_, _, hcount, _, hfound⟩ := hsorts operands ordered hperm hsorted
  refine ⟨hperm, hsorted, by decide, hcount again (by decide), (hfound _).1 _, ?_⟩
  have hnone := (hfound second).2.1.not
  rw [Option.not_isSome_iff_eq_none] at hnone
  exact hnone.mpr (by decide)

end Lookahead.Guard
