import Lookahead.Proofs.Guard.Order
import Mathlib.Logic.Relation

/-! Canonical guards.

The operands of a canonical junction owe something to each other (`Junction.Tidy`), and what
is inside a canonical guard is canonical and no constant. The operations on guards make
canonical guards of canonical ones (`canonical_of`, `Canonical.negate`), and a canonical guard
is what comes of joining it with itself or with the neutral constant (`Canonical.of_eq_self`). -/
namespace Lookahead

namespace Guard

def IsConstant (g : Guard) : Prop := g = .never ∨ g = .always

end Guard

namespace Junction
open Guard
variable {j : Junction} {gs ops : List Guard} {g h : Guard}

/-- What the operands of a canonical junction owe to each other. -/
structure Tidy (j : Junction) (gs : List Guard) : Prop where
  several : 2 ≤ gs.length
  increasing : Increasing gs
  proper : ∀ g ∈ gs, ¬ g.IsConstant
  /-- No operand is a junction of the same kind. -/
  flat : ∀ parts, j.make parts ∉ gs
  /-- No operand stands beside its negation. -/
  consistent : ∀ g ∈ gs, ∀ h, .not h ∈ gs → g.same h = false
  /-- No operand denies a junction of the same kind all of whose parts are operands. -/
  undenied : ∀ parts, .not (j.make parts) ∈ gs → ∃ part ∈ parts, ∀ g ∈ gs, part.same g = false
  /-- No operand is a junction of the other kind with an operand among its parts. -/
  unabsorbed : ∀ parts, j.other.make parts ∈ gs → ∀ part ∈ parts, ∀ g ∈ gs, part.same g = false

end Junction

namespace Guard

/-- Guards in canonical form, at every depth. -/
inductive Canonical : Guard → Prop where
  | never : Canonical .never
  | always : Canonical .always
  | leaf (p : Predicate) : Canonical (.leaf p)
  | not {g : Guard} (hg : Canonical g) (proper : ¬ g.IsConstant) (once : ∀ h, g ≠ .not h) :
    Canonical (.not g)
  | all {gs : List Guard} (hgs : ∀ g ∈ gs, Canonical g) (tidy : Junction.all.Tidy gs) :
    Canonical (.all gs)
  | any {gs : List Guard} (hgs : ∀ g ∈ gs, Canonical g) (tidy : Junction.any.Tidy gs) :
    Canonical (.any gs)

/-- `g` stands directly inside another guard. -/
inductive Part (g : Guard) : Guard → Prop where
  | denied : Part g (.not g)
  | operand {j : Junction} {gs : List Guard} (hg : g ∈ gs) : Part g (j.make gs)

variable {g h : Guard} {j : Junction} {gs : List Guard}

theorem canonical_make_iff : (j.make gs).Canonical ↔ (∀ g ∈ gs, g.Canonical) ∧ j.Tidy gs := by
  constructor
  · intro hcanonical
    cases j with
    | all =>
      cases hcanonical with
      | all hgs tidy => exact ⟨hgs, tidy⟩
    | any =>
      cases hcanonical with
      | any hgs tidy => exact ⟨hgs, tidy⟩
  · rintro ⟨hgs, tidy⟩
    cases j with
    | all => exact .all hgs tidy
    | any => exact .any hgs tidy

theorem canonical_neutral (j : Junction) : j.neutral.Canonical := by
  cases j with
  | all => exact .always
  | any => exact .never

/-- What stands inside a canonical guard is canonical and no constant. -/
theorem Canonical.part (hg : g.Canonical) (hpart : Part h g) : h.Canonical ∧ ¬ h.IsConstant := by
  cases hpart with
  | denied =>
    cases hg with
    | not hh proper _ => exact ⟨hh, proper⟩
  | operand hmem =>
    obtain ⟨hgs, tidy⟩ := canonical_make_iff.mp hg
    exact ⟨hgs h hmem, tidy.proper h hmem⟩

theorem Canonical.inside (hg : g.Canonical) (hinside : Relation.TransGen Part h g) :
    h.Canonical ∧ ¬ h.IsConstant := by
  induction hinside using Relation.TransGen.head_induction_on with
  | single hpart => exact hg.part hpart
  | head hpart _ ih => exact ih.1.part hpart

theorem Canonical.negate (hg : g.Canonical) : g.negate.Canonical := by
  cases hg with
  | never => exact .always
  | always => exact .never
  | leaf p => exact .not (.leaf p) (by simp [IsConstant]) nofun
  | not hg => exact hg
  | all hgs tidy => exact .not (.all hgs tidy) (by simp [IsConstant]) nofun
  | any hgs tidy => exact .not (.any hgs tidy) (by simp [IsConstant]) nofun

end Guard

namespace Junction
open Guard
variable {j : Junction} {gs ops parts : List Guard} {g h : Guard}

theorem has_eq_false_iff : has ops g = false ↔ ∀ k ∈ ops, g.same k = false := by
  simp [has]

theorem neutral_ne_absorbing (j : Junction) : j.neutral ≠ j.absorbing := by
  cases j <;> exact nofun

@[simp] theorem make_ne_neutral (i j : Junction) (gs : List Guard) : i.make gs ≠ j.neutral := by
  cases i <;> cases j <;> exact nofun

theorem make_ne_not (j : Junction) (gs : List Guard) (g : Guard) : j.make gs ≠ .not g := by
  cases j <;> simp [make]

@[simp] theorem make_ne_absorbing (i j : Junction) (gs : List Guard) : i.make gs ≠ j.absorbing :=
  make_ne_neutral i j.other gs

theorem isConstant_iff : g.IsConstant ↔ g = j.neutral ∨ g = j.absorbing := by
  cases j with
  | all => exact or_comm
  | any => exact Iff.rfl

/-- What is the same as a junction is a junction of the same kind. -/
theorem exists_eq_make_of_same (h : g.same (j.make gs) = true) : ∃ hs, g = j.make hs := by
  rw [same_iff] at h
  cases j <;> cases g <;> simp [make, bare] at h ⊢

/-! ### Joining canonical guards -/

/-- Operands of which nothing contradicts another one, without those that are absorbed. -/
theorem tidy_filter (hincreasing : Increasing ops) (hproper : ∀ g ∈ ops, ¬ g.IsConstant)
    (hflat : ∀ parts, j.make parts ∉ ops) (hconsistent : ∀ g ∈ ops, j.contradicts ops g = false)
    (hseveral : 2 ≤ (ops.filter fun g => !j.absorbs ops g).length) :
    j.Tidy (ops.filter fun g => !j.absorbs ops g) where
  several := hseveral
  increasing := hincreasing.filter _
  proper g hg := hproper g (List.mem_of_mem_filter hg)
  flat parts hmake := hflat parts (List.mem_of_mem_filter hmake)
  consistent g hg h hnot := by
    have hg := List.mem_of_mem_filter hg
    have hh := hconsistent _ (List.mem_of_mem_filter hnot)
    simp only [contradicts] at hh
    split at hh
    · next parts hparts =>
      -- No operand is the same as a junction of this kind.
      refine Bool.eq_false_iff.mpr fun hsame => ?_
      rw [eq_make_of_parts? hparts] at hsame
      obtain ⟨hs, rfl⟩ := exists_eq_make_of_same hsame
      exact hflat hs hg
    · exact (same_comm g h).trans (has_eq_false_iff.mp hh g hg)
  undenied parts hnot := by
    have hparts := hconsistent _ (List.mem_of_mem_filter hnot)
    simp only [contradicts, parts?_make] at hparts
    obtain ⟨part, hpart, hhas⟩ := List.all_eq_false.mp hparts
    exact ⟨part, hpart, fun g hg => has_eq_false_iff.mp (Bool.eq_false_iff.mpr hhas) g
      (List.mem_of_mem_filter hg)⟩
  unabsorbed parts hmake part hpart g hg := by
    have habsorbs := Bool.not_eq_true' _ |>.mp (List.mem_filter.mp hmake).2
    exact has_eq_false_iff.mp (absorbs_eq_false_iff.mp habsorbs parts rfl part hpart) g
      (List.mem_of_mem_filter hg)

/-- An opened operand of canonical ones. -/
theorem canonical_of_mem_flatten (hgs : ∀ g ∈ gs, g.Canonical) (habsorbing : j.absorbing ∉ gs)
    (hg : g ∈ j.flatten gs) : g.Canonical ∧ ¬ g.IsConstant ∧ ∀ parts, g ≠ j.make parts := by
  obtain ⟨k, hk, hneutral, hgk⟩ := mem_flatten_iff.mp hg
  rcases j.opened_cases k with ⟨hparts, hopened⟩ | ⟨parts, rfl, hopened⟩
  · rw [hopened, List.mem_singleton] at hgk
    subst hgk
    refine ⟨hgs g hk, fun hconstant => ?_, fun hs heq => ?_⟩
    · exact (isConstant_iff (j := j).mp hconstant).elim hneutral fun heq => habsorbing (heq ▸ hk)
    · rw [heq, parts?_make] at hparts
      exact nomatch hparts
  · rw [hopened] at hgk
    obtain ⟨hall, tidy⟩ := canonical_make_iff.mp (hgs _ hk)
    exact ⟨hall g hgk, tidy.proper g hgk, fun hs heq => tidy.flat hs (heq ▸ hgk)⟩

/-- **Joining keeps guards canonical.** -/
theorem canonical_of (hgs : ∀ g ∈ gs, g.Canonical) : (j.of gs).Canonical := by
  unfold of
  split
  · exact canonical_neutral j.other
  · next habsorbing =>
    rw [List.contains_iff_mem] at habsorbing
    have hops {g : Guard} (hg : g ∈ arrange (j.flatten gs)) :=
      canonical_of_mem_flatten hgs habsorbing (mem_of_mem_arrange hg)
    simp only
    split
    · exact canonical_neutral j.other
    · next hcontradicts =>
      have hconsistent : ∀ g ∈ arrange (j.flatten gs),
          j.contradicts (arrange (j.flatten gs)) g = false := by
        simpa using hcontradicts
      have htidy := tidy_filter (increasing_arrange _) (fun g hg => (hops hg).2.1)
        (fun parts hmake => (hops hmake).2.2 parts rfl) hconsistent
      have hkept {g : Guard} (hg : g ∈ (arrange (j.flatten gs)).filter fun g =>
          !j.absorbs (arrange (j.flatten gs)) g) : g.Canonical := (hops (List.mem_of_mem_filter hg)).1
      -- What is left is nothing, one operand, or several that are tidy.
      generalize (arrange (j.flatten gs)).filter _ = kept at htidy hkept
      match kept with
      | [] => exact canonical_neutral j
      | [g] => exact hkept (.head _)
      | g :: h :: hs =>
        exact canonical_make_iff.mpr ⟨fun _ => hkept, htidy (Nat.le_add_left 2 hs.length)⟩

/-! ### Joining a canonical guard with itself -/

theorem of_eq_of_absorbing (h : j.absorbing ∈ gs) : j.of gs = j.absorbing := by
  rw [of, if_pos (List.contains_iff_mem.mpr h)]

/-- Where operands ascend and no check finds anything, they are what is built from. -/
theorem of_eq_build (habsorbing : j.absorbing ∉ gs) (hincreasing : Increasing ops)
    (hmem : ∀ g, g ∈ j.flatten gs ↔ g ∈ ops) (hconsistent : ∀ g ∈ ops, j.contradicts ops g = false)
    (hunabsorbed : ∀ g ∈ ops, j.absorbs ops g = false) : j.of gs = j.build ops := by
  have hany : ops.any (j.contradicts ops) = false := by simpa using hconsistent
  have hfilter : ops.filter (fun g => !j.absorbs ops g) = ops :=
    List.filter_eq_self.mpr fun g hg => by rw [hunabsorbed g hg]; rfl
  simp only [of, List.contains_iff_mem, habsorbing, if_false, arrange_eq hincreasing hmem, hany,
    hfilter, Bool.false_eq_true]

theorem Tidy.contradicts_eq_false (htidy : j.Tidy gs) (hg : g ∈ gs) :
    j.contradicts gs g = false := by
  unfold contradicts
  split
  · next h =>
    split
    · next parts hparts =>
      obtain rfl := eq_make_of_parts? hparts
      obtain ⟨part, hpart, hsame⟩ := htidy.undenied parts hg
      exact List.all_eq_false.mpr ⟨part, hpart, Bool.eq_false_iff.mp (has_eq_false_iff.mpr hsame)⟩
    · exact has_eq_false_iff.mpr fun k hk => (same_comm h k).trans (htidy.consistent k hk h hg)
  · rfl

theorem Tidy.absorbs_eq_false (htidy : j.Tidy gs) (hg : g ∈ gs) : j.absorbs gs g = false := by
  refine absorbs_eq_false_iff.mpr ?_
  rintro parts rfl part hpart
  exact has_eq_false_iff.mpr (htidy.unabsorbed parts hg part hpart)

theorem Tidy.build_eq (htidy : j.Tidy gs) : j.build gs = j.make gs := by
  have hseveral := htidy.several
  match gs with
  | _ :: _ :: _ => rfl

theorem sizeOf_bare_lt_of_part (hpart : Part g h) : sizeOf g.bare < sizeOf h.bare := by
  cases hpart with
  | denied => simp [bare]
  | operand hmem => exact sizeOf_bare_lt_of_mem hmem _

/-- A guard is not the same as anything inside it. -/
theorem not_same_of_inside (hinside : Relation.TransGen Part g h) : g.same h = false := by
  have hsize : sizeOf g.bare < sizeOf h.bare := by
    induction hinside with
    | single hpart => exact sizeOf_bare_lt_of_part hpart
    | tail _ hpart ih => exact ih.trans (sizeOf_bare_lt_of_part hpart)
  refine Bool.eq_false_iff.mpr fun hsame => ?_
  rw [same_iff.mp hsame] at hsize
  exact Nat.lt_irrefl _ hsize

theorem has_singleton_of_inside (hinside : Relation.TransGen Part h g) : has [g] h = false :=
  has_eq_false_iff.mpr fun _ hk => List.mem_singleton.mp hk ▸ not_same_of_inside hinside

/-- On its own a canonical operand contradicts nothing. -/
theorem contradicts_singleton (hg : g.Canonical) : j.contradicts [g] g = false := by
  unfold contradicts
  split
  · split
    · next parts hparts =>
      obtain rfl := eq_make_of_parts? hparts
      obtain ⟨_, htidy⟩ := canonical_make_iff.mp (hg.part .denied).1
      obtain ⟨part, hpart⟩ := List.exists_mem_of_length_pos (Nat.zero_lt_of_lt htidy.several)
      exact List.all_eq_false.mpr ⟨part, hpart, Bool.eq_false_iff.mp
        (has_singleton_of_inside (.head (.operand hpart) (.single .denied)))⟩
    · exact has_singleton_of_inside (.single .denied)
  · rfl

theorem absorbs_singleton (j : Junction) (g : Guard) : j.absorbs [g] g = false := by
  refine absorbs_eq_false_iff.mpr ?_
  rintro parts rfl part hpart
  exact has_singleton_of_inside (.single (.operand hpart))

/-- What a canonical guard is opened to leaves nothing to do where it stands alone. -/
theorem settled_opened (hg : g.Canonical) (hh : h ∈ j.opened g) :
    j.contradicts (j.opened g) h = false ∧ j.absorbs (j.opened g) h = false := by
  rcases j.opened_cases g with ⟨_, hopened⟩ | ⟨parts, rfl, hopened⟩
  · rw [hopened] at hh ⊢
    obtain rfl := List.mem_singleton.mp hh
    exact ⟨contradicts_singleton hg, absorbs_singleton j h⟩
  · rw [hopened] at hh ⊢
    have htidy := (canonical_make_iff.mp hg).2
    exact ⟨htidy.contradicts_eq_false hh, htidy.absorbs_eq_false hh⟩

theorem build_opened (hg : g.Canonical) : Increasing (j.opened g) ∧ j.build (j.opened g) = g := by
  rcases j.opened_cases g with ⟨_, hopened⟩ | ⟨parts, rfl, hopened⟩
  · rw [hopened]
    exact ⟨List.pairwise_singleton _ _, rfl⟩
  · rw [hopened]
    have htidy := (canonical_make_iff.mp hg).2
    exact ⟨htidy.increasing, htidy.build_eq⟩

/-- What is opened of a guard and of neutral constants is what is opened of the guard. -/
theorem mem_flatten_self_iff (hmem : g ∈ gs) (hall : ∀ k ∈ gs, k = g ∨ k = j.neutral)
    (hneutral : g ≠ j.neutral) : h ∈ j.flatten gs ↔ h ∈ j.opened g := by
  rw [mem_flatten_iff]
  refine ⟨fun ⟨k, hk, hne, hh⟩ => ?_, fun hh => ⟨g, hmem, hneutral, hh⟩⟩
  exact (hall k hk).resolve_right hne ▸ hh

theorem of_eq_neutral (hall : ∀ k ∈ gs, k = j.neutral) : j.of gs = j.neutral := by
  have hdecided : j.absorbing ∉ gs := fun h => j.neutral_ne_absorbing (hall _ h).symm
  have hnil (h : Guard) : h ∈ j.flatten gs ↔ h ∈ [] := by
    refine iff_of_false (fun hh => ?_) nofun
    obtain ⟨k, hk, hneutral, _⟩ := mem_flatten_iff.mp hh
    exact hneutral (hall k hk)
  rw [of_eq_build hdecided .nil hnil nofun nofun, build]

end Junction

theorem Guard.Canonical.and {g h : Guard} (hg : g.Canonical) (hh : h.Canonical) :
    (g.and h).Canonical := Junction.canonical_of (by simp [hg, hh])

theorem Guard.Canonical.or {g h : Guard} (hg : g.Canonical) (hh : h.Canonical) :
    (g.or h).Canonical := Junction.canonical_of (by simp [hg, hh])

/-- Joining a canonical guard with itself and with neutral constants gives it back. -/
theorem Guard.Canonical.of_eq_self {g : Guard} {gs : List Guard} {j : Junction} (hg : g.Canonical)
    (hmem : g ∈ gs) (hall : ∀ k ∈ gs, k = g ∨ k = j.neutral) : j.of gs = g := by
  by_cases habsorbing : g = j.absorbing
  · rw [Junction.of_eq_of_absorbing (habsorbing ▸ hmem), habsorbing]
  by_cases hneutral : g = j.neutral
  · rw [Junction.of_eq_neutral fun k hk => (hall k hk).elim (fun heq => heq.trans hneutral) id,
      hneutral]
  have hdecided : j.absorbing ∉ gs := fun h =>
    (hall _ h).elim (fun heq => habsorbing heq.symm) fun heq => j.neutral_ne_absorbing heq.symm
  obtain ⟨hincreasing, hbuild⟩ := Junction.build_opened (j := j) hg
  rw [Junction.of_eq_build hdecided hincreasing
    (fun _ => Junction.mem_flatten_self_iff hmem hall hneutral)
    (fun _ hh => (Junction.settled_opened hg hh).1)
    (fun _ hh => (Junction.settled_opened hg hh).2), hbuild]

end Lookahead
