import Lookahead.Proofs.Guard.Canonical

/-! Operands that are the same are worth the same to a junction.

All that a junction looks at is which guards it has among its operands, up to being the same.
So what is left of its operands can be said without their order (`has_kept`), `of_eq` says it
of the whole junction, and operands with the same members come to the same guard
(`of_same_of_has`). Being canonical does not depend on more either (`Canonical.of_same`). -/
namespace Lookahead

namespace Guard
variable {g h k : Guard}

mutual
theorem bare_bare : (g : Guard) → g.bare.bare = g.bare
  | .never | .always | .leaf _ => by simp [bare, bareLeaf]
  | .not g => by rw [bare, bare, bare_bare g]
  | .all gs => by rw [bare, bare, bareList_bareList gs]
  | .any gs => by rw [bare, bare, bareList_bareList gs]

theorem bareList_bareList : (gs : List Guard) → bareList (bareList gs) = bareList gs
  | [] => rfl
  | g :: gs => by rw [bareList, bareList, bare_bare g, bareList_bareList gs]
end

theorem same_bare (g : Guard) : g.same g.bare = true := same_iff.mpr g.bare_bare.symm

theorem same_trans (hgh : g.same h = true) (hhk : h.same k = true) : g.same k = true :=
  same_iff.mpr ((same_iff.mp hgh).trans (same_iff.mp hhk))

theorem same_symm (hgh : g.same h = true) : h.same g = true := same_comm g h ▸ hgh

theorem compare_bare (g h : Guard) : g.bare.compare h.bare = g.compare h := by
  have heq (k : Guard) : k.bare.compare k = .eq := (compare_eq_iff _ _).mpr k.bare_bare
  rw [Std.TransCmp.congr_left (heq g), Std.TransCmp.congr_right (heq h)]

theorem increasing_map_bare {gs : List Guard} : Increasing (gs.map bare) ↔ Increasing gs := by
  simp only [Increasing, List.pairwise_map, compare_bare]

theorem isConstant_iff_of_same (hsame : g.same h = true) : g.IsConstant ↔ h.IsConstant := by
  rw [same_iff] at hsame
  cases g <;> cases h <;> simp_all [bare, IsConstant]

end Guard

namespace Junction
open Guard
variable {j : Junction} {gs hs ops ops' : List Guard} {g h : Guard}

@[simp] theorem bare_make (j : Junction) (gs : List Guard) :
    (j.make gs).bare = j.make (gs.map bare) := by
  cases j <;> simp [make, bare, bareList_eq_map]

@[simp] theorem bare_neutral (j : Junction) : j.neutral.bare = j.neutral := by
  cases j <;> rfl

theorem bare_eq_neutral_iff : g.bare = j.neutral ↔ g = j.neutral := by
  cases j <;> cases g <;> simp [bare, neutral]

theorem parts?_bare (j : Junction) (g : Guard) :
    j.parts? g.bare = (j.parts? g).map (List.map bare) := by
  cases j <;> cases g <;> simp [parts?, bare, bareList_eq_map]

/-! ### What is opened -/

theorem flatten_pair (hg : g ≠ j.neutral) (hh : h ≠ j.neutral) :
    j.flatten [g, h] = j.opened g ++ j.opened h := by
  simp [flatten, hg, hh, opened]

@[simp] theorem parts?_make_other (j : Junction) (gs : List Guard) :
    j.parts? (j.other.make gs) = none := by
  cases j <;> rfl

@[simp] theorem opened_make_other (j : Junction) (gs : List Guard) :
    j.opened (j.other.make gs) = [j.other.make gs] := by
  simp [opened]

theorem opened_inside (hh : h ∈ j.opened g) : h = g ∨ Part h g := by
  rcases j.opened_cases g with ⟨_, hopened⟩ | ⟨parts, rfl, hopened⟩
  · exact .inl (List.mem_singleton.mp (hopened ▸ hh))
  · exact .inr (.operand (hopened ▸ hh))

/-! ### What is among some operands -/

theorem has_iff : has ops g = true ↔ g.bare ∈ ops.map bare := by
  simp only [has, List.any_eq_true, same_iff, List.mem_map, eq_comm (a := g.bare)]

theorem has_of_mem (hg : g ∈ ops) : has ops g = true := has_iff.mpr (List.mem_map_of_mem hg)

theorem has_eq_of_same (hsame : g.same h = true) : has ops g = has ops h := by
  rw [Bool.eq_iff_iff, has_iff, has_iff, same_iff.mp hsame]

theorem has_bare (ops : List Guard) (g : Guard) : has ops g.bare = has ops g :=
  (has_eq_of_same g.same_bare).symm

theorem has_append (ops ops' : List Guard) (g : Guard) :
    has (ops ++ ops') g = (has ops g || has ops' g) := List.any_append

theorem has_arrange (gs : List Guard) : has (arrange gs) = has gs := by
  funext g
  rw [Bool.eq_iff_iff]
  constructor
  · intro hg
    obtain ⟨k, hk, hsame⟩ := exists_of_has hg
    exact (has_eq_of_same hsame).trans (has_of_mem (mem_of_mem_arrange hk))
  · intro hg
    obtain ⟨k, hk, hsame⟩ := exists_of_has hg
    obtain ⟨l, hl, hlk⟩ := exists_mem_arrange hk
    exact (has_eq_of_same (same_trans hsame (same_symm hlk))).trans (has_of_mem hl)

/-! ### What a check looks at -/

/-- A check for contradiction looks at what stands inside the operand. -/
theorem contradicts_eq_of_inside
    (h : ∀ k, Relation.TransGen Part k g → has ops k = has ops' k) :
    j.contradicts ops g = j.contradicts ops' g := by
  cases g with
  | not g =>
    cases hparts : j.parts? g with
    | none => simpa only [contradicts, hparts] using h g (.single .denied)
    | some parts =>
      obtain rfl := eq_make_of_parts? hparts
      simp only [contradicts, hparts]
      rw [Bool.eq_iff_iff, List.all_eq_true, List.all_eq_true]
      exact forall₂_congr fun k hk => by rw [h k (.head (.operand hk) (.single .denied))]
  | never | always | leaf | all | any => rfl

/-- A check for absorption looks at the parts of a junction of the other kind. -/
theorem absorbs_eq_of_parts
    (h : ∀ parts, g = j.other.make parts → ∀ k ∈ parts, has ops k = has ops' k) :
    j.absorbs ops g = j.absorbs ops' g := by
  rw [Bool.eq_iff_iff, absorbs_iff, absorbs_iff]
  exact exists_congr fun parts => and_congr_right fun hparts => exists_congr fun k =>
    and_congr_right fun hk => by rw [h parts hparts k hk]

theorem contradicts_congr (h : has ops = has ops') : j.contradicts ops = j.contradicts ops' :=
  funext fun _ => contradicts_eq_of_inside fun k _ => congrFun h k

theorem absorbs_congr (h : has ops = has ops') : j.absorbs ops = j.absorbs ops' :=
  funext fun _ => absorbs_eq_of_parts fun _ _ k _ => congrFun h k

theorem contradicts_eq_false_of_ne_not (hg : ∀ h, g ≠ .not h) : j.contradicts ops g = false := by
  cases g with
  | not h => exact absurd rfl (hg h)
  | never | always | leaf | all | any => rfl

theorem contradicts_bare (j : Junction) (ops : List Guard) (g : Guard) :
    j.contradicts ops g.bare = j.contradicts ops g := by
  cases g with
  | not g =>
    simp only [bare, contradicts, parts?_bare]
    cases j.parts? g with
    | none => exact has_bare ops g
    | some parts => simp [List.all_map, Function.comp_def, has_bare]
  | never | always | leaf | all | any => rfl

theorem absorbs_bare (j : Junction) (ops : List Guard) (g : Guard) :
    j.absorbs ops g.bare = j.absorbs ops g := by
  simp only [absorbs, parts?_bare]
  cases j.other.parts? g with
  | none => rfl
  | some parts => simp [List.any_map, Function.comp_def, has_bare]

theorem contradicts_eq_of_same (hsame : g.same h = true) :
    j.contradicts ops g = j.contradicts ops h := by
  rw [← contradicts_bare, same_iff.mp hsame, contradicts_bare]

theorem absorbs_eq_of_same (hsame : g.same h = true) : j.absorbs ops g = j.absorbs ops h := by
  rw [← absorbs_bare, same_iff.mp hsame, absorbs_bare]

/-! ### What is left of some operands -/

/-- The operands without those that are absorbed, in order and each of them once. -/
def kept (j : Junction) (ops : List Guard) : List Guard :=
  (arrange ops).filter fun g => !j.absorbs ops g

theorem increasing_kept (j : Junction) (ops : List Guard) : Increasing (j.kept ops) :=
  (increasing_arrange ops).filter _

theorem mem_of_mem_kept (hg : g ∈ j.kept ops) : g ∈ ops :=
  mem_of_mem_arrange (List.mem_of_mem_filter hg)

theorem has_kept (j : Junction) (ops : List Guard) (g : Guard) :
    has (j.kept ops) g = (has ops g && !j.absorbs ops g) := by
  rw [Bool.eq_iff_iff, Bool.and_eq_true]
  constructor
  · intro hg
    obtain ⟨k, hk, hsame⟩ := exists_of_has hg
    rw [has_eq_of_same hsame, absorbs_eq_of_same hsame]
    exact ⟨has_of_mem (mem_of_mem_kept hk), (List.mem_filter.mp hk).2⟩
  · rintro ⟨hg, habsorbs⟩
    rw [← has_arrange] at hg
    obtain ⟨k, hk, hsame⟩ := exists_of_has hg
    rw [has_eq_of_same hsame]
    rw [absorbs_eq_of_same hsame] at habsorbs
    exact has_of_mem (List.mem_filter.mpr ⟨hk, habsorbs⟩)

/-- What is not absorbed is kept, or another operand that is the same. -/
theorem exists_mem_kept (hg : g ∈ ops) (habsorbs : j.absorbs ops g = false) :
    ∃ k ∈ j.kept ops, g.same k = true := by
  refine exists_of_has ?_
  rw [has_kept, has_of_mem hg, habsorbs]
  rfl

theorem any_contradicts_congr (h : has ops = has ops') :
    ops.any (j.contradicts ops) = ops'.any (j.contradicts ops') := by
  have hany {ops ops' : List Guard} (h : has ops = has ops')
      (hany : ops.any (j.contradicts ops) = true) : ops'.any (j.contradicts ops') = true := by
    obtain ⟨g, hg, hc⟩ := List.any_eq_true.mp hany
    obtain ⟨k, hk, hsame⟩ := exists_of_has (h ▸ has_of_mem hg)
    refine List.any_eq_true.mpr ⟨k, hk, ?_⟩
    rw [← contradicts_congr h, ← contradicts_eq_of_same hsame, hc]
  exact Bool.eq_iff_iff.mpr ⟨hany h, hany h.symm⟩

/-- A junction that is not decided by a constant, without the order of its operands. -/
theorem of_eq (habsorbing : j.absorbing ∉ gs) :
    j.of gs = if (j.flatten gs).any (j.contradicts (j.flatten gs)) then j.absorbing
      else j.build (j.kept (j.flatten gs)) := by
  simp only [of, List.contains_iff_mem, habsorbing, if_false, any_contradicts_congr (has_arrange _),
    absorbs_congr (has_arrange _), kept]

theorem bare_build (j : Junction) (ops : List Guard) :
    (j.build ops).bare = j.build (ops.map bare) := by
  match ops with
  | [] => exact bare_neutral j
  | [_] => rfl
  | _ :: _ :: _ => exact bare_make j _

theorem mem_map_bare_iff (h : ∀ g ∈ ops, has ops' g = true) (h' : ∀ g ∈ ops', has ops g = true)
    (k : Guard) : k ∈ ops.map bare ↔ k ∈ ops'.map bare := by
  constructor
  · intro hk
    obtain ⟨g, hg, rfl⟩ := List.mem_map.mp hk
    exact has_iff.mp (h g hg)
  · intro hk
    obtain ⟨g, hg, rfl⟩ := List.mem_map.mp hk
    exact has_iff.mp (h' g hg)

theorem build_same (hops : Increasing ops) (hops' : Increasing ops')
    (h : ∀ g ∈ ops, has ops' g = true) (h' : ∀ g ∈ ops', has ops g = true) :
    (j.build ops).same (j.build ops') = true := by
  have heq : ops.map bare = ops'.map bare :=
    (increasing_map_bare.mpr hops).eq_of_mem_iff (increasing_map_bare.mpr hops')
      (mem_map_bare_iff h h')
  rw [same_iff, bare_build, bare_build, heq]

/-! ### Junctions of the same operands -/

theorem flatten_append (j : Junction) (gs hs : List Guard) :
    j.flatten (gs ++ hs) = j.flatten gs ++ j.flatten hs := List.flatMap_append

theorem flatten_bare (j : Junction) (gs : List Guard) :
    (j.flatten gs).map bare = j.flatten (gs.map bare) := by
  simp only [flatten, List.map_flatMap, List.flatMap_map, bare_eq_neutral_iff, parts?_bare]
  refine congrArg (List.flatMap · gs) (funext fun g => ?_)
  split
  · rfl
  · cases j.parts? g <;> rfl

/-- **Which operands there are decides a junction**, and neither their order nor how often each
of them stands. -/
theorem of_same_of_has (h : ∀ g ∈ gs, has hs g = true) (h' : ∀ g ∈ hs, has gs g = true) :
    (j.of gs).same (j.of hs) = true := by
  have hmem := mem_map_bare_iff h h'
  have habsorbing : j.absorbing ∈ gs ↔ j.absorbing ∈ hs := by
    have hbare (l : List Guard) : j.absorbing ∈ l ↔ j.absorbing ∈ l.map bare := by
      simp [absorbing, bare_eq_neutral_iff]
    rw [hbare gs, hbare hs, hmem]
  by_cases hdecided : j.absorbing ∈ gs
  · rw [of_eq_of_absorbing hdecided, of_eq_of_absorbing (habsorbing.mp hdecided)]
    exact same_self _
  have hflatten : has (j.flatten gs) = has (j.flatten hs) := by
    funext g
    rw [Bool.eq_iff_iff, has_iff, has_iff, flatten_bare, flatten_bare, flatten, flatten,
      List.mem_flatMap, List.mem_flatMap]
    simp only [hmem]
  rw [of_eq hdecided, of_eq (habsorbing.not.mp hdecided), any_contradicts_congr hflatten]
  split
  · exact same_self _
  · have hkept : has (j.kept (j.flatten gs)) = has (j.kept (j.flatten hs)) := by
      funext g
      rw [has_kept, has_kept, hflatten, absorbs_congr hflatten]
    exact build_same (increasing_kept _ _) (increasing_kept _ _)
      (fun _ hg => hkept ▸ has_of_mem hg) (fun _ hg => hkept ▸ has_of_mem hg)

/-! ### Canonical guards -/

/-- Operands are tidy where no step of joining them finds anything to do. -/
theorem tidy_iff : j.Tidy gs ↔ 2 ≤ gs.length ∧ Increasing gs ∧ ∀ g ∈ gs, ¬ g.IsConstant ∧
    j.parts? g = none ∧ j.contradicts gs g = false ∧ j.absorbs gs g = false := by
  constructor
  · intro htidy
    refine ⟨htidy.several, htidy.increasing, fun g hg => ⟨htidy.proper g hg, ?_,
      htidy.contradicts_eq_false hg, htidy.absorbs_eq_false hg⟩⟩
    refine Option.eq_none_iff_forall_ne_some.mpr fun parts hparts => ?_
    exact htidy.flat parts (eq_make_of_parts? hparts ▸ hg)
  · rintro ⟨hseveral, hincreasing, hall⟩
    have hfilter : (gs.filter fun g => !j.absorbs gs g) = gs :=
      List.filter_eq_self.mpr fun g hg => by rw [(hall g hg).2.2.2]; rfl
    have htidy := tidy_filter (j := j) hincreasing (fun g hg => (hall g hg).1)
      (fun parts hmake => by simpa using (hall _ hmake).2.1) (fun g hg => (hall g hg).2.2.1)
    rw [hfilter] at htidy
    exact htidy hseveral

theorem Tidy.of_map_bare_eq (htidy : j.Tidy gs) (heq : gs.map bare = hs.map bare) :
    j.Tidy hs := by
  obtain ⟨hseveral, hincreasing, hall⟩ := tidy_iff.mp htidy
  have hlength : gs.length = hs.length := by simpa using congrArg List.length heq
  have hhas : has gs = has hs := by
    funext g
    rw [Bool.eq_iff_iff, has_iff, has_iff, heq]
  refine tidy_iff.mpr ⟨hlength ▸ hseveral, ?_, fun h hh => ?_⟩
  · rwa [← increasing_map_bare, ← heq, increasing_map_bare]
  · obtain ⟨g, hg, hsame⟩ := exists_of_has (hhas ▸ has_of_mem hh)
    obtain ⟨hproper, hflat, hconsistent, hunabsorbed⟩ := hall g hg
    refine ⟨(isConstant_iff_of_same hsame).not.mpr hproper, ?_, ?_, ?_⟩
    · have hparts := congrArg (fun k : Guard => j.parts? k) (same_iff.mp hsame)
      simpa [parts?_bare, hflat] using hparts
    · rw [← contradicts_congr hhas, contradicts_eq_of_same hsame, hconsistent]
    · rw [← absorbs_congr hhas, absorbs_eq_of_same hsame, hunabsorbed]

end Junction

/-- What is the same as a canonical guard is canonical. -/
theorem Guard.Canonical.of_same {g h : Guard} (hg : g.Canonical) (hsame : g.same h = true) :
    h.Canonical := by
  have hmake {j : Junction} {gs : List Guard} {h : Guard}
      (hgs : ∀ g ∈ gs, ∀ h, g.same h = true → h.Canonical) (htidy : j.Tidy gs)
      (hsame : (j.make gs).same h = true) : h.Canonical := by
    obtain ⟨hs, rfl⟩ := Junction.exists_eq_make_of_same (same_symm hsame)
    have heq : gs.map bare = hs.map bare := by
      have hmaps := congrArg (fun k : Guard => j.parts? k) (same_iff.mp hsame)
      simpa using hmaps
    refine canonical_make_iff.mpr ⟨fun h hh => ?_, htidy.of_map_bare_eq heq⟩
    have hmem : h.bare ∈ gs.map bare := heq ▸ List.mem_map_of_mem hh
    obtain ⟨g, hg, hgh⟩ := List.mem_map.mp hmem
    exact hgs g hg h (same_iff.mpr hgh)
  induction hg generalizing h with
  | never | always | leaf p =>
    cases h <;> simp [same_iff, bare] at hsame
    constructor
  | @not g hg proper once ih =>
    rw [same_iff, bare] at hsame
    match h, hsame with
    | .not h, hsame =>
      have hgh : g.same h = true := same_iff.mpr (Guard.not.inj hsame)
      refine .not (ih hgh) ((isConstant_iff_of_same hgh).not.mp proper) fun k hk => ?_
      subst hk
      rw [same_iff, bare] at hgh
      match g, hgh with
      | .not g, _ => exact once g rfl
  | all hgs tidy ih => exact hmake (j := .all) (fun g hg h => ih g hg) tidy hsame
  | any hgs tidy ih => exact hmake (j := .any) (fun g hg h => ih g hg) tidy hsame

end Lookahead
