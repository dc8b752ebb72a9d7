import Lookahead.Proofs.Guard.Pool
import Lookahead.Proofs.Guard.Laws

/-! Joining guards two by two comes to the same as joining them at once.

A part that absorbs an operand is no junction of the kind that can be absorbed, so what is left
out early would not have absorbed anything later. Where no operand is a negation nothing can be
decided by a contradiction either, and what is left of all operands is left of what was left of
some of them (`of_of_append`). So guards without negations can be joined in any order and in any
brackets, by the operations or through pools. -/
namespace Lookahead

namespace Junction
open Guard
variable {j : Junction} {gs hs ops ops' : List Guard} {g h : Guard}

/-! ### Joining what was joined -/

/-- An operand that stands in a junction of another kind and is canonical is not absorbed. -/
theorem absorbs_part_eq_false {parts : List Guard} (hcanonical : (j.other.make parts).Canonical)
    (hpart : g ∈ parts) : j.absorbs ops g = false := by
  refine absorbs_eq_false_iff.mpr ?_
  rintro hs rfl
  exact absurd hpart ((canonical_make_iff.mp hcanonical).2.flat hs)

/-- What is left of some operands absorbs what they absorb. -/
theorem absorbs_kept (hg : g.Canonical) :
    j.absorbs (j.kept ops ++ j.kept ops') g = j.absorbs (ops ++ ops') g := by
  refine absorbs_eq_of_parts ?_
  rintro parts rfl part hpart
  rw [has_append, has_append, has_kept, has_kept, absorbs_part_eq_false hg hpart,
    absorbs_part_eq_false hg hpart, Bool.not_false, Bool.and_true, Bool.and_true]

theorem absorbs_append (j : Junction) (ops ops' : List Guard) (g : Guard) :
    j.absorbs (ops ++ ops') g = (j.absorbs ops g || j.absorbs ops' g) := by
  rw [Bool.eq_iff_iff, Bool.or_eq_true, absorbs_iff, absorbs_iff, absorbs_iff]
  simp only [has_append, Bool.or_eq_true, and_or_left, exists_or]

/-- What is left of all operands is left of what was left of some and of the others. -/
theorem has_kept_kept (hg : g.Canonical) :
    has (j.kept (j.kept ops ++ j.kept ops')) g = has (j.kept (ops ++ ops')) g := by
  rw [has_kept, has_kept, has_append, has_append, has_kept, has_kept, absorbs_kept hg,
    absorbs_append]
  cases j.absorbs ops g <;> cases j.absorbs ops' g <;> simp

/-! ### Operands that are only sorted and absorbed -/

/-- A canonical operand that decides nothing, is not opened and denies nothing. -/
structure Plain (j : Junction) (g : Guard) : Prop where
  canonical : g.Canonical
  proper : ¬ g.IsConstant
  flat : j.parts? g = none
  affirmative : ∀ h, g ≠ .not h

theorem plain_of_mem_flatten (hgs : ∀ g ∈ gs, g.Canonical) (habsorbing : j.absorbing ∉ gs)
    (hnot : ∀ g ∈ j.flatten gs, ∀ h, g ≠ .not h) (hg : g ∈ j.flatten gs) : j.Plain g := by
  obtain ⟨hcanonical, hproper, hflat⟩ := canonical_of_mem_flatten hgs habsorbing hg
  exact ⟨hcanonical, hproper, Option.eq_none_iff_forall_ne_some.mpr fun parts hparts =>
    hflat parts (eq_make_of_parts? hparts), hnot g hg⟩

theorem build_ne_absorbing (hops : ∀ g ∈ ops, j.Plain g) : j.build ops ≠ j.absorbing := by
  match ops with
  | [] => exact j.neutral_ne_absorbing
  | [g] => exact fun heq => (hops g (.head _)).proper (isConstant_iff.mpr (.inr heq))
  | g :: h :: gs => exact make_ne_absorbing j j _

/-- What is built of plain operands is opened to these. -/
theorem flatten_build (hops : ∀ g ∈ ops, j.Plain g) : j.flatten [j.build ops] = ops := by
  match ops with
  | [] => simp [build, flatten]
  | [g] =>
    obtain ⟨_, hproper, hflat, _⟩ := hops g (.head _)
    have hneutral : g ≠ j.neutral := fun heq => hproper (isConstant_iff.mpr (.inl heq))
    simp [build, flatten, hneutral, hflat]
  | g :: h :: gs => simp [build, flatten]

theorem of_eq_build_kept (habsorbing : j.absorbing ∉ gs) (hops : ∀ g ∈ j.flatten gs, j.Plain g) :
    j.of gs = j.build (j.kept (j.flatten gs)) := by
  have hconsistent : (j.flatten gs).any (j.contradicts (j.flatten gs)) = false :=
    List.any_eq_false.mpr fun g hg => Bool.eq_false_iff.mp
      (contradicts_eq_false_of_ne_not (hops g hg).affirmative)
  rw [of_eq habsorbing, hconsistent, if_neg nofun]

/-- Plain operands may be joined in two lots. -/
theorem of_build_kept (hops : ∀ g ∈ ops ++ ops', j.Plain g) :
    (j.of [j.build (j.kept ops), j.build (j.kept ops')]).same
      (j.build (j.kept (ops ++ ops'))) = true := by
  have hkept : ∀ g ∈ j.kept ops, j.Plain g := fun g hg =>
    hops g (List.mem_append_left _ (mem_of_mem_kept hg))
  have hkept' : ∀ g ∈ j.kept ops', j.Plain g := fun g hg =>
    hops g (List.mem_append_right _ (mem_of_mem_kept hg))
  have hflatten : j.flatten [j.build (j.kept ops), j.build (j.kept ops')] =
      j.kept ops ++ j.kept ops' := by
    rw [← List.singleton_append, flatten_append, flatten_build hkept, flatten_build hkept']
  have hall := List.forall_mem_append.mpr ⟨hkept, hkept'⟩
  have habsorbing : j.absorbing ∉ [j.build (j.kept ops), j.build (j.kept ops')] := by
    simp [Ne.symm (build_ne_absorbing hkept), Ne.symm (build_ne_absorbing hkept')]
  rw [of_eq_build_kept habsorbing (by rwa [hflatten]), hflatten]
  refine build_same (increasing_kept _ _) (increasing_kept _ _) (fun g hg => ?_) fun g hg => ?_
  · rw [← has_kept_kept (hall g (mem_of_mem_kept hg)).canonical]
    exact has_of_mem hg
  · rw [has_kept_kept (hops g (mem_of_mem_kept hg)).canonical]
    exact has_of_mem hg

/-- **Guards may be joined in two lots** if no operand is a negation. -/
theorem of_of_append (hgs : ∀ g ∈ gs ++ hs, g.Canonical)
    (hnot : ∀ g ∈ j.flatten (gs ++ hs), ∀ h, g ≠ .not h) :
    (j.of [j.of gs, j.of hs]).same (j.of (gs ++ hs)) = true := by
  by_cases habsorbing : j.absorbing ∈ gs ++ hs
  · have hpart : j.absorbing ∈ [j.of gs, j.of hs] := by
      rcases List.mem_append.mp habsorbing with h | h
      · exact of_eq_of_absorbing h ▸ .head _
      · exact of_eq_of_absorbing h ▸ .tail _ (.head _)
    rw [of_eq_of_absorbing habsorbing, of_eq_of_absorbing hpart]
    exact same_self _
  have hops : ∀ g ∈ j.flatten gs ++ j.flatten hs, j.Plain g := fun g hg =>
    plain_of_mem_flatten hgs habsorbing hnot (flatten_append j gs hs ▸ hg)
  rw [of_eq_build_kept habsorbing (by rwa [flatten_append]), flatten_append]
  rw [List.mem_append, not_or] at habsorbing
  rw [of_eq_build_kept habsorbing.1 fun g hg => hops g (List.mem_append_left _ hg),
    of_eq_build_kept habsorbing.2 fun g hg => hops g (List.mem_append_right _ hg)]
  exact of_build_kept hops

end Junction

namespace Guard
open Junction
variable {j : Junction} {gs : List Guard} {g h : Guard}

/-! ### Guards without negations -/

/-- Guards that are put together without negation. -/
inductive NegationFree : Guard → Prop where
  | leaf (p : Predicate) : NegationFree (.leaf p)
  | always : NegationFree .always
  | never : NegationFree .never
  | and {g h : Guard} (hg : NegationFree g) (hh : NegationFree h) : NegationFree (g.and h)
  | or {g h : Guard} (hg : NegationFree g) (hh : NegationFree h) : NegationFree (g.or h)
  | allOf {gs : List Guard} (hgs : ∀ g ∈ gs, NegationFree g) : NegationFree (allOf gs)
  | anyOf {gs : List Guard} (hgs : ∀ g ∈ gs, NegationFree g) : NegationFree (anyOf gs)

/-- Trees with no negation in them. -/
inductive Positive : Guard → Prop where
  | never : Positive .never
  | always : Positive .always
  | leaf (p : Predicate) : Positive (.leaf p)
  | all {gs : List Guard} (hgs : ∀ g ∈ gs, Positive g) : Positive (.all gs)
  | any {gs : List Guard} (hgs : ∀ g ∈ gs, Positive g) : Positive (.any gs)

theorem Positive.ne_not (hg : g.Positive) (h : Guard) : g ≠ .not h := by
  rintro rfl
  cases hg

theorem positive_make_iff : (j.make gs).Positive ↔ ∀ g ∈ gs, g.Positive := by
  constructor
  · intro hpositive
    cases j with
    | all =>
      cases hpositive with
      | all hgs => exact hgs
    | any =>
      cases hpositive with
      | any hgs => exact hgs
  · intro hgs
    cases j with
    | all => exact .all hgs
    | any => exact .any hgs

theorem positive_neutral (j : Junction) : j.neutral.Positive := by
  cases j with
  | all => exact .always
  | any => exact .never

theorem positive_build (hgs : ∀ g ∈ gs, g.Positive) : (j.build gs).Positive := by
  match gs with
  | [] => exact positive_neutral j
  | [g] => exact hgs g (.head _)
  | g :: h :: gs => exact positive_make_iff.mpr hgs

theorem positive_of_mem_flatten (hgs : ∀ g ∈ gs, g.Positive) (hg : g ∈ j.flatten gs) :
    g.Positive := by
  obtain ⟨k, hk, _, hopened⟩ := mem_flatten_iff.mp hg
  rcases opened_inside hopened with rfl | hpart
  · exact hgs g hk
  · have hpositive := hgs k hk
    cases hpart with
    | denied => exact nomatch hpositive
    | operand hmem => exact positive_make_iff.mp hpositive g hmem

theorem positive_of (hgs : ∀ g ∈ gs, g.Positive) : (j.of gs).Positive := by
  by_cases habsorbing : j.absorbing ∈ gs
  · rw [of_eq_of_absorbing habsorbing]
    exact positive_neutral j.other
  rw [of_eq habsorbing]
  split
  · exact positive_neutral j.other
  · exact positive_build fun g hg => positive_of_mem_flatten hgs (mem_of_mem_kept hg)

theorem NegationFree.canonical_and_positive (hg : g.NegationFree) : g.Canonical ∧ g.Positive := by
  induction hg with
  | leaf p => exact ⟨.leaf p, .leaf p⟩
  | always => exact ⟨.always, .always⟩
  | never => exact ⟨.never, .never⟩
  | and _ _ ihg ihh => exact ⟨ihg.1.and ihh.1, positive_of (by simp [ihg.2, ihh.2])⟩
  | or _ _ ihg ihh => exact ⟨ihg.1.or ihh.1, positive_of (by simp [ihg.2, ihh.2])⟩
  | allOf _ ih => exact ⟨canonical_of fun g hg => (ih g hg).1, positive_of fun g hg => (ih g hg).2⟩
  | anyOf _ ih => exact ⟨canonical_of fun g hg => (ih g hg).1, positive_of fun g hg => (ih g hg).2⟩

/-! ### Brackets -/

/-- The request for a junction of two guards. -/
def Pool.Request.join : Junction → Handle → Handle → Pool.Request
  | .all => .and
  | .any => .or

/-- What can come of joining handles two by two, in their order and in any brackets. Each time
this is done by the operation or by some pool, whatever the pool holds by then. -/
inductive Bracketed (j : Junction) : List Handle → Handle → Prop where
  | single (h : Handle) : Bracketed j [h] h
  | plain {hs ks : List Handle} {h k : Handle} (hh : Bracketed j hs h) (hk : Bracketed j ks k)
    (stamp : Stamp) : Bracketed j (hs ++ ks) (.join j stamp [h, k])
  | pooled {hs ks : List Handle} {h k : Handle} (hh : Bracketed j hs h) (hk : Bracketed j ks k)
    (pool : Pool) (stamp : Stamp) : Bracketed j (hs ++ ks) (pool.answer ⟨stamp, .join j h k⟩).1

/-- A pool joins two canonical guards as the operation does. -/
theorem Pool.answer_join {h k : Handle} (pool : Pool) (stamp : Stamp) (hh : h.guard.Canonical)
    (hk : k.guard.Canonical) :
    (pool.answer ⟨stamp, .join j h k⟩).1.guard.same (j.of [h.guard, k.guard]) = true := by
  have hoperands : ∀ l ∈ [h, k], l.guard.Canonical := by simp [hh, hk]
  cases j with
  | all => exact (pool.answer_spec (c := ⟨stamp, .and h k⟩) hoperands).1
  | any => exact (pool.answer_spec (c := ⟨stamp, .or h k⟩) hoperands).1

/-- Joining the results for two lists is joining the lists, whatever stands for the results. -/
theorem of_pair_same {gs hs : List Guard} (hfree : ∀ g ∈ gs ++ hs, g.NegationFree)
    (hg : g.same (j.of gs) = true) (hh : h.same (j.of hs) = true) :
    (j.of [g, h]).same (j.of (gs ++ hs)) = true := by
  have hpair : (j.of [g, h]).same (j.of [j.of gs, j.of hs]) = true := by
    refine of_same_of_has ?_ ?_ <;> simp [has, hg, hh, same_symm hg, same_symm hh]
  have hnot : ∀ g ∈ j.flatten (gs ++ hs), ∀ h, g ≠ .not h := fun g hmem =>
    (positive_of_mem_flatten (fun g hg => (hfree g hg).canonical_and_positive.2) hmem).ne_not
  exact same_trans hpair (of_of_append (fun g hg => (hfree g hg).canonical_and_positive.1) hnot)

theorem Bracketed.same_of {hs : List Handle} {h : Handle} (hjoined : Bracketed j hs h)
    (hfree : ∀ g ∈ hs.map Handle.guard, g.NegationFree) :
    h.guard.same (j.of (hs.map Handle.guard)) = true := by
  induction hjoined with
  | single h =>
    have hh := (hfree h.guard (.head _)).canonical_and_positive.1
    rw [List.map_singleton, hh.of_eq_self (.head _) (by simp)]
    exact same_self _
  | @plain hs ks h k _ _ stamp ihh ihk =>
    rw [List.map_append] at hfree ⊢
    have hh := ihh fun g hg => hfree g (List.mem_append_left _ hg)
    have hk := ihk fun g hg => hfree g (List.mem_append_right _ hg)
    rw [Handle.guard_join]
    exact of_pair_same hfree hh hk
  | @pooled hs ks h k _ _ pool stamp ihh ihk =>
    rw [List.map_append] at hfree ⊢
    have hh := ihh fun g hg => hfree g (List.mem_append_left _ hg)
    have hk := ihk fun g hg => hfree g (List.mem_append_right _ hg)
    have hcanonical {gs : List Guard} {g : Guard} (hgs : ∀ g ∈ gs, g.NegationFree)
        (hg : g.same (j.of gs) = true) : g.Canonical :=
      (canonical_of fun g hg => (hgs g hg).canonical_and_positive.1).of_same (same_symm hg)
    have hanswer := pool.answer_join (j := j) stamp
      (hcanonical (fun g hg => hfree g (List.mem_append_left _ hg)) hh)
      (hcanonical (fun g hg => hfree g (List.mem_append_right _ hg)) hk)
    exact same_trans hanswer (of_pair_same hfree hh hk)

/-- **Brackets and order do not matter.** However guards without negations are put in order and
joined two by two, by the operations or through pools, this comes to their junction. -/
theorem bracketing_immaterial {gs : List Guard} {hs : List Handle} {h : Handle}
    (hfree : ∀ g ∈ gs, g.NegationFree) (hperm : (hs.map Handle.guard).Perm gs)
    (hjoined : Bracketed j hs h) : h.guard.same (j.of gs) = true := by
  have hmem {g : Guard} : g ∈ hs.map Handle.guard ↔ g ∈ gs := hperm.mem_iff
  refine same_trans (hjoined.same_of fun g hg => hfree g (hmem.mp hg)) ?_
  exact of_same_of_has (fun g hg => has_of_mem (hmem.mp hg)) fun g hg => has_of_mem (hmem.mpr hg)

namespace Brackets
open Nested

/-- The first one absorbs the conjunction, which stands between it and the third one. -/
def operands : List Guard := [first, first.and second, third]

def handle (stamp : Stamp) (g : Guard) : Handle := .ofGuard stamp g

/-- The conjunction joins the third one in a pool, and the first one after that. -/
def joined : Handle :=
  .join .any [4] [(Pool.empty.answer ⟨[3], .join .any (handle [1] (first.and second))
    (handle [2] third)⟩).1, handle [0] first]

end Brackets

open Nested Brackets in
/-- What absorbs comes last, and what it absorbs has been joined with something else before. -/
theorem bracketing_immaterial_late :
    (∀ g ∈ operands, g.NegationFree) ∧ joined.guard.same (anyOf operands) = true ∧
      anyOf operands = .any [first, third] := by
  have hfirst : first.NegationFree := .leaf _
  have hsecond : second.NegationFree := .leaf _
  have hthird : third.NegationFree := .leaf _
  have hfree : ∀ g ∈ operands, g.NegationFree := by
    simp [operands, hfirst, hthird, hfirst.and hsecond]
  have hjoined : Bracketed .any
      [handle [1] (first.and second), handle [2] third, handle [0] first] joined :=
    .plain (.pooled (.single _) (.single _) _ _) (.single _) _
  have hperm : ([handle [1] (first.and second), handle [2] third, handle [0] first].map
      Handle.guard).Perm operands := by decide +kernel
  exact ⟨hfree, bracketing_immaterial hfree hperm hjoined, by decide +kernel⟩

end Guard
end Lookahead
