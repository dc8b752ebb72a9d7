import Lookahead.Proofs.Guard.Same

/-! Boolean laws that hold of canonical guards as trees.

That a guard beside its negation decides a junction is not only true but found: if the guard is
opened, all its parts are operands next to what denies it (`of_eq_absorbing`). The other laws
say that a canonical guard has nothing left to do, and that operands are a set. -/
namespace Lookahead

namespace Junction
open Guard
variable {j : Junction} {gs : List Guard} {g h : Guard}

theorem opened_subset_flatten (hg : g ∈ gs) (hneutral : g ≠ j.neutral) :
    j.opened g ⊆ j.flatten gs := fun _ hh => mem_flatten_iff.mpr ⟨g, hg, hneutral, hh⟩

theorem of_eq_absorbing (hh : h ∈ gs) (hnot : .not h ∈ gs) (hproper : ¬ h.IsConstant) :
    j.of gs = j.absorbing := by
  by_cases habsorbing : j.absorbing ∈ gs
  · exact of_eq_of_absorbing habsorbing
  have hdenied : .not h ∈ j.flatten gs :=
    opened_subset_flatten hnot (by cases j <;> exact nofun) (by cases j <;> exact .head _)
  have hneutral : h ≠ j.neutral := fun heq => hproper (isConstant_iff.mpr (.inl heq))
  have hstands := opened_subset_flatten hh hneutral
  have hcontradicts : j.contradicts (j.flatten gs) (.not h) = true := by
    rcases j.opened_cases h with ⟨hparts, hopened⟩ | ⟨parts, rfl, hopened⟩
    · rw [hopened] at hstands
      simpa only [contradicts, hparts] using has_of_mem (hstands (.head _))
    · rw [hopened] at hstands
      simp only [contradicts, parts?_make]
      exact List.all_eq_true.mpr fun part hpart => has_of_mem (hstands hpart)
  rw [of_eq habsorbing, if_pos (List.any_eq_true.mpr ⟨_, hdenied, hcontradicts⟩)]

end Junction

namespace Guard
open Junction
variable {c : Guard}

theorem Canonical.negate_negate (hc : c.Canonical) : c.negate.negate = c := by
  cases hc with
  | never | always | leaf | all | any => rfl
  | @not g hg proper once =>
    simp only [Guard.negate]
    cases g with
    | never => exact absurd (.inl rfl) proper
    | always => exact absurd (.inr rfl) proper
    | not h => exact absurd rfl (once h)
    | leaf | all | any => rfl

/-- Of a canonical guard and its negation one is the negation as a tree, unless both are
constants. -/
theorem Canonical.negate_cases (hc : c.Canonical) :
    c.IsConstant ∨ c.negate = .not c ∨ ∃ g, c = .not g ∧ c.negate = g ∧ ¬ g.IsConstant := by
  cases hc with
  | never => exact .inl (.inl rfl)
  | always => exact .inl (.inr rfl)
  | leaf | all | any => exact .inr (.inl rfl)
  | @not g hg proper once => exact .inr (.inr ⟨g, rfl, rfl, proper⟩)

theorem Canonical.of_negate (hc : c.Canonical) (j : Junction) :
    j.of [c, c.negate] = j.absorbing := by
  by_cases hconstant : c.IsConstant
  · rcases hconstant with rfl | rfl <;> cases j <;> rfl
  rcases hc.negate_cases.resolve_left hconstant with hnegate | ⟨g, rfl, hnegate, hproper⟩
  · rw [hnegate]
    exact of_eq_absorbing (.head _) (.tail _ (.head _)) hconstant
  · rw [hnegate]
    exact of_eq_absorbing (.tail _ (.head _)) (.head _) hproper

/-- **Canonical guards obey the laws of Boolean algebra as trees**: a junction of one guard or of
a guard with itself, the double negation, a guard beside its negation; and operands count as a
set. -/
theorem boolean_laws (hc : c.Canonical) :
    (c.and c = c ∧ c.or c = c) ∧ (allOf [c] = c ∧ anyOf [c] = c) ∧ c.negate.negate = c ∧
      c.and c.negate = .never ∧ c.or c.negate = .always ∧
      ∀ gs hs : List Guard, (∀ g ∈ gs, has hs g = true) → (∀ h ∈ hs, has gs h = true) →
        (allOf gs).same (allOf hs) = true ∧ (anyOf gs).same (anyOf hs) = true := by
  have hself (j : Junction) : j.of [c, c] = c := hc.of_eq_self (.head _) (by simp)
  have hsingle (j : Junction) : j.of [c] = c := hc.of_eq_self (.head _) (by simp)
  exact ⟨⟨hself .all, hself .any⟩, ⟨hsingle .all, hsingle .any⟩, hc.negate_negate,
    hc.of_negate .all, hc.of_negate .any, fun _ _ h h' => ⟨of_same_of_has h h', of_same_of_has h h'⟩⟩

namespace Nested

def first : Guard := .leaf ⟨0, "first", .validating, "s", none⟩

def second : Guard := .leaf ⟨1, "second", .validating, "s", none⟩

def third : Guard := .leaf ⟨2, "third", .validating, "s", none⟩

/-- A disjunction with a conjunction inside, and a negation in there. -/
def nested : Guard := .any [third, .all [first, .not second]]

theorem canonical_nested : nested.Canonical := by
  have hmade : nested = (first.and second.negate).or third := by decide +kernel
  have hfirst : first.Canonical := .leaf _
  have hsecond : second.Canonical := .leaf _
  have hthird : third.Canonical := .leaf _
  rw [hmade]
  exact (hfirst.and hsecond.negate).or hthird

end Nested

open Nested in
/-- The guard is opened beside its negation, and it may stand twice. -/
theorem boolean_laws_nested :
    nested.Canonical ∧ nested.negate = .not nested ∧ nested.or nested.negate = .always ∧
      (∀ g ∈ [first, nested, first], has [nested, first] g = true) ∧
      (∀ g ∈ [nested, first], has [first, nested, first] g = true) ∧
      (anyOf [first, nested, first]).same (anyOf [nested, first]) = true := by
  obtain ⟨_, _, _, _, hor, hset⟩ := boolean_laws canonical_nested
  have hmem : ∀ g ∈ [first, nested, first], has [nested, first] g = true := by decide +kernel
  have hmem' : ∀ g ∈ [nested, first], has [first, nested, first] g = true := by decide +kernel
  exact ⟨canonical_nested, rfl, hor, hmem, hmem', (hset _ _ hmem hmem').2⟩

end Guard
end Lookahead
