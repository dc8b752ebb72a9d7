import Lookahead.Sorting

/-! Sorted lists are sorted, and leaving out repeated elements loses none.

`sortBy_pairwise` holds for any total and transitive order. What `distinctRuns` leaves
out is `same` as an element that it keeps; for equality it keeps every element, and on
an ascending list the elements that it keeps ascend strictly. -/
namespace Lookahead
variable {α : Type}

/-- Of two elements of a list one comes first. -/
theorem rel_or_rel_of_pairwise {R : α → α → Prop} {x y : α} {l : List α} (h : l.Pairwise R)
    (hx : x ∈ l) (hy : y ∈ l) (hne : x ≠ y) : R x y ∨ R y x := by
  induction l with
  | nil => exact nomatch hx
  | cons z l ih =>
    obtain ⟨hz, hl⟩ := List.pairwise_cons.mp h
    rcases List.mem_cons.mp hx with rfl | hxl
    · rcases List.mem_cons.mp hy with rfl | hyl
      · exact absurd rfl hne
      · exact .inl (hz y hyl)
    · rcases List.mem_cons.mp hy with rfl | hyl
      · exact .inr (hz x hxl)
      · exact ih hl hxl hyl

section Order
variable {le : α → α → Bool} {x : α} {l : List α}

theorem insertBy_pairwise (total : ∀ x y, le x y = true ∨ le y x = true)
    (trans : ∀ x y z, le x y = true → le y z = true → le x z = true)
    (h : l.Pairwise (le · ·)) : (insertBy le x l).Pairwise (le · ·) := by
  induction l with
  | nil => exact List.pairwise_singleton ..
  | cons y ys ih =>
    obtain ⟨hy, hys⟩ := List.pairwise_cons.mp h
    simp only [insertBy]
    split
    · next hxy =>
      refine List.pairwise_cons.mpr ⟨fun z hz => ?_, h⟩
      rcases List.mem_cons.mp hz with rfl | hz
      · exact hxy
      · exact trans x y z hxy (hy z hz)
    · next hxy =>
      refine List.pairwise_cons.mpr ⟨fun z hz => ?_, ih hys⟩
      rcases List.mem_cons.mp ((perm_insertBy le x ys).mem_iff.mp hz) with rfl | hz
      · exact (total y z).resolve_right hxy
      · exact hy z hz

theorem sortBy_pairwise (le : α → α → Bool) (total : ∀ x y, le x y = true ∨ le y x = true)
    (trans : ∀ x y z, le x y = true → le y z = true → le x z = true) (l : List α) :
    (sortBy le l).Pairwise (le · ·) := by
  induction l with
  | nil => exact .nil
  | cons x xs ih => exact insertBy_pairwise total trans ih

end Order

section Distinct
variable {same : α → α → Bool} {x y : α} {l : List α}

theorem runsAfter_sublist (same : α → α → Bool) (x : α) (l : List α) :
    (runsAfter same x l).Sublist l := by
  induction l generalizing x with
  | nil => exact .slnil
  | cons y ys ih =>
    simp only [runsAfter]
    split
    · exact (ih x).cons y
    · exact (ih y).cons_cons y

theorem distinctRuns_sublist (same : α → α → Bool) (l : List α) :
    (distinctRuns same l).Sublist l := by
  cases l with
  | nil => exact .slnil
  | cons x xs => exact (runsAfter_sublist same x xs).cons_cons x

theorem exists_mem_runsAfter (h : y ∈ l) :
    ∃ z ∈ x :: runsAfter same x l, z = y ∨ same z y = true := by
  induction l generalizing x with
  | nil => exact nomatch h
  | cons a as ih =>
    simp only [runsAfter]
    split
    · next hxa =>
      rcases List.mem_cons.mp h with rfl | h
      · exact ⟨x, .head _, .inr hxa⟩
      · exact ih h
    · rcases List.mem_cons.mp h with rfl | h
      · exact ⟨y, .tail _ (.head _), .inl rfl⟩
      · obtain ⟨z, hz, hzy⟩ := ih (x := a) h
        exact ⟨z, .tail _ hz, hzy⟩

/-- Of elements that are the `same` the first one is kept. -/
theorem mem_runsAfter_insertBy {le : α → α → Bool} (hle : ∀ x y, same y x = true → le x y = true)
    (h : same y x = false) : x ∈ runsAfter same y (insertBy le x l) := by
  induction l generalizing y with
  | nil => simp [insertBy, runsAfter, h]
  | cons z l ih =>
    simp only [insertBy]
    split
    · simp [runsAfter, h]
    · next hxz =>
      have hzx : same z x = false := Bool.eq_false_iff.mpr fun hsame => hxz (hle x z hsame)
      simp only [runsAfter]
      split
      · exact ih h
      · exact .tail _ (ih hzx)

theorem mem_distinctRuns_insertBy {le : α → α → Bool}
    (hle : ∀ x y, same y x = true → le x y = true) : x ∈ distinctRuns same (insertBy le x l) := by
  cases l with
  | nil => exact .head _
  | cons z l =>
    simp only [insertBy]
    split
    · exact .head _
    · next hxz =>
      have hzx : same z x = false := Bool.eq_false_iff.mpr fun hsame => hxz (hle x z hsame)
      exact .tail _ (mem_runsAfter_insertBy hle hzx)

/-- An element is kept, or another one that it is `same` as. -/
theorem exists_mem_distinctRuns (same : α → α → Bool) (h : y ∈ l) :
    ∃ z ∈ distinctRuns same l, z = y ∨ same z y = true := by
  cases l with
  | nil => exact nomatch h
  | cons x xs =>
    rcases List.mem_cons.mp h with rfl | h
    · exact ⟨y, .head _, .inl rfl⟩
    · exact exists_mem_runsAfter h

@[simp] theorem mem_distinctRuns [BEq α] [LawfulBEq α] :
    x ∈ distinctRuns (· == ·) l ↔ x ∈ l := by
  refine ⟨fun h => (distinctRuns_sublist _ l).subset h, fun h => ?_⟩
  obtain ⟨z, hz, hzx⟩ := exists_mem_distinctRuns (· == ·) h
  rcases hzx with rfl | hzx
  · exact hz
  · exact eq_of_beq hzx ▸ hz

theorem runsAfter_eq_nil_iff [BEq α] [LawfulBEq α] :
    runsAfter (· == ·) x l = [] ↔ ∀ y ∈ l, y = x := by
  induction l with
  | nil => simp [runsAfter]
  | cons y l ih =>
    by_cases hxy : x = y
    · simp [runsAfter, ← hxy, ih]
    · simp [runsAfter, hxy, Ne.symm hxy]

/-- More than one element is kept where not all are equal. -/
theorem one_lt_length_distinctRuns [BEq α] [LawfulBEq α] :
    1 < (distinctRuns (· == ·) l).length ↔ ∃ x ∈ l, ∃ y ∈ l, y ≠ x := by
  cases l with
  | nil => simp [distinctRuns]
  | cons x l =>
    have hkept : 1 < (distinctRuns (· == ·) (x :: l)).length ↔ ¬ ∀ y ∈ l, y = x := by
      rw [← runsAfter_eq_nil_iff, ← ne_eq, ← List.length_pos_iff, distinctRuns, List.length_cons]
      omega
    rw [hkept]
    constructor
    · intro h
      obtain ⟨y, hy, hne⟩ : ∃ y ∈ l, y ≠ x := by simpa using h
      exact ⟨x, .head _, y, .tail _ hy, hne⟩
    · rintro ⟨y, hy, z, hz, hne⟩ hall
      have hsame : ∀ y ∈ x :: l, y = x := by simpa using hall
      exact hne ((hsame z hz).trans (hsame y hy).symm)

/-- On a sorted list, what is not the `same` as its predecessor lies strictly above it. -/
theorem runsAfter_pairwise {le lt : α → α → Prop} (strict : ∀ x y, le x y → same x y = false → lt x y)
    (trans : ∀ x y z, lt x y → le y z → lt x z) (h : (x :: l).Pairwise le) :
    (x :: runsAfter same x l).Pairwise lt := by
  induction l generalizing x with
  | nil => exact List.pairwise_singleton ..
  | cons y ys ih =>
    obtain ⟨hx, hy⟩ := List.pairwise_cons.mp h
    simp only [runsAfter]
    split
    · exact ih (List.pairwise_cons.mpr ⟨fun z hz => hx z (.tail _ hz), hy.of_cons⟩)
    · next hne =>
      refine List.pairwise_cons.mpr ⟨fun z hz => ?_, ih hy⟩
      have hxy : lt x y := strict x y (hx y (.head _)) (Bool.eq_false_iff.mpr hne)
      rcases List.mem_cons.mp hz with rfl | hz
      · exact hxy
      · exact trans x y z hxy (List.rel_of_pairwise_cons hy ((runsAfter_sublist _ y ys).subset hz))

theorem distinctRuns_pairwise {le lt : α → α → Prop}
    (strict : ∀ x y, le x y → same x y = false → lt x y)
    (trans : ∀ x y z, lt x y → le y z → lt x z) (h : l.Pairwise le) :
    (distinctRuns same l).Pairwise lt := by
  cases l with
  | nil => exact .nil
  | cons x xs => exact runsAfter_pairwise strict trans h

end Distinct

section Nat
variable {l : List Nat}

theorem distinctRuns_pairwise_lt (h : l.Pairwise (· ≤ ·)) :
    (distinctRuns (· == ·) l).Pairwise (· < ·) :=
  distinctRuns_pairwise (fun _ _ hle hne => Nat.lt_of_le_of_ne hle (by simpa using hne))
    (fun _ _ _ => Nat.lt_of_lt_of_le) h

theorem sortBy_pairwise_le (l : List Nat) : (sortBy (· ≤ ·) l).Pairwise (· ≤ ·) := by
  have h := sortBy_pairwise (fun x y : Nat => decide (x ≤ y))
    (by intro x y; simpa using Nat.le_total x y)
    (by intro x y z; simpa using Nat.le_trans) l
  simpa using h

end Nat
end Lookahead
