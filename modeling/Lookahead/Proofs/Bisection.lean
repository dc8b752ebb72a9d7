import Lookahead.Bisection

/-! Halving an ascending list finds what is in it.

`Ascending order l` says that no element that lies too high stands before one that does
not, and no two elements are level. -/
namespace Lookahead
variable {α : Type} {order : α → Ordering} {l : List α} {x : α}

/-- Of any two elements the first lies too low or the second too high. -/
def Ascending (order : α → Ordering) (l : List α) : Prop :=
  l.Pairwise fun a b => order a = .lt ∨ order b = .gt

/-- A list with an element in the middle is what is before it and what is from it on. -/
theorem take_append_middle {m : α} (h : l[l.length / 2]? = some m) :
    l = l.take (l.length / 2) ++ m :: l.drop (l.length / 2 + 1) := by
  obtain ⟨hlt, rfl⟩ := List.getElem?_eq_some_iff.mp h
  rw [← List.drop_eq_getElem_cons hlt, List.take_append_drop]

/-- What is level is not thrown away. -/
theorem mem_keptHalf_iff (h : Ascending order l) (hx : order x = .eq) :
    x ∈ keptHalf order l ↔ x ∈ l := by
  refine ⟨mem_of_mem_keptHalf, fun hmem => ?_⟩
  unfold keptHalf
  split
  · next m hm =>
    have hl := take_append_middle hm
    have hsplit : Ascending order (l.take (l.length / 2) ++ m :: l.drop (l.length / 2 + 1)) := by
      rw [← hl]
      exact h
    obtain ⟨_, hright, hacross⟩ := List.pairwise_append.mp hsplit
    rw [hl] at hmem
    split
    · next hgt =>
      have hlow : x ∈ l.take (l.length / 2) := by
        rcases List.mem_append.mp hmem with hlow | hhigh
        · exact hlow
        · rcases List.mem_cons.mp hhigh with rfl | hhigh
          · rw [hx] at hgt
            exact nomatch hgt
          · rcases List.rel_of_pairwise_cons hright hhigh with hlt | hgt'
            · rw [hgt] at hlt
              exact nomatch hlt
            · rw [hx] at hgt'
              exact nomatch hgt'
      exact List.take_subset_take_left l (by omega) hlow
    · next hgt =>
      have hhigh : x ∈ m :: l.drop (l.length / 2 + 1) := by
        rcases List.mem_append.mp hmem with hlow | hhigh
        · rcases hacross x hlow m (List.mem_cons_self ..) with hlt | hgt'
          · rw [hx] at hlt
            exact nomatch hlt
          · exact absurd hgt' hgt
        · exact hhigh
      obtain ⟨hlt, rfl⟩ := List.getElem?_eq_some_iff.mp hm
      rwa [← List.drop_eq_getElem_cons hlt] at hhigh
  · exact hmem

theorem ascending_keptHalf (h : Ascending order l) : Ascending order (keptHalf order l) := by
  unfold keptHalf
  split
  · split
    · exact h.sublist (List.take_sublist _ _)
    · exact h.sublist (List.drop_sublist _ _)
  · exact h

theorem bisectFor_eq_some_iff {fuel : Nat} (h : Ascending order l) (hfuel : l.length ≤ fuel) :
    bisectFor order fuel l = some x ↔ x ∈ l ∧ order x = .eq := by
  induction fuel generalizing l with
  | zero =>
    obtain rfl := List.length_eq_zero_iff.mp (Nat.le_zero.mp hfuel)
    simp [bisectFor]
  | succ fuel ih =>
    match l, h, hfuel with
    | [], _, _ => simp [bisectFor]
    | [y], _, _ =>
      simp only [bisectFor, Option.ite_none_right_eq_some, Option.some.injEq, List.mem_singleton]
      exact ⟨fun ⟨hy, hyx⟩ => ⟨hyx.symm, hyx ▸ hy⟩, fun ⟨hxy, hx⟩ => ⟨hxy ▸ hx, hxy.symm⟩⟩
    | y :: z :: rest, h, hfuel =>
      have hlen : (keptHalf order (y :: z :: rest)).length < (y :: z :: rest).length :=
        length_keptHalf_lt order (by simp)
      rw [bisectFor, ih (ascending_keptHalf h) (by omega)]
      exact and_congr_left fun hx => mem_keptHalf_iff h hx

/-- Whether or not the list ascends, what is found is in it. -/
theorem mem_of_bisect (h : bisect order l = some x) : x ∈ l := by
  have hfor (fuel : Nat) {l : List α} (h : bisectFor order fuel l = some x) : x ∈ l := by
    fun_induction bisectFor order fuel l with
    | case1 | case3 | case4 => exact nomatch h
    | case2 =>
      obtain rfl := Option.some.inj h
      exact .head _
    | case5 fuel y z l ih => exact mem_of_mem_keptHalf (ih h)
  exact hfor _ h

/-- The search in an ascending list finds the element that is level, if there is one. -/
theorem bisect_eq_some_iff (h : Ascending order l) :
    bisect order l = some x ↔ x ∈ l ∧ order x = .eq :=
  bisectFor_eq_some_iff h (Nat.le_refl _)

/-- The search finds what going through the list would find first. -/
theorem bisect_eq_find? (h : Ascending order l) :
    bisect order l = l.find? fun y => order y = .eq := by
  refine Option.ext fun x => ?_
  rw [bisect_eq_some_iff h, List.find?_eq_some_iff_append, decide_eq_true_eq, and_comm]
  refine and_congr_right fun hx => ⟨fun hmem => ?_, ?_⟩
  · obtain ⟨before, after, rfl⟩ := List.append_of_mem hmem
    refine ⟨before, after, rfl, fun y hy => ?_⟩
    have := (List.pairwise_append.mp h).2.2 y hy x (.head _)
    simp_all
  · rintro ⟨before, after, rfl, _⟩
    simp

end Lookahead
