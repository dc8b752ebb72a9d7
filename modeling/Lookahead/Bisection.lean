/-! Searching an ascending list by halving it.

`order` says on which side of what is searched for an element lies. The element in
the middle tells which half to keep, until one element is left. On a list that does
not ascend the search may miss what is there. -/
namespace Lookahead

/-- The half of a list that is searched further: the one from the middle on, unless
the element in the middle lies too high. -/
def keptHalf (order : α → Ordering) (l : List α) : List α :=
  match l[l.length / 2]? with
  | some middle =>
    if order middle = .gt then l.take (l.length - l.length / 2) else l.drop (l.length / 2)
  | none => l

/-- Halves a list up to `fuel` times; its length is more than enough. -/
def bisectFor (order : α → Ordering) : (fuel : Nat) → List α → Option α
  | _, [] => none
  | _, [x] => if order x = .eq then some x else none
  | 0, _ => none
  | fuel + 1, x :: y :: l => bisectFor order fuel (keptHalf order (x :: y :: l))

/-- The element of an ascending list that is searched for. -/
def bisect (order : α → Ordering) (l : List α) : Option α := bisectFor order l.length l

theorem length_keptHalf_lt (order : α → Ordering) {l : List α} (h : 2 ≤ l.length) :
    (keptHalf order l).length < l.length := by
  unfold keptHalf
  split
  · split
    · simp only [List.length_take]; omega
    · simp only [List.length_drop]; omega
  · next hnone =>
    have := List.getElem?_eq_none_iff.mp hnone
    omega

theorem mem_of_mem_keptHalf {order : α → Ordering} {l : List α} {x : α}
    (h : x ∈ keptHalf order l) : x ∈ l := by
  unfold keptHalf at h
  split at h
  · split at h
    · exact List.mem_of_mem_take h
    · exact List.mem_of_mem_drop h
  · exact h

end Lookahead
