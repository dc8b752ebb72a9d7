import Lookahead.Proofs.Closure.Moves
import Mathlib.Algebra.BigOperators.Group.Finset.Basic
import Mathlib.Algebra.Order.BigOperators.Group.Finset
import Mathlib.Algebra.Order.BigOperators.Group.List
import Mathlib.Data.Finset.NAry
import Mathlib.Data.Finset.Prod

/-! How many ways a closure can reach.

The recursion limit bounds how often a node is on a stack, and so how long a stack gets.
There are finitely many stacks of a bounded length, and with them finitely many ways.
`bound` allows for all of them, so the closure of any ways is exact or fails. -/
namespace Lookahead.Way
variable {label : Type}

/-! ### Stacks of bounded length -/

/-- The stacks of up to `length` nodes below `size`. -/
def stacksUpTo (size : Nat) : (length : Nat) → Finset (List Nat)
  | 0 => {[]}
  | length + 1 => insert [] (Finset.image₂ List.cons (Finset.range size) (stacksUpTo size length))

theorem mem_stacksUpTo {size length : Nat} {stack : List Nat} (hlength : stack.length ≤ length)
    (hsize : ∀ m ∈ stack, m < size) : stack ∈ stacksUpTo size length := by
  induction length generalizing stack with
  | zero => exact Finset.mem_singleton.mpr (List.eq_nil_of_length_eq_zero (Nat.le_zero.mp hlength))
  | succ length ih =>
    cases stack with
    | nil => exact Finset.mem_insert_self _ _
    | cons m stack =>
      refine Finset.mem_insert_of_mem (Finset.mem_image₂_of_mem ?_ ?_)
      · exact Finset.mem_range.mpr (hsize m (.head _))
      · exact ih (Nat.le_of_succ_le_succ hlength) fun n hn => hsize n (.tail _ hn)

theorem card_stacksUpTo_le (size length : Nat) :
    (stacksUpTo size length).card ≤ (size + 1) ^ length := by
  induction length with
  | zero => exact Nat.le_refl _
  | succ length ih =>
    calc (stacksUpTo size (length + 1)).card
        ≤ (Finset.image₂ List.cons (Finset.range size) (stacksUpTo size length)).card + 1 :=
          Finset.card_insert_le _ _
      _ ≤ size * (stacksUpTo size length).card + 1 := by
          have := Finset.card_image₂_le List.cons (Finset.range size) (stacksUpTo size length)
          rw [Finset.card_range] at this
          omega
      _ ≤ size * (size + 1) ^ length + (size + 1) ^ length :=
          Nat.add_le_add (Nat.mul_le_mul_left _ ih) (Nat.pow_pos (Nat.succ_pos _))
      _ = (size + 1) ^ (length + 1) := by rw [Nat.pow_succ, Nat.mul_comm, Nat.mul_succ]

/-- A stack that holds each of `size` nodes a few times is not long. -/
theorem length_le_of_count_le {size times : Nat} {stack : List Nat}
    (hsize : ∀ m ∈ stack, m < size) (hcount : ∀ m, stack.count m ≤ times) :
    stack.length ≤ size * times := by
  have hsubset : stack.toFinset ⊆ Finset.range size := fun m hm =>
    Finset.mem_range.mpr (hsize m (List.mem_toFinset.mp hm))
  calc stack.length
      = ∑ m ∈ stack.toFinset, stack.count m := (List.sum_toFinset_count_eq_length stack).symm
    _ ≤ stack.toFinset.card • times := Finset.sum_le_card_nsmul _ _ _ fun m _ => hcount m
    _ ≤ size * times := by
        have := Finset.card_le_card hsubset
        rw [Finset.card_range] at this
        exact Nat.mul_le_mul_right _ this

/-! ### Ways -/

/-- What holds of every way that a closure reaches, where `times` bounds how often a node
is on a stack. -/
structure Confined (t : Terrain) (alts : Finset Nat) (times : Nat) (labels : Finset label)
    (w : Way label) : Prop where
  alt : w.alt ∈ alts
  inside : w.position.Inside t.network
  count : ∀ m, w.stack.count m ≤ times
  label : w.label ∈ labels

variable {t : Terrain} {pass : PredicateId → label → Option label} {alts : Finset Nat}
  {times : Nat} {labels : Finset label} {w w' : Way label}

/-- Passing a predicate of a network leads from one of `labels` to another one. -/
def KeepsIn (pass : PredicateId → label → Option label) (predicateCount : Nat)
    (labels : Finset label) : Prop :=
  ∀ id l l', id < predicateCount → l ∈ labels → pass id l = some l' → l' ∈ labels

/-- A move puts a node on the stack only below the recursion limit. -/
theorem count_le_of_found (h : Found (moves t pass) w w') (m : NodeId) :
    w'.stack.count m ≤ max t.maxRecursionDepth (w.stack.count m) := by
  obtain ⟨ways, hways, hw⟩ := h
  rcases moves_cases hways with ⟨rule, follow, stack, _, hstack, rfl⟩ | ⟨_, _, _, rfl⟩ | ⟨_, hall⟩
  · obtain rfl := List.mem_singleton.mp hw
    rw [hstack]
    exact Nat.le_trans (List.count_le_count_cons ..) (Nat.le_max_right _ _)
  · obtain ⟨follow, _, rfl⟩ := List.mem_map.mp hw
    exact Nat.le_max_right _ _
  · obtain ⟨e, _, found, hfound, hw⟩ := (mem_alongAll hall).mp hw
    rcases along_cases hfound hw with ⟨_, _, rfl⟩ | ⟨_, _, _, _, _, rfl⟩ | ⟨_, follow, _, hd, rfl⟩
    · exact Nat.le_max_right _ _
    · exact Nat.le_max_right _ _
    · show (follow :: w.stack).count m ≤ _
      rw [List.count_cons]
      split
      · next heq =>
        obtain rfl := eq_of_beq heq
        exact Nat.le_trans hd (Nat.le_max_left _ _)
      · exact Nat.le_max_right _ _

/-- A move keeps the label of a way among those that passing predicates leads to. -/
theorem KeepsIn.found {predicateCount : Nat} (keeps : KeepsIn pass predicateCount labels)
    (closed : t.network.Closed predicateCount) (respects : Respects t pass)
    (hw : w.label ∈ labels) (h : Found (moves t pass) w w') : w'.label ∈ labels := by
  obtain ⟨_, ps, hmove, hsymbols, hcarry⟩ := leads_of_found respects h
  obtain ⟨alt, node, stack, l⟩ := w
  obtain ⟨alt', node', stack', l'⟩ := w'
  simp only [position] at hmove hcarry
  cases hmove with
  | symbol => cases hsymbols
  | predicate he _ =>
    obtain ⟨l'', hl, hl'⟩ := Option.bind_eq_some_iff.mp hcarry
    obtain rfl := Option.some.inj hl'
    exact keeps _ _ _ (closed.predicate _ _ _ he) hw hl
  | _ =>
    obtain rfl := Option.some.inj hcarry
    exact hw

theorem Confined.found {predicateCount : Nat} (closed : t.network.Closed predicateCount)
    (respects : Respects t pass) (keeps : KeepsIn pass predicateCount labels)
    (hlimit : t.maxRecursionDepth ≤ times) (hw : Confined t alts times labels w)
    (h : Found (moves t pass) w w') : Confined t alts times labels w' := by
  obtain ⟨halt, ps, hmove, _⟩ := leads_of_found respects h
  refine ⟨halt ▸ hw.alt, hw.inside.move closed hmove, fun m => ?_,
    keeps.found closed respects hw.label h⟩
  exact Nat.le_trans (count_le_of_found h m) (Nat.max_le.mpr ⟨hlimit, hw.count m⟩)

/-- All ways that are confined. -/
def places [DecidableEq label] (t : Terrain) (alts : Finset Nat) (times : Nat)
    (labels : Finset label) : Finset (Way label) :=
  ((alts ×ˢ Finset.range t.network.size) ×ˢ
    stacksUpTo t.network.size (t.network.size * times) ×ˢ labels).image
    fun x => ⟨x.1.1, x.1.2, x.2.1, x.2.2⟩

theorem Confined.mem_places [DecidableEq label] (h : Confined t alts times labels w) :
    w ∈ places t alts times labels := by
  refine Finset.mem_image.mpr ⟨((w.alt, w.node), (w.stack, w.label)), ?_, rfl⟩
  simp only [Finset.mem_product]
  refine ⟨⟨h.alt, Finset.mem_range.mpr h.inside.1⟩, mem_stacksUpTo ?_ h.inside.2, h.label⟩
  exact length_le_of_count_le h.inside.2 h.count

theorem card_places_le [DecidableEq label] (t : Terrain) (alts : Finset Nat) (times : Nat)
    (labels : Finset label) :
    (places t alts times labels).card ≤
      alts.card * t.network.size *
        ((t.network.size + 1) ^ (t.network.size * times) * labels.card) := by
  refine Nat.le_trans Finset.card_image_le ?_
  rw [Finset.card_product, Finset.card_product, Finset.card_product, Finset.card_range]
  exact Nat.mul_le_mul_left _ (Nat.mul_le_mul_right _ (card_stacksUpTo_le _ _))

end Lookahead.Way
