import Lookahead.Suggestion
import Lookahead.Proofs.EditDistance
import Mathlib.Algebra.Order.Field.Basic
import Mathlib.Data.Rat.Cast.Order
import Mathlib.Tactic.NormNum

/-! A suggestion is the last of the nearest names that can be meant.

`editedPart` is the exact quotient that gaps are compared by without a division. The scan keeps
the answer for the candidates that it has seen (`Offers`): a candidate that is as near takes the
place of the one before it, one that is farther or cannot be meant changes nothing. There is only
one such answer (`Offers.unique`), so the scan finds a name exactly where there is one to offer. -/
namespace Lookahead.Suggestion
open EditDistance
variable {name c d : String} {candidates earlier later : List String} {answer : Option String}

/-! ### Gaps as quotients -/

/-- The part of the longer of two names that has to be edited to turn one into the other, in
lower case. -/
def editedPart (name c : String) : ℚ :=
  let a := Text.lowercase name.toList
  let b := Text.lowercase c.toList
  distance a b / (max a.length b.length : ℕ)

/-- The gap that a candidate is judged by. -/
def gapTo (name c : String) : Gap :=
  Gap.between (Text.lowercase name.toList) (Text.lowercase c.toList)

theorem length_gapTo_pos (name c : String) : (0 : ℚ) < (gapTo name c).length := by
  exact_mod_cast Nat.le_max_left ..

/-- That the length is never taken to be zero makes no difference: between two empty names there
is nothing to edit. -/
theorem editedPart_eq (name c : String) :
    editedPart name c = (gapTo name c).edits / (gapTo name c).length := by
  unfold editedPart gapTo Gap.between
  generalize Text.lowercase name.toList = a
  generalize Text.lowercase c.toList = b
  rcases Nat.eq_zero_or_pos (max a.length b.length) with hzero | hpos
  · have hedits : distance a b = 0 := by
      rw [distance_eq_fewest]
      exact Nat.le_zero.mp (hzero ▸ fewest_le_max a b)
    simp [hedits]
  · rw [Nat.max_eq_right hpos]

theorem isSmall_gapTo_iff (name c : String) :
    (gapTo name c).isSmall = true ↔ editedPart name c ≤ 2 / 5 := by
  rw [editedPart_eq, div_le_div_iff₀ (length_gapTo_pos name c) (by norm_num), Gap.isSmall,
    decide_eq_true_iff, mul_comm 5]
  exact_mod_cast Iff.rfl

theorem le_gapTo_iff (name c d : String) :
    (gapTo name c).le (gapTo name d) = true ↔ editedPart name c ≤ editedPart name d := by
  rw [editedPart_eq, editedPart_eq, div_le_div_iff₀ (length_gapTo_pos name c)
    (length_gapTo_pos name d), Gap.le, decide_eq_true_iff]
  exact_mod_cast Iff.rfl

/-! ### The name that is offered -/

/-- Between the earlier and the later candidates, `c` can be meant by `name`; no candidate is
nearer, and no later one as near. -/
structure Nearest (name : String) (earlier : List String) (c : String) (later : List String) :
    Prop where
  ne : c ≠ name
  small : editedPart name c ≤ 2 / 5
  earlier_le : ∀ d ∈ earlier, d ≠ name → editedPart name c ≤ editedPart name d
  later_lt : ∀ d ∈ later, d ≠ name → editedPart name c < editedPart name d

/-- What the answer to a list of candidates has to be. -/
def Offers (name : String) (candidates : List String) : Option String → Prop
  | none => ∀ d ∈ candidates, d ≠ name → 2 / 5 < editedPart name d
  | some c => ∃ earlier later, candidates = earlier ++ c :: later ∧ Nearest name earlier c later

theorem Nearest.le (h : Nearest name earlier c later) (hmem : d ∈ earlier ++ c :: later)
    (hne : d ≠ name) : editedPart name c ≤ editedPart name d := by
  rcases List.mem_append.mp hmem with hearlier | hrest
  · exact h.earlier_le d hearlier hne
  · rcases List.mem_cons.mp hrest with rfl | hlater
    · exact le_rfl
    · exact (h.later_lt d hlater hne).le

/-- Of two candidates that are equally near, neither can come later than the other. -/
theorem Nearest.unique {earlier' later' : List String} (h : Nearest name earlier c later)
    (h' : Nearest name earlier' d later') (hsplit : earlier ++ c :: later = earlier' ++ d :: later') :
    c = d := by
  have hle : editedPart name c ≤ editedPart name d := h.le (hsplit ▸ by simp) h'.ne
  have hge : editedPart name d ≤ editedPart name c := h'.le (hsplit ▸ by simp) h.ne
  rcases List.append_eq_append_iff.mp hsplit with ⟨between, rfl, hrest⟩ | ⟨between, rfl, hrest⟩
  · cases between with
    | nil => exact (List.cons.inj hrest).1
    | cons e between =>
      obtain ⟨rfl, rfl⟩ := List.cons.inj hrest
      exact absurd hge (h.later_lt d (by simp) h'.ne).not_ge
  · cases between with
    | nil => exact (List.cons.inj hrest).1.symm
    | cons e between =>
      obtain ⟨rfl, rfl⟩ := List.cons.inj hrest
      exact absurd hle (h'.later_lt c (by simp) h.ne).not_ge

/-- A candidate that is farther, or cannot be meant, leaves the answer as it is. -/
theorem Offers.skip (h : Offers name candidates answer)
    (hskip : d ≠ name → 2 / 5 < editedPart name d ∨
      ∃ c ∈ answer, editedPart name c < editedPart name d) :
    Offers name (candidates ++ [d]) answer := by
  cases answer with
  | none =>
    intro e he hne
    rcases List.mem_append.mp he with hold | hnew
    · exact h e hold hne
    · obtain rfl := List.mem_singleton.mp hnew
      simpa using hskip hne
  | some c =>
    obtain ⟨earlier, later, rfl, hnearest⟩ := h
    refine ⟨earlier, later ++ [d], by simp, { hnearest with later_lt := fun e he hne => ?_ }⟩
    rcases List.mem_append.mp he with hold | hnew
    · exact hnearest.later_lt e hold hne
    · obtain rfl := List.mem_singleton.mp hnew
      rcases hskip hne with hfar | ⟨b, hb, hlt⟩
      · exact hnearest.small.trans_lt hfar
      · exact Option.mem_some.mp hb ▸ hlt

/-- A candidate that can be meant and is as near as the answer becomes the answer. -/
theorem Offers.replace (h : Offers name candidates answer) (hne : d ≠ name)
    (hsmall : editedPart name d ≤ 2 / 5)
    (hnear : ∀ c ∈ answer, editedPart name d ≤ editedPart name c) :
    Offers name (candidates ++ [d]) (some d) := by
  refine ⟨candidates, [], rfl, hne, hsmall, fun e he hene => ?_, by simp⟩
  cases answer with
  | none => exact hsmall.trans (h e he hene).le
  | some c =>
    obtain ⟨earlier, later, rfl, hnearest⟩ := h
    exact (hnear c rfl).trans (hnearest.le he hene)

theorem Offers.unique {other : Option String} (h : Offers name candidates answer)
    (hother : Offers name candidates other) : answer = other := by
  cases answer with
  | none =>
    cases other with
    | none => rfl
    | some c =>
      obtain ⟨earlier, later, rfl, hnearest⟩ := hother
      exact absurd hnearest.small (h c (by simp) hnearest.ne).not_ge
  | some c =>
    obtain ⟨earlier, later, rfl, hnearest⟩ := h
    cases other with
    | none => exact absurd hnearest.small (hother c (by simp) hnearest.ne).not_ge
    | some b =>
      obtain ⟨earlier', later', hsplit, hnearest'⟩ := hother
      exact congrArg some (hnearest.unique hnearest' hsplit)

/-! ### The scan -/

/-- The candidates that can be meant, with their gaps. -/
def meant (name : String) (candidates : List String) : List (String × Gap) :=
  ((candidates.filter (· ≠ name)).map fun c => (c, gapTo name c)).filter (·.2.isSmall)

theorem meant_concat_of_skip (hskip : d ≠ name → 2 / 5 < editedPart name d) :
    meant name (candidates ++ [d]) = meant name candidates := by
  by_cases hne : d = name
  · simp [meant, hne]
  · have hfar : (gapTo name d).isSmall = false := by
      rw [← Bool.not_eq_true, isSmall_gapTo_iff]
      exact (hskip hne).not_ge
    simp [meant, hfar]

theorem meant_concat (hne : d ≠ name) (hsmall : editedPart name d ≤ 2 / 5) :
    meant name (candidates ++ [d]) = meant name candidates ++ [(d, gapTo name d)] := by
  simp [meant, hne, (isSmall_gapTo_iff name d).mpr hsmall]

/-- Of two candidates the scan keeps the nearer one, or else the later. -/
theorem nearer_gapTo (name c d : String) :
    nearer (some (c, gapTo name c)) (d, gapTo name d) =
      if editedPart name d ≤ editedPart name c then some (d, gapTo name d)
      else some (c, gapTo name c) := by
  simp only [nearer, le_gapTo_iff]

/-- The scan comes to a name with the gap that it is judged by, and has to offer it. -/
theorem exists_offers (name : String) (candidates : List String) :
    ∃ answer, Offers name candidates answer ∧
      (meant name candidates).foldl nearer none = answer.map fun c => (c, gapTo name c) := by
  induction candidates using List.reverseRecOn with
  | nil => exact ⟨none, by simp [Offers], rfl⟩
  | append_singleton candidates d ih =>
    obtain ⟨answer, hoffers, hscan⟩ := ih
    by_cases hmeant : d ≠ name ∧ editedPart name d ≤ 2 / 5
    · rw [meant_concat hmeant.1 hmeant.2, List.foldl_append, hscan, List.foldl_cons,
        List.foldl_nil]
      cases answer with
      | none => exact ⟨some d, hoffers.replace hmeant.1 hmeant.2 (by simp), rfl⟩
      | some c =>
        rw [Option.map_some, nearer_gapTo]
        by_cases hle : editedPart name d ≤ editedPart name c
        · exact ⟨some d, hoffers.replace hmeant.1 hmeant.2 (by simpa using hle), if_pos hle⟩
        · exact ⟨some c, hoffers.skip fun _ => .inr ⟨c, rfl, not_le.mp hle⟩, if_neg hle⟩
    · have hskip : d ≠ name → 2 / 5 < editedPart name d :=
        fun hne => not_le.mp fun hsmall => hmeant ⟨hne, hsmall⟩
      rw [meant_concat_of_skip hskip]
      exact ⟨answer, hoffers.skip fun hne => .inl (hskip hne), hscan⟩

theorem closest?_eq_iff : closest? name candidates = answer ↔ Offers name candidates answer := by
  have hoffers : Offers name candidates (closest? name candidates) := by
    obtain ⟨found, hfound, hscan⟩ := exists_offers name candidates
    have hclosest : closest? name candidates = ((meant name candidates).foldl nearer none).map
      (·.1) := rfl
    rw [hclosest, hscan, Option.map_map]
    simpa [Function.comp_def] using hfound
  exact ⟨fun h => h ▸ hoffers, fun h => hoffers.unique h⟩

/-- The table gives the least number of insertions, deletions and substitutions, which is at most
the longer length, zero only for equal lists and the same in both directions. By it, a suggestion
is another name of which the least part has to be edited, two fifths at most, and of several the
last; there is none only where every other name has to be edited further. -/
theorem suggestion_by_fewest_edits (as bs : List Char) (name : String)
    (candidates : List String) :
    (IsLeast {n | Edits n as bs} (distance as bs) ∧
      distance as bs ≤ max as.length bs.length ∧
      (distance as bs = 0 ↔ as = bs) ∧ distance as bs = distance bs as) ∧
    (∀ c, closest? name candidates = some c ↔
      ∃ earlier later, candidates = earlier ++ c :: later ∧ Nearest name earlier c later) ∧
    (closest? name candidates = none ↔
      ∀ d ∈ candidates, d ≠ name → 2 / 5 < editedPart name d) := by
  refine ⟨?_, fun c => closest?_eq_iff, closest?_eq_iff⟩
  simp only [distance_eq_fewest]
  exact ⟨isLeast_fewest as bs, fewest_le_max as bs, fewest_eq_zero_iff, fewest_comm as bs⟩

example : closest? "rule" ["Ruler", "rules", "rule", "term"] = some "rules" := by decide

end Lookahead.Suggestion
