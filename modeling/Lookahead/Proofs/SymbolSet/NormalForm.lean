import Lookahead.Proofs.Sorting
import Lookahead.Proofs.SymbolSet.Membership
import Mathlib.Data.List.Sort

/-! Sets of symbols in normal form.

`Normal` says what the ranges of a set owe each other. Merging sorted ranges brings about
the normal form and loses no symbol (`normal_ofRanges`, `mem_ofRanges`), so every set that
the operations build is in normal form. A range of such a set is a stretch of its symbols
that cannot be made longer (`Normal.stretch_iff`). So sets in normal form with the same
symbols are equal (`Normal.eq_iff`), and a union does not depend on how it is put together. -/
namespace Lookahead

namespace SymbolRange
variable {r t : SymbolRange} {x : Symbol}

/-- What starts at the symbol after `r` or lower down is joined with it. There need not be a
symbol after it, but nothing starts higher up then. -/
theorem le_next_iff : x ≤ r.next ↔ x.toNat ≤ r.hi.toNat + 1 := by
  have hx := x.toNat_lt
  have hr := r.hi.toNat_lt
  rw [UInt32.le_iff_toNat_le, next]
  by_cases htop : r.hi = 0xFFFFFFFF
  · rw [if_pos htop, htop]
    show x.toNat ≤ 4294967295 ↔ x.toNat ≤ 4294967295 + 1
    omega
  · have hlt : r.hi.toNat ≠ 4294967295 := fun h => htop (UInt32.toNat_inj.mp h)
    have hone : (1 : Symbol).toNat = 1 := rfl
    rw [if_neg htop, UInt32.toNat_add, hone, Nat.mod_eq_of_lt (by omega)]

theorem toNat_max (a b : Symbol) : (max a b).toNat = max a.toNat b.toNat := by
  show (if a ≤ b then b else a).toNat = _
  rw [Nat.max_def]
  simp only [UInt32.le_iff_toNat_le]
  split <;> rfl

/-- Ranges that overlap or touch have the symbols of one range. -/
theorem mem_joined (hrt : r.lo ≤ t.lo) (htouch : t.lo ≤ r.next) :
    x ∈ (⟨r.lo, max r.hi t.hi⟩ : SymbolRange) ↔ x ∈ r ∨ x ∈ t := by
  rw [le_next_iff] at htouch
  rw [UInt32.le_iff_toNat_le] at hrt
  simp only [mem_iff, toNat_max]
  omega

instance : Std.TransCmp SymbolRange.compare :=
  inferInstanceAs (Std.TransCmp (compareLex (compareOn lo) (compareOn hi)))

theorem lo_le_of_isLE (h : (r.compare t).isLE = true) : r.lo ≤ t.lo :=
  Std.isLE_compare.mp (Ordering.isLE_left_of_isLE_then h)

end SymbolRange

namespace SymbolSet
variable {s t u : SymbolSet} {r v w : SymbolRange} {l : List SymbolRange} {x : Symbol}

/-- No range is empty, the ranges ascend, and between two of them a symbol is missing. -/
structure Normal (s : SymbolSet) : Prop where
  proper : ∀ r ∈ s.ranges, r.lo ≤ r.hi
  separated : s.ranges.Pairwise fun r t => r.hi.toNat + 1 < t.lo.toNat

/-! ### Merging -/

/-- Ranges as they are merged: none is empty, and none starts below one before it. -/
structure Mergeable (l : List SymbolRange) : Prop where
  proper : ∀ r ∈ l, r.lo ≤ r.hi
  ascending : l.Pairwise fun r t => r.lo ≤ t.lo

theorem Mergeable.tail (h : Mergeable (r :: l)) : Mergeable l :=
  ⟨fun t ht => h.proper t (.tail _ ht), h.ascending.of_cons⟩

theorem Mergeable.join (h : Mergeable (r :: v :: l)) :
    Mergeable (⟨r.lo, max r.hi v.hi⟩ :: l) := by
  have hlower : ∀ t ∈ v :: l, r.lo ≤ t.lo := fun t ht => List.rel_of_pairwise_cons h.ascending ht
  refine ⟨fun t ht => ?_,
    List.pairwise_cons.mpr ⟨fun t ht => hlower t (.tail _ ht), h.tail.tail.ascending⟩⟩
  rcases List.mem_cons.mp ht with rfl | ht
  · have hr := h.proper r (.head _)
    rw [UInt32.le_iff_toNat_le] at hr ⊢
    simp only [SymbolRange.toNat_max]
    omega
  · exact h.tail.tail.proper t ht

/-- Merging keeps the symbols of the ranges. -/
theorem mem_mergeInto (h : Mergeable (r :: l)) :
    (∃ t ∈ mergeInto r l, x ∈ t) ↔ ∃ t ∈ r :: l, x ∈ t := by
  fun_induction mergeInto r l with
  | case1 r => exact Iff.rfl
  | case2 r v rest htouch ih =>
    have hjoined := SymbolRange.mem_joined (x := x)
      (List.rel_of_pairwise_cons h.ascending (.head _)) htouch
    rw [ih h.join]
    simp only [List.exists_mem_cons_iff, hjoined, or_assoc]
  | case3 r v rest _ ih =>
    simp only [List.exists_mem_cons_iff, ih h.tail]

/-- What is merged starts no lower than before, and is in normal form: a range that is left
alone ends more than one symbol below the next one. -/
theorem normal_mergeInto (h : Mergeable (r :: l)) :
    (∀ t ∈ mergeInto r l, r.lo ≤ t.lo) ∧ Normal ⟨mergeInto r l⟩ := by
  fun_induction mergeInto r l with
  | case1 r => exact ⟨by simp, h.proper, List.pairwise_singleton ..⟩
  | case2 r v rest _ ih => exact ih h.join
  | case3 r v rest hgap ih =>
    obtain ⟨hlower, hnormal⟩ := ih h.tail
    have hrv : r.lo ≤ v.lo := List.rel_of_pairwise_cons h.ascending (.head _)
    have hapart : ∀ t ∈ mergeInto v rest, r.hi.toNat + 1 < t.lo.toNat := by
      intro t ht
      have hvt := UInt32.le_iff_toNat_le.mp (hlower t ht)
      rw [SymbolRange.le_next_iff] at hgap
      omega
    refine ⟨List.forall_mem_cons.mpr ⟨UInt32.le_refl _, fun t ht => ?_⟩,
      List.forall_mem_cons.mpr ⟨h.proper r (.head _), hnormal.proper⟩,
      List.pairwise_cons.mpr ⟨hapart, hnormal.separated⟩⟩
    exact UInt32.le_trans hrv (hlower t ht)

theorem mem_merge (h : Mergeable l) : (∃ t ∈ merge l, x ∈ t) ↔ ∃ t ∈ l, x ∈ t := by
  cases l with
  | nil => exact Iff.rfl
  | cons r l => exact mem_mergeInto h

theorem normal_merge (h : Mergeable l) : Normal ⟨merge l⟩ := by
  cases l with
  | nil => exact ⟨nofun, .nil⟩
  | cons r l => exact (normal_mergeInto h).2

variable {bounds : List (Symbol × Symbol)}

/-- The ranges between any bounds are ready for merging once they are sorted. -/
theorem mergeable_sortBy (bounds : List (Symbol × Symbol)) :
    Mergeable (sortBy (fun r t => (r.compare t).isLE)
      (bounds.map fun b => SymbolRange.between b.1 b.2)) := by
  constructor
  · intro r hr
    obtain ⟨b, _, rfl⟩ := List.mem_map.mp (mem_sortBy.mp hr)
    exact SymbolRange.between_proper b.1 b.2
  · refine List.Pairwise.imp SymbolRange.lo_le_of_isLE
      (sortBy_pairwise _ (fun r t => ?_) (fun _ _ _ => Std.TransCmp.isLE_trans) _)
    rw [← Std.OrientedCmp.isGE_iff_isLE (a := t)]
    cases t.compare r <;> decide

theorem normal_ofRanges (bounds : List (Symbol × Symbol)) : (ofRanges bounds).Normal :=
  normal_merge (mergeable_sortBy bounds)

theorem mem_ofRanges :
    x ∈ ofRanges bounds ↔ ∃ b ∈ bounds, b.1 ≤ x ∧ x ≤ b.2 ∨ b.2 ≤ x ∧ x ≤ b.1 := by
  rw [mem_iff, ofRanges, mem_merge (mergeable_sortBy bounds)]
  simp only [mem_sortBy, List.mem_map, exists_exists_and_eq_and, SymbolRange.mem_between]

/-! ### One normal form for each set of symbols -/

/-- `r` lies in the set and cannot be made longer there: the set has no symbol next to it. -/
structure Stretch (s : SymbolSet) (r : SymbolRange) : Prop where
  proper : r.lo ≤ r.hi
  inside : ∀ x ∈ r, x ∈ s
  closed : ∀ x ∈ s, r.lo.toNat ≤ x.toNat + 1 → x.toNat ≤ r.hi.toNat + 1 → x ∈ r

theorem exists_symbol {n : Nat} (h : n ≤ x.toNat) : ∃ y : Symbol, y.toNat = n :=
  ⟨UInt32.ofNat n, UInt32.toNat_ofNat_of_lt' (Nat.lt_of_le_of_lt h x.toNat_lt_size)⟩

namespace Stretch

/-- A range in the set that meets a stretch does not end above it: the symbol after the
stretch would be in the range, and so in the set. -/
theorem hi_le (hr : Stretch s r) (hv : ∀ y ∈ v, y ∈ s) (hx : x ∈ r) (hxv : x ∈ v) :
    v.hi ≤ r.hi := by
  rw [UInt32.le_iff_toNat_le]
  by_contra hlt
  rw [SymbolRange.mem_iff] at hx hxv
  obtain ⟨y, hy⟩ := exists_symbol (x := v.hi) (n := r.hi.toNat + 1) (by omega)
  have hys : y ∈ s := hv y (SymbolRange.mem_iff.mpr (by omega))
  have hyr := SymbolRange.mem_iff.mp (hr.closed y hys (by omega) (by omega))
  omega

theorem lo_le (hr : Stretch s r) (hv : ∀ y ∈ v, y ∈ s) (hx : x ∈ r) (hxv : x ∈ v) :
    r.lo ≤ v.lo := by
  rw [UInt32.le_iff_toNat_le]
  by_contra hlt
  rw [SymbolRange.mem_iff] at hx hxv
  obtain ⟨y, hy⟩ := exists_symbol (x := r.lo) (n := r.lo.toNat - 1) (by omega)
  have hys : y ∈ s := hv y (SymbolRange.mem_iff.mpr (by omega))
  have hyr := SymbolRange.mem_iff.mp (hr.closed y hys (by omega) (by omega))
  omega

theorem eq_of_mem (hr : Stretch s r) (hv : Stretch s v) (hx : x ∈ r) (hxv : x ∈ v) : r = v := by
  have hlo : r.lo = v.lo :=
    UInt32.le_antisymm (hr.lo_le hv.inside hx hxv) (hv.lo_le hr.inside hxv hx)
  have hhi : r.hi = v.hi :=
    UInt32.le_antisymm (hv.hi_le hr.inside hxv hx) (hr.hi_le hv.inside hx hxv)
  cases r
  cases v
  simp only at hlo hhi
  rw [hlo, hhi]

end Stretch

namespace Normal

/-- Of two ranges one lies below the other, with a symbol between them. -/
theorem apart (hs : s.Normal) (hr : r ∈ s.ranges) (hv : v ∈ s.ranges) (hne : r ≠ v) :
    r.hi.toNat + 1 < v.lo.toNat ∨ v.hi.toNat + 1 < r.lo.toNat :=
  rel_or_rel_of_pairwise hs.separated hr hv hne

/-- The ranges are the stretches of the set. -/
theorem stretch_iff (hs : s.Normal) : Stretch s r ↔ r ∈ s.ranges := by
  have hstretch : ∀ v ∈ s.ranges, Stretch s v := by
    refine fun v hv => ⟨hs.proper v hv, fun x hx => ⟨v, hv, hx⟩, ?_⟩
    rintro x ⟨w, hw, hx⟩ hlo hhi
    by_cases hvw : v = w
    · exact hvw ▸ hx
    · rw [SymbolRange.mem_iff] at hx
      have := hs.apart hv hw hvw
      omega
  refine ⟨fun hr => ?_, hstretch r⟩
  have hlo : r.lo ∈ r := ⟨UInt32.le_refl _, hr.proper⟩
  obtain ⟨v, hv, hlov⟩ := hr.inside r.lo hlo
  exact hr.eq_of_mem (hstretch v hv) hlo hlov ▸ hv

theorem ascending (hs : s.Normal) : s.ranges.Pairwise fun r t => r.lo.toNat < t.lo.toNat := by
  refine hs.separated.imp_of_mem fun hr _ hlt => ?_
  have := UInt32.le_iff_toNat_le.mp (hs.proper _ hr)
  omega

/-- Sets in normal form are equal where they have the same symbols. -/
theorem eq_iff (hs : s.Normal) (ht : t.Normal) : s = t ↔ ∀ x, x ∈ s ↔ x ∈ t := by
  refine ⟨fun heq _ => heq ▸ Iff.rfl, fun hmem => ?_⟩
  have hranges (r : SymbolRange) : r ∈ s.ranges ↔ r ∈ t.ranges := by
    rw [← hs.stretch_iff, ← ht.stretch_iff]
    -- Whether a range is a stretch depends only on which symbols there are.
    constructor
    · exact fun h => ⟨h.proper, fun x hx => (hmem x).mp (h.inside x hx),
        fun x hx => h.closed x ((hmem x).mpr hx)⟩
    · exact fun h => ⟨h.proper, fun x hx => (hmem x).mpr (h.inside x hx),
        fun x hx => h.closed x ((hmem x).mp hx)⟩
  have : Std.Irrefl fun r v : SymbolRange => r.lo.toNat < v.lo.toNat := ⟨fun _ => Nat.lt_irrefl _⟩
  have : Std.Antisymm fun r v : SymbolRange => r.lo.toNat < v.lo.toNat :=
    ⟨fun _ _ hrv hvr => absurd hvr (Nat.lt_asymm hrv)⟩
  have heq : s.ranges = t.ranges := List.Pairwise.eq_of_mem_iff hs.ascending ht.ascending hranges
  cases s
  cases t
  exact congrArg _ heq

end Normal

/-! ### Sets that can be built -/

/-- The sets that the operations build. -/
inductive Built : SymbolSet → Prop where
  | empty : Built empty
  | single (x : Symbol) : Built (single x)
  | range (a b : Symbol) : Built (range a b)
  | ofRanges (bounds : List (Symbol × Symbol)) : Built (ofRanges bounds)
  | union {s t : SymbolSet} (hs : Built s) (ht : Built t) : Built (s.union t)

theorem normal_empty : empty.Normal := ⟨nofun, .nil⟩

theorem normal_range (a b : Symbol) : (range a b).Normal :=
  ⟨by simp [range, SymbolRange.between_proper], List.pairwise_singleton ..⟩

theorem normal_union (s t : SymbolSet) : (s.union t).Normal := normal_ofRanges _

/-- The bounds of proper ranges are in order, so they give the symbols of the ranges. -/
theorem mem_ofRanges_bounds (h : ∀ r ∈ l, r.lo ≤ r.hi) :
    x ∈ ofRanges (l.map fun r => (r.lo, r.hi)) ↔ ∃ r ∈ l, x ∈ r := by
  rw [mem_ofRanges]
  simp only [List.mem_map, exists_exists_and_eq_and]
  refine exists_congr fun r => and_congr_right fun hr => ?_
  have hproper := UInt32.le_iff_toNat_le.mp (h r hr)
  simp only [SymbolRange.mem_iff, UInt32.le_iff_toNat_le]
  omega

theorem mem_union (hs : s.Normal) (ht : t.Normal) : x ∈ s.union t ↔ x ∈ s ∨ x ∈ t := by
  have hproper : ∀ r ∈ s.ranges ++ t.ranges, r.lo ≤ r.hi :=
    List.forall_mem_append.mpr ⟨hs.proper, ht.proper⟩
  rw [union, mem_ofRanges_bounds hproper]
  simp only [List.mem_append, or_and_right, exists_or]
  exact Iff.rfl

/-- What can be built is what is in normal form. -/
theorem built_iff_normal : s.Built ↔ s.Normal := by
  constructor
  · intro hs
    cases hs with
    | empty => exact normal_empty
    | single x => exact normal_range x x
    | range a b => exact normal_range a b
    | ofRanges bounds => exact normal_ofRanges bounds
    | union => exact normal_union _ _
  · intro hs
    have heq : s = ofRanges (s.ranges.map fun r => (r.lo, r.hi)) :=
      (hs.eq_iff (normal_ofRanges _)).mpr fun x => (mem_ofRanges_bounds hs.proper).symm
    rw [heq]
    exact .ofRanges _

/-- **Sets are kept in normal form.** Each operation makes a set in normal form with the symbols
that it is asked for. So of the sets that can be built, two with the same symbols are equal, and
neither order nor grouping nor repetition shows in a union. -/
theorem operations_keep_normal :
    (∀ bounds, (ofRanges bounds).Normal ∧
      ∀ x, x ∈ ofRanges bounds ↔ ∃ b ∈ bounds, b.1 ≤ x ∧ x ≤ b.2 ∨ b.2 ≤ x ∧ x ≤ b.1) ∧
    (empty.Normal ∧ ∀ x, x ∉ empty) ∧
    (∀ y, (single y).Normal ∧ ∀ x, x ∈ single y ↔ x = y) ∧
    (∀ a b, (range a b).Normal ∧ ∀ x, x ∈ range a b ↔ a ≤ x ∧ x ≤ b ∨ b ≤ x ∧ x ≤ a) ∧
    (∀ s t : SymbolSet, s.Normal → t.Normal →
      (s.union t).Normal ∧ ∀ x, x ∈ s.union t ↔ x ∈ s ∨ x ∈ t) ∧
    (∀ s : SymbolSet, s.Built ↔ s.Normal) ∧
    (∀ s t : SymbolSet, s.Built → t.Built → (s = t ↔ ∀ x, x ∈ s ↔ x ∈ t)) ∧
    ∀ s t u : SymbolSet, s.Built → t.Built → u.Built → s.union t = t.union s ∧
      (s.union t).union u = s.union (t.union u) ∧ s.union s = s := by
  refine ⟨fun bounds => ⟨normal_ofRanges bounds, fun _ => mem_ofRanges⟩,
    ⟨normal_empty, notMem_empty⟩, fun y => ⟨normal_range y y, fun _ => mem_single⟩,
    fun a b => ⟨normal_range a b, fun _ => mem_range⟩,
    fun s t hs ht => ⟨normal_union s t, fun _ => mem_union hs ht⟩, fun _ => built_iff_normal,
    fun s t hs ht => (built_iff_normal.mp hs).eq_iff (built_iff_normal.mp ht),
    fun s t u hs ht hu => ?_⟩
  rw [built_iff_normal] at hs ht hu
  -- The laws of unions are those of "or".
  refine ⟨?_, ?_, ?_⟩
  · rw [(normal_union s t).eq_iff (normal_union t s)]
    intro x
    rw [mem_union hs ht, mem_union ht hs, or_comm]
  · rw [(normal_union _ u).eq_iff (normal_union s _)]
    intro x
    rw [mem_union (normal_union s t) hu, mem_union hs ht, mem_union hs (normal_union t u),
      mem_union ht hu, or_assoc]
  · rw [(normal_union s s).eq_iff hs]
    intro x
    rw [mem_union hs hs, or_self]

/-- Bounds the wrong way round, ranges that touch, and the highest symbol. -/
theorem operations_keep_normal_touching :
    let pieces := ofRanges [(12, 10), (5, 7), (8, 9), (11, 20)]
    let highest := single 0xFFFFFFFF
    let next := range 0xFFFFFFFE 21
    pieces.Built ∧ highest.Built ∧ next.Built ∧ pieces = range 5 20 ∧
      (pieces.union highest).union next = pieces.union (highest.union next) ∧
      pieces.union (highest.union next) = range 5 0xFFFFFFFF := by
  have h := operations_keep_normal.2.2.2.2.2.2
  refine ⟨.ofRanges _, .single _, .range _ _, by decide, ?_, by decide⟩
  exact (h.2 _ _ _ (.ofRanges _) (.single _) (.range _ _)).2.1

end SymbolSet
end Lookahead
