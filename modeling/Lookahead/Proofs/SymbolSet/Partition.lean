import Lookahead.Proofs.Sorting
import Lookahead.Proofs.SymbolSet.Membership
import Lookahead.SymbolSet.Partition

/-! The ranges of a partition.

The ranges of `partition sets` ascend and do not meet, cover the symbols of the sets and no
others, and each of them is inside or outside each set as a whole. -/
namespace Lookahead.SymbolSet

/-! ### Gaps between ascending places -/

/-- Places of symbols, or the place after the highest one. -/
def Places (ps : List Nat) : Prop := ps.Pairwise (· < ·) ∧ ∀ p ∈ ps, p ≤ UInt32.size

theorem Places.tail {a : Nat} {ps : List Nat} (h : Places (a :: ps)) : Places ps :=
  ⟨h.1.of_cons, fun p hp => h.2 p (.tail _ hp)⟩

theorem Places.gap {a b : Nat} {ps : List Nat} (h : Places (a :: b :: ps)) :
    a < b ∧ (UInt32.ofNat a).toNat = a ∧ (UInt32.ofNat (b - 1)).toNat + 1 = b := by
  have hab : a < b := List.rel_of_pairwise_cons h.1 (.head _)
  have hb : b ≤ UInt32.size := h.2 b (.tail _ (.head _))
  refine ⟨hab, UInt32.toNat_ofNat_of_lt' (Nat.lt_of_lt_of_le hab hb), ?_⟩
  rw [UInt32.toNat_ofNat_of_lt' (Nat.lt_of_lt_of_le (by omega) hb)]
  omega

/-- A gap goes from one place to the next. -/
theorem exists_of_mem_gaps {ps : List Nat} (h : Places ps) {r : SymbolRange} (hr : r ∈ gaps ps) :
    r.lo.toNat ∈ ps ∧ r.hi.toNat + 1 ∈ ps ∧ r.lo.toNat ≤ r.hi.toNat ∧
      ∀ p ∈ ps, p ≤ r.lo.toNat ∨ r.hi.toNat < p := by
  induction ps with
  | nil => exact nomatch hr
  | cons a ps ih =>
    cases ps with
    | nil => exact nomatch hr
    | cons b ps =>
      obtain ⟨hab, ha, hb⟩ := h.gap
      rcases List.mem_cons.mp hr with rfl | hr
      · simp only [ha, hb]
        refine ⟨by simp, by simp, by omega, fun p hp => ?_⟩
        rcases List.mem_cons.mp hp with rfl | hp
        · exact .inl (Nat.le_refl _)
        · rcases List.mem_cons.mp hp with rfl | hp
          · omega
          · have := List.rel_of_pairwise_cons h.tail.1 hp
            omega
      · obtain ⟨hlo, hhi, hle, hall⟩ := ih h.tail hr
        refine ⟨.tail _ hlo, .tail _ hhi, hle, fun p hp => ?_⟩
        rcases List.mem_cons.mp hp with rfl | hp
        · have := List.rel_of_pairwise_cons h.1 hlo
          omega
        · exact hall p hp

theorem gaps_pairwise {ps : List Nat} (h : Places ps) :
    (gaps ps).Pairwise fun r t => r.hi.toNat < t.lo.toNat := by
  induction ps with
  | nil => exact .nil
  | cons a ps ih =>
    cases ps with
    | nil => exact .nil
    | cons b ps =>
      refine List.pairwise_cons.mpr ⟨fun t ht => ?_, ih h.tail⟩
      obtain ⟨_, _, hb⟩ := h.gap
      have hlo := (exists_of_mem_gaps h.tail ht).1
      rcases List.mem_cons.mp hlo with hlo | hlo
      · simp only [hlo]
        omega
      · have := List.rel_of_pairwise_cons h.tail.1 hlo
        simp only
        omega

/-- Between two places every number is in some gap. -/
theorem exists_gap {ps : List Nat} (h : Places ps) {x : Symbol} {a b : Nat} (ha : a ∈ ps)
    (hb : b ∈ ps) (hax : a ≤ x.toNat) (hxb : x.toNat < b) : ∃ r ∈ gaps ps, x ∈ r := by
  induction ps generalizing a with
  | nil => exact nomatch ha
  | cons c ps ih =>
    cases ps with
    | nil =>
      rw [List.mem_singleton] at ha hb
      omega
    | cons d ps =>
      obtain ⟨_, hc, hd⟩ := h.gap
      by_cases hx : d ≤ x.toNat
      · have hb' : b ∈ d :: ps := by
          rcases List.mem_cons.mp hb with rfl | hb
          · have := List.rel_of_pairwise_cons h.1 (List.mem_cons_self (a := d))
            omega
          · exact hb
        obtain ⟨r, hr, hxr⟩ := ih h.tail (List.mem_cons_self ..) hb' hx
        exact ⟨r, .tail _ hr, hxr⟩
      · have hca : c ≤ a := by
          rcases List.mem_cons.mp ha with rfl | ha
          · exact Nat.le_refl _
          · exact Nat.le_of_lt (List.rel_of_pairwise_cons h.1 ha)
        refine ⟨_, .head _, SymbolRange.mem_iff.mpr ⟨?_, ?_⟩⟩
        · simp only [hc]
          omega
        · simp only
          omega

/-! ### The partition -/

variable {sets : List SymbolSet}

theorem mem_places {p : Nat} :
    p ∈ places sets ↔
      ∃ s ∈ sets, ∃ r ∈ s.ranges, p = r.lo.toNat ∨ p = r.hi.toNat + 1 := by
  simp only [places, List.mem_flatMap, List.mem_cons, List.not_mem_nil, or_false]
  exact ⟨fun ⟨r, ⟨s, hs, hr⟩, hp⟩ => ⟨s, hs, r, hr, hp⟩,
    fun ⟨s, hs, r, hr, hp⟩ => ⟨r, ⟨s, hs, hr⟩, hp⟩⟩

/-- The places in order, each of them once. -/
def boundaries (sets : List SymbolSet) : List Nat :=
  distinctRuns (· == ·) (sortBy (· ≤ ·) (places sets))

theorem mem_boundaries {p : Nat} : p ∈ boundaries sets ↔ p ∈ places sets := by
  rw [boundaries, mem_distinctRuns, mem_sortBy]

theorem places_boundaries (sets : List SymbolSet) : Places (boundaries sets) := by
  refine ⟨distinctRuns_pairwise_lt (sortBy_pairwise_le _), fun p hp => ?_⟩
  obtain ⟨s, _, r, _, hr⟩ := mem_places.mp (mem_boundaries.mp hp)
  have hlo := r.lo.toNat_lt_size
  have hhi := r.hi.toNat_lt_size
  omega

theorem mem_partition {r : SymbolRange} :
    r ∈ partition sets ↔
      r ∈ gaps (boundaries sets) ∧ ∃ s ∈ sets, s.covers r.lo r.hi = true := by
  simp [partition, boundaries]

theorem partition_pairwise (sets : List SymbolSet) :
    (partition sets).Pairwise fun r t => r.hi.toNat < t.lo.toNat :=
  (gaps_pairwise (places_boundaries sets)).sublist List.filter_sublist

theorem lo_le_hi_of_mem_partition {r : SymbolRange} (hr : r ∈ partition sets) :
    r.lo.toNat ≤ r.hi.toNat :=
  (exists_of_mem_gaps (places_boundaries sets) (mem_partition.mp hr).1).2.2.1

theorem place_lo {s : SymbolSet} (hs : s ∈ sets) {t : SymbolRange} (ht : t ∈ s.ranges) :
    t.lo.toNat ∈ boundaries sets :=
  mem_boundaries.mpr (mem_places.mpr ⟨s, hs, t, ht, .inl rfl⟩)

theorem place_hi {s : SymbolSet} (hs : s ∈ sets) {t : SymbolRange} (ht : t ∈ s.ranges) :
    t.hi.toNat + 1 ∈ boundaries sets :=
  mem_boundaries.mpr (mem_places.mpr ⟨s, hs, t, ht, .inr rfl⟩)

/-- A gap is inside each set that has one of its symbols: no place is inside a gap. -/
theorem covers_of_mem_gap {r : SymbolRange} (hr : r ∈ gaps (boundaries sets)) {s : SymbolSet}
    (hs : s ∈ sets) {x : Symbol} (hx : x ∈ r) (hxs : x ∈ s) : s.covers r.lo r.hi = true := by
  obtain ⟨t, ht, hxt⟩ := hxs
  obtain ⟨_, _, _, hall⟩ := exists_of_mem_gaps (places_boundaries sets) hr
  have hxr := SymbolRange.mem_iff.mp hx
  have hxt := SymbolRange.mem_iff.mp hxt
  have hlo := hall _ (place_lo hs ht)
  have hhi := hall _ (place_hi hs ht)
  refine List.any_eq_true.mpr ⟨t, ht, ?_⟩
  simp only [SymbolRange.covers, Bool.and_eq_true, decide_eq_true_eq, UInt32.le_iff_toNat_le]
  omega

/-- A range of the partition is inside each set that has one of its symbols. -/
theorem covers_iff_mem {r : SymbolRange} (hr : r ∈ partition sets) {s : SymbolSet} (hs : s ∈ sets)
    {x : Symbol} (hx : x ∈ r) : s.covers r.lo r.hi = true ↔ x ∈ s := by
  have hxr := SymbolRange.mem_iff.mp hx
  exact ⟨fun h => mem_of_covers h hxr.1 hxr.2, covers_of_mem_gap (mem_partition.mp hr).1 hs hx⟩

/-- The ranges of the partition cover the sets. -/
theorem exists_mem_partition_iff {x : Symbol} :
    (∃ r ∈ partition sets, x ∈ r) ↔ ∃ s ∈ sets, x ∈ s := by
  constructor
  · rintro ⟨r, hr, hx⟩
    obtain ⟨_, s, hs, hcov⟩ := mem_partition.mp hr
    exact ⟨s, hs, (covers_iff_mem hr hs hx).mp hcov⟩
  · rintro ⟨s, hs, t, ht, hxt⟩
    have hx := SymbolRange.mem_iff.mp hxt
    obtain ⟨r, hr, hxr⟩ := exists_gap (places_boundaries sets) (place_lo hs ht) (place_hi hs ht)
      hx.1 (Nat.lt_succ_of_le hx.2)
    exact ⟨r, mem_partition.mpr ⟨hr, s, hs, covers_of_mem_gap hr hs hxr ⟨t, ht, hxt⟩⟩, hxr⟩

end Lookahead.SymbolSet
