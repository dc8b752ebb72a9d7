import Lookahead.Proofs.SymbolSet.NormalForm
import Mathlib.Data.FinEnum
import Mathlib.Data.Set.Card
import Mathlib.Order.Interval.Set.Nat

/-! Questions about sets of symbols.

Each question is answered from the ranges, by looking at one or two of them at a time, and the
answer is the one that the symbols give (`queries_exact`). Only the normal form makes it so: a
stretch of symbols is never split over two ranges, no range has symbols of another one, and what
ends below a range has nothing in common with the later ones either. -/
namespace Lookahead.SymbolSet
variable {s t : SymbolSet} {r v : SymbolRange} {rs vs : List SymbolRange} {x lo hi : Symbol}

/-! ### One symbol, and all symbols between two -/

theorem Normal.ascending_side (hs : s.Normal) (x : Symbol) : Ascending (·.side x) s.ranges := by
  refine hs.separated.imp_of_mem fun {r v} hr _ hrv => ?_
  have hproper := UInt32.le_iff_toNat_le.mp (hs.proper r hr)
  simp only [SymbolRange.side, UInt32.lt_iff_toNat_lt]
  by_cases hx : x.toNat < v.lo.toNat
  · exact .inr (if_pos hx)
  · refine .inl ?_
    rw [if_neg (by omega), if_pos (by omega)]

theorem Normal.covers_iff (hs : s.Normal) (hle : lo ≤ hi) :
    s.covers lo hi = true ↔ ∀ x, lo ≤ x → x ≤ hi → x ∈ s := by
  constructor
  · intro hcovers x hlo hhi
    rw [UInt32.le_iff_toNat_le] at hlo hhi
    exact mem_of_covers hcovers hlo hhi
  · intro hall
    obtain ⟨r, hr, hlo⟩ := hall lo (UInt32.le_refl _) hle
    have hstretch := hs.stretch_iff.mpr hr
    have hin : ∀ x ∈ (⟨lo, hi⟩ : SymbolRange), x ∈ s := fun x hx => hall x hx.1 hx.2
    have hmem : lo ∈ (⟨lo, hi⟩ : SymbolRange) := ⟨UInt32.le_refl _, hle⟩
    refine List.any_eq_true.mpr ⟨r, hr, ?_⟩
    simp only [SymbolRange.covers, Bool.and_eq_true, decide_eq_true_eq]
    exact ⟨hstretch.lo_le hin hlo hmem, hstretch.hi_le hin hlo hmem⟩

/-! ### Common symbols -/

theorem mem_mk_cons : x ∈ (⟨r :: rs⟩ : SymbolSet) ↔ x ∈ r ∨ x ∈ (⟨rs⟩ : SymbolSet) := by
  simp only [mem_iff, List.exists_mem_cons_iff]

theorem Normal.of_cons (h : Normal ⟨r :: rs⟩) : Normal ⟨rs⟩ :=
  ⟨fun t ht => h.proper t (.tail _ ht), h.separated.of_cons⟩

/-- The first range is the lowest. -/
theorem Normal.lo_le_of_mem (h : Normal ⟨r :: rs⟩) (hx : x ∈ (⟨r :: rs⟩ : SymbolSet)) :
    r.lo.toNat ≤ x.toNat := by
  obtain ⟨v, hv, hxv⟩ := hx
  rw [SymbolRange.mem_iff] at hxv
  rcases List.mem_cons.mp hv with rfl | hv
  · exact hxv.1
  · have hlt : r.lo.toNat < v.lo.toNat := List.rel_of_pairwise_cons h.ascending hv
    omega

theorem overlap_nil_right (rs : List SymbolRange) : overlap rs [] = false := by
  cases rs <;> rfl

/-- The first ranges of two lists share a symbol, or the one that ends lower is passed over. -/
theorem overlap_cons (hr : r.lo ≤ r.hi) (hv : v.lo ≤ v.hi) :
    overlap (r :: rs) (v :: vs) =
      if r.hi < v.lo then overlap rs (v :: vs)
      else if v.hi < r.lo then overlap (r :: rs) vs
      else true := by
  by_cases hvr : v.hi < r.lo
  · have hrv : ¬ r.hi < v.lo := by
      rw [UInt32.le_iff_toNat_le] at hr hv
      rw [UInt32.lt_iff_toNat_lt] at hvr ⊢
      omega
    rw [if_neg hrv, if_pos hvr]
    simp only [overlap, List.dropWhile_cons, hvr, decide_true, if_true]
  · rw [if_neg hvr]
    simp only [overlap, List.dropWhile_cons, hvr, decide_false, Bool.false_eq_true, if_false]

theorem overlap_iff (hrs : Normal ⟨rs⟩) (hvs : Normal ⟨vs⟩) :
    overlap rs vs = true ↔ ∃ x, x ∈ (⟨rs⟩ : SymbolSet) ∧ x ∈ (⟨vs⟩ : SymbolSet) := by
  induction rs generalizing vs with
  | nil => exact ⟨nofun, fun ⟨x, hx, _⟩ => absurd hx (notMem_empty x)⟩
  | cons r rs ihr =>
    induction vs with
    | nil =>
      rw [overlap_nil_right]
      exact ⟨nofun, fun ⟨x, _, hx⟩ => absurd hx (notMem_empty x)⟩
    | cons v vs ihv =>
      have hr := hrs.proper r (.head _)
      have hv := hvs.proper v (.head _)
      rw [overlap_cons hr hv]
      rw [UInt32.le_iff_toNat_le] at hr hv
      simp only [UInt32.lt_iff_toNat_lt]
      by_cases hrv : r.hi.toNat < v.lo.toNat
      · rw [if_pos hrv, ihr hrs.of_cons hvs]
        refine exists_congr fun x => and_congr_left fun hx => ?_
        have hx := hvs.lo_le_of_mem hx
        rw [mem_mk_cons, SymbolRange.mem_iff]
        exact ⟨.inr, fun h => h.resolve_left (by omega)⟩
      · by_cases hvr : v.hi.toNat < r.lo.toNat
        · rw [if_neg hrv, if_pos hvr, ihv hvs.of_cons]
          refine exists_congr fun x => and_congr_right fun hx => ?_
          have hx := hrs.lo_le_of_mem hx
          rw [mem_mk_cons, SymbolRange.mem_iff]
          exact ⟨.inr, fun h => h.resolve_left (by omega)⟩
        · rw [if_neg hrv, if_neg hvr]
          -- The one of the two that starts higher starts inside the other one.
          have hcommon : ∃ x, x ∈ r ∧ x ∈ v := by
            simp only [SymbolRange.mem_iff]
            by_cases hle : r.lo.toNat ≤ v.lo.toNat
            · exact ⟨v.lo, by omega⟩
            · exact ⟨r.lo, by omega⟩
          obtain ⟨x, hxr, hxv⟩ := hcommon
          exact iff_of_true rfl ⟨x, mem_mk_cons.mpr (.inl hxr), mem_mk_cons.mpr (.inl hxv)⟩

theorem Normal.intersects_iff (hs : s.Normal) (ht : t.Normal) :
    s.intersects t = true ↔ ∃ x, x ∈ s ∧ x ∈ t :=
  overlap_iff hs ht

theorem Normal.intersects_comm (hs : s.Normal) (ht : t.Normal) :
    s.intersects t = t.intersects s := by
  rw [Bool.eq_iff_iff, hs.intersects_iff ht, ht.intersects_iff hs]
  exact exists_congr fun x => and_comm

/-! ### How many symbols there are -/

theorem ncard_le (s : SymbolSet) : {x | x ∈ s}.ncard ≤ 2 ^ 32 := by
  have hall : Nat.card Symbol = 2 ^ 32 := by
    rw [Nat.card_eq_fintype_card, ← FinEnum.card_eq_fintypeCard, FinEnum.card_UInt32]
  exact hall ▸ Set.ncard_le_card _

/-- The number of symbols of a range. -/
def extent (r : SymbolRange) : Nat := r.hi.toNat - r.lo.toNat + 1

theorem ncard_range (h : r.lo ≤ r.hi) : {x | x ∈ r}.ncard = extent r := by
  have himage : UInt32.toNat '' {x | x ∈ r} = ↑(Finset.Icc r.lo.toNat r.hi.toNat) := by
    ext n
    simp only [Set.mem_image, Set.mem_ofPred_eq, Finset.coe_Icc, Set.mem_Icc, SymbolRange.mem_iff]
    constructor
    · rintro ⟨x, hx, rfl⟩
      exact hx
    · intro hn
      obtain ⟨x, rfl⟩ := exists_symbol hn.2
      exact ⟨x, hn, rfl⟩
  rw [← Set.ncard_image_of_injective _ fun _ _ => UInt32.toNat_inj.mp, himage,
    Set.ncard_coe_finset, Nat.card_Icc, extent]
  have := UInt32.le_iff_toNat_le.mp h
  omega

theorem Normal.ncard_eq (hs : s.Normal) : {x | x ∈ s}.ncard = (s.ranges.map extent).sum := by
  obtain ⟨ranges⟩ := s
  induction ranges with
  | nil => simp [mem_iff]
  | cons r rs ih =>
    have hunion : {x | x ∈ (⟨r :: rs⟩ : SymbolSet)} =
        {x | x ∈ r} ∪ {x | x ∈ (⟨rs⟩ : SymbolSet)} := by
      ext x
      exact mem_mk_cons
    have hdisjoint : Disjoint {x | x ∈ r} {x | x ∈ (⟨rs⟩ : SymbolSet)} := by
      rw [Set.disjoint_left]
      rintro x hxr ⟨v, hv, hxv⟩
      have hlt := List.rel_of_pairwise_cons hs.separated hv
      have hxr := (SymbolRange.mem_iff.mp hxr).2
      have hxv := (SymbolRange.mem_iff.mp hxv).1
      omega
    rw [hunion, Set.ncard_union_eq hdisjoint, ncard_range (hs.proper r (.head _)), ih hs.of_cons,
      List.map_cons, List.sum_cons]

theorem toNat_size (h : r.lo ≤ r.hi) : r.size.toNat = extent r := by
  have hlo := r.hi.toNat_lt
  have hone : (1 : UInt64).toNat = 1 := rfl
  rw [SymbolRange.size, UInt64.toNat_add, UInt32.toNat_toUInt64, UInt32.toNat_sub_of_le _ _ h,
    hone, Nat.mod_eq_of_lt (by omega), extent]

/-- A sum that fits into the word is the sum of the numbers. -/
theorem toNat_foldr_add {ns : List UInt64} (h : (ns.map UInt64.toNat).sum < 2 ^ 64) :
    (ns.foldr (· + ·) 0).toNat = (ns.map UInt64.toNat).sum := by
  induction ns with
  | nil => rfl
  | cons n ns ih =>
    rw [List.map_cons, List.sum_cons] at h ⊢
    rw [List.foldr_cons, UInt64.toNat_add, ih (by omega), Nat.mod_eq_of_lt h]

theorem Normal.toNat_size (hs : s.Normal) : s.size.toNat = (s.ranges.map extent).sum := by
  have hextents : (s.ranges.map SymbolRange.size).map UInt64.toNat = s.ranges.map extent := by
    rw [List.map_map]
    exact List.map_congr_left fun r hr => SymbolSet.toNat_size (hs.proper r hr)
  have hle := ncard_le s
  rw [hs.ncard_eq] at hle
  rw [size, toNat_foldr_add, hextents]
  rw [hextents]
  omega

theorem Normal.sublist {part : List SymbolRange} (hs : s.Normal) (h : part.Sublist s.ranges) :
    Normal ⟨part⟩ :=
  ⟨fun r hr => hs.proper r (h.subset hr), hs.separated.sublist h⟩

/-- **Questions about ranges are answered as questions about symbols.** The number of symbols may
be 2^32, which still leaves room: adding up the sizes of any of the ranges never overflows. -/
theorem queries_exact (hs : s.Built) (ht : t.Built) :
    (∀ x, s.contains x = true ↔ x ∈ s) ∧
    (∀ lo hi, lo ≤ hi → (s.covers lo hi = true ↔ ∀ x, lo ≤ x → x ≤ hi → x ∈ s)) ∧
    (s.intersects t = true ↔ ∃ x, x ∈ s ∧ x ∈ t) ∧ s.intersects t = t.intersects s ∧
    s.size.toNat = {x | x ∈ s}.ncard ∧ {x | x ∈ s}.ncard ≤ 2 ^ 32 ∧
    ∀ part : List SymbolRange, part.Sublist s.ranges →
      (size ⟨part⟩).toNat = (part.map extent).sum ∧ (part.map extent).sum ≤ 2 ^ 32 := by
  rw [built_iff_normal] at hs ht
  refine ⟨fun x => contains_iff (hs.ascending_side x), fun _ _ => hs.covers_iff,
    hs.intersects_iff ht, hs.intersects_comm ht, hs.toNat_size.trans hs.ncard_eq.symm, ncard_le s,
    fun part hpart => ?_⟩
  have hnormal := hs.sublist hpart
  exact ⟨hnormal.toNat_size, hnormal.ncard_eq ▸ ncard_le ⟨part⟩⟩

/-- The set of all symbols, and one with a gap that no single range bridges. -/
theorem queries_exact_all :
    let gapped := ofRanges [(1, 3), (10, 10)]
    let all := range 0xFFFFFFFF 0
    gapped.Built ∧ all.Built ∧ gapped.covers 3 10 = false ∧ ¬ (∀ x, 3 ≤ x → x ≤ 10 → x ∈ gapped) ∧
      (∃ x, x ∈ gapped ∧ x ∈ all) ∧ {x | x ∈ all}.ncard = 2 ^ 32 := by
  have hgapped := queries_exact (.ofRanges [(1, 3), (10, 10)]) (.range 0xFFFFFFFF 0)
  have hall := queries_exact (.range 0xFFFFFFFF 0) (.ofRanges [(1, 3), (10, 10)])
  refine ⟨.ofRanges _, .range _ _, by decide, ?_, hgapped.2.2.1.mp (by decide), ?_⟩
  · rw [← hgapped.2.1 3 10 (by decide)]
    decide
  · rw [← hall.2.2.2.2.1]
    decide

end Lookahead.SymbolSet
