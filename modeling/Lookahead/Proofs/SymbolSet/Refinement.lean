import Lookahead.Proofs.SymbolSet.NormalForm
import Lookahead.Proofs.SymbolSet.Partition

/-! A partition is the coarsest common refinement of its sets.

No set cuts a range of the partition. Where two of its ranges touch, some set starts or ends:
sets in normal form leave a symbol out between their own ranges, so the symbols on the two sides
are not both in that set. Hence a range that no set cuts lies in a single one of them. -/
namespace Lookahead.SymbolSet
variable {sets : List SymbolSet} {r t : SymbolRange} {ps : List Nat}

/-- Each of the sets has all of the range or nothing of it. -/
def Uncut (sets : List SymbolSet) (r : SymbolRange) : Prop :=
  ∀ s ∈ sets, (∀ x ∈ r, x ∈ s) ∨ ∀ x ∈ r, x ∉ s

theorem uncut_of_mem_partition (hr : r ∈ partition sets) : Uncut sets r := by
  intro s hs
  by_cases hcovers : s.covers r.lo r.hi = true
  · exact .inl fun x hx => (covers_iff_mem hr hs hx).mp hcovers
  · exact .inr fun x hx hxs => hcovers ((covers_iff_mem hr hs hx).mpr hxs)

/-- The bounds of the gaps are numbers of 32 bits, so the gaps give the places back. -/
theorem map_gaps (h : Places ps) :
    (gaps ps).map (fun r => (r.lo.toNat, r.hi.toNat + 1)) = ps.zip ps.tail := by
  induction ps with
  | nil => rfl
  | cons a ps ih =>
    cases ps with
    | nil => rfl
    | cons b ps =>
      obtain ⟨_, ha, hb⟩ := h.gap
      rw [gaps, List.map_cons, ih h.tail, ha, hb]
      rfl

/-- Where one range of the partition ends and the next one starts, one of the sets changes. -/
theorem exists_change (hsets : ∀ s ∈ sets, s.Normal) (hr : r ∈ partition sets)
    (htouch : r.hi.toNat + 1 = t.lo.toNat) : ∃ s ∈ sets, ¬ (r.hi ∈ s ↔ t.lo ∈ s) := by
  have hplace : r.hi.toNat + 1 ∈ boundaries sets :=
    (exists_of_mem_gaps (places_boundaries sets) (mem_partition.mp hr).1).2.1
  obtain ⟨s, hs, v, hv, hat⟩ := mem_places.mp (mem_boundaries.mp hplace)
  have hstretch := (hsets s hs).stretch_iff.mpr hv
  have hproper := UInt32.le_iff_toNat_le.mp hstretch.proper
  refine ⟨s, hs, fun hiff => ?_⟩
  rcases hat with hstart | hend
  · have hlo : t.lo ∈ s := hstretch.inside t.lo (SymbolRange.mem_iff.mpr (by omega))
    have hhi := hstretch.closed r.hi (hiff.mpr hlo) (by omega) (by omega)
    rw [SymbolRange.mem_iff] at hhi
    omega
  · have hhi : r.hi ∈ s := hstretch.inside r.hi (SymbolRange.mem_iff.mpr (by omega))
    have hlo := hstretch.closed t.lo (hiff.mp hhi) (by omega) (by omega)
    rw [SymbolRange.mem_iff] at hlo
    omega

theorem lo_mem (hr : r ∈ partition sets) : r.lo ∈ r :=
  SymbolRange.mem_iff.mpr ⟨Nat.le_refl _, lo_le_hi_of_mem_partition hr⟩

theorem hi_mem (hr : r ∈ partition sets) : r.hi ∈ r :=
  SymbolRange.mem_iff.mpr ⟨lo_le_hi_of_mem_partition hr, Nat.le_refl _⟩

/-- Of two ranges that touch, some set has one and nothing of the other. -/
theorem exists_between (hsets : ∀ s ∈ sets, s.Normal) (hr : r ∈ partition sets)
    (ht : t ∈ partition sets) (htouch : r.hi.toNat + 1 = t.lo.toNat) :
    ∃ s ∈ sets, (∀ x ∈ r, x ∈ s) ∧ (∀ x ∈ t, x ∉ s) ∨ (∀ x ∈ r, x ∉ s) ∧ ∀ x ∈ t, x ∈ s := by
  obtain ⟨s, hs, hchange⟩ := exists_change hsets hr htouch
  refine ⟨s, hs, ?_⟩
  rcases uncut_of_mem_partition hr s hs with hin | hout
  · rcases uncut_of_mem_partition ht s hs with htin | htout
    · exact absurd (iff_of_true (hin _ (hi_mem hr)) (htin _ (lo_mem ht))) hchange
    · exact .inl ⟨hin, htout⟩
  · rcases uncut_of_mem_partition ht s hs with htin | htout
    · exact .inr ⟨hout, htin⟩
    · exact absurd (iff_of_false (hout _ (hi_mem hr)) (htout _ (lo_mem ht))) hchange

/-- A symbol that follows a range of the partition and is in some set is the first one of the
range that touches it. -/
theorem exists_touching {x : Symbol} (hr : r ∈ partition sets) (hx : x.toNat = r.hi.toNat + 1)
    (hxs : ∃ s ∈ sets, x ∈ s) : ∃ t ∈ partition sets, t.lo = x := by
  obtain ⟨t, ht, hxt⟩ := exists_mem_partition_iff.mpr hxs
  refine ⟨t, ht, UInt32.toNat_inj.mp ?_⟩
  rw [SymbolRange.mem_iff] at hxt
  have hne : r ≠ t := by
    rintro rfl
    omega
  have hapart := rel_or_rel_of_pairwise (partition_pairwise sets) hr ht hne
  have hle := lo_le_hi_of_mem_partition hr
  omega

/-- A range with symbols of the sets that none of them cuts does not reach over an end of a range
of the partition. -/
theorem exists_covering (hsets : ∀ s ∈ sets, s.Normal) {q : SymbolRange} (hq : q.lo ≤ q.hi)
    (huncut : Uncut sets q) (hsome : ∃ s ∈ sets, ∃ x ∈ q, x ∈ s) :
    ∃ r ∈ partition sets, r.lo ≤ q.lo ∧ q.hi ≤ r.hi := by
  obtain ⟨s, hs, x, hx, hxs⟩ := hsome
  have hall : ∀ y ∈ q, y ∈ s := (huncut s hs).resolve_right fun hnone => hnone x hx hxs
  have hlo : q.lo ∈ q := ⟨UInt32.le_refl _, hq⟩
  obtain ⟨r, hr, hqr⟩ := exists_mem_partition_iff.mpr ⟨s, hs, hall q.lo hlo⟩
  refine ⟨r, hr, hqr.1, ?_⟩
  rw [UInt32.le_iff_toNat_le]
  by_contra hlt
  rw [SymbolRange.mem_iff] at hqr
  -- The symbol after `r` is in `q`, so it starts a range that touches `r`, and `q` is cut there.
  obtain ⟨y, hy⟩ := exists_symbol (x := q.hi) (n := r.hi.toNat + 1) (by omega)
  have hyq : y ∈ q := SymbolRange.mem_iff.mpr (by omega)
  have hrq : r.hi ∈ q := SymbolRange.mem_iff.mpr (by omega)
  obtain ⟨t, ht, rfl⟩ := exists_touching hr hy ⟨s, hs, hall y hyq⟩
  obtain ⟨s', hs', hchange⟩ := exists_change hsets hr hy.symm
  rcases huncut s' hs' with hin | hout
  · exact hchange (iff_of_true (hin _ hrq) (hin _ hyq))
  · exact hchange (iff_of_false (hout _ hrq) (hout _ hyq))

/-- **A partition is the coarsest common refinement of its sets.** Its ranges ascend without
overlapping and have the symbols of the sets; no set cuts one; two that touch are told apart by
some set, and any range that no set cuts is inside one of them. The places that they are made
from are numbers up to 2^32, each below the next one, and survive being written as symbols. -/
theorem partition_coarsest (hsets : ∀ s ∈ sets, s.Built) :
    (∀ r ∈ partition sets, r.lo ≤ r.hi) ∧
    (partition sets).Pairwise (fun r t => r.hi < t.lo) ∧
    (∀ x, (∃ r ∈ partition sets, x ∈ r) ↔ ∃ s ∈ sets, x ∈ s) ∧
    (∀ r ∈ partition sets, ∀ s ∈ sets, (∀ x ∈ r, x ∈ s) ∨ ∀ x ∈ r, x ∉ s) ∧
    (∀ r ∈ partition sets, ∀ t ∈ partition sets, r.hi.toNat + 1 = t.lo.toNat →
      ∃ s ∈ sets, (∀ x ∈ r, x ∈ s) ∧ (∀ x ∈ t, x ∉ s) ∨ (∀ x ∈ r, x ∉ s) ∧ ∀ x ∈ t, x ∈ s) ∧
    (∀ q : SymbolRange, q.lo ≤ q.hi → Uncut sets q → (∃ s ∈ sets, ∃ x ∈ q, x ∈ s) →
      ∃ r ∈ partition sets, r.lo ≤ q.lo ∧ q.hi ≤ r.hi) ∧
    (boundaries sets).Pairwise (· < ·) ∧ (∀ p ∈ boundaries sets, p ≤ UInt32.size) ∧
    (gaps (boundaries sets)).map (fun r => (r.lo.toNat, r.hi.toNat + 1)) =
      (boundaries sets).zip (boundaries sets).tail := by
  have hnormal : ∀ s ∈ sets, s.Normal := fun s hs => built_iff_normal.mp (hsets s hs)
  have hplaces := places_boundaries sets
  refine ⟨fun r hr => UInt32.le_iff_toNat_le.mpr (lo_le_hi_of_mem_partition hr),
    (partition_pairwise sets).imp UInt32.lt_iff_toNat_lt.mpr, fun _ => exists_mem_partition_iff,
    fun r hr => uncut_of_mem_partition hr, fun r hr t ht => exists_between hnormal hr ht,
    fun q hq => exists_covering hnormal hq, hplaces.1, hplaces.2, map_gaps hplaces⟩

/-- Sets that overlap, touch and are empty, up to the highest symbol. -/
theorem partition_coarsest_mixed :
    let sets := [range 97 122, single 120, .empty, ofRanges [(0, 5), (0xFFFFFFFE, 0xFFFFFFFF)]]
    (∀ s ∈ sets, s.Built) ∧
      partition sets = [⟨0, 5⟩, ⟨97, 119⟩, ⟨120, 120⟩, ⟨121, 122⟩, ⟨0xFFFFFFFE, 0xFFFFFFFF⟩] ∧
      (∃ s ∈ sets, (∀ x ∈ (⟨97, 119⟩ : SymbolRange), x ∈ s) ∧
          (∀ x ∈ (⟨120, 120⟩ : SymbolRange), x ∉ s) ∨
        (∀ x ∈ (⟨97, 119⟩ : SymbolRange), x ∉ s) ∧ ∀ x ∈ (⟨120, 120⟩ : SymbolRange), x ∈ s) := by
  intro sets
  have hsets : ∀ s ∈ sets, s.Built := by
    simp only [sets, List.forall_mem_cons]
    exact ⟨.range .., .single _, .empty, .ofRanges _, nofun⟩
  have hpartition : partition sets =
      [⟨0, 5⟩, ⟨97, 119⟩, ⟨120, 120⟩, ⟨121, 122⟩, ⟨0xFFFFFFFE, 0xFFFFFFFF⟩] := by decide
  have hdiffer := (partition_coarsest hsets).2.2.2.2.1
  rw [hpartition] at hdiffer
  exact ⟨hsets, hpartition, hdiffer ⟨97, 119⟩ (by decide) ⟨120, 120⟩ (by decide) rfl⟩

end Lookahead.SymbolSet
