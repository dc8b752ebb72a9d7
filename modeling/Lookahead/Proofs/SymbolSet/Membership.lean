import Lookahead.Proofs.Bisection
import Lookahead.SymbolSet.Basic

/-! The symbols of a set.

A symbol is in a set when one of the set's ranges has it. -/
namespace Lookahead

instance : Membership Symbol SymbolRange := ⟨fun r x => r.lo ≤ x ∧ x ≤ r.hi⟩

instance : Membership Symbol SymbolSet := ⟨fun s x => ∃ r ∈ s.ranges, x ∈ r⟩

namespace SymbolRange
variable {r : SymbolRange} {a b x : Symbol}

theorem mem_iff : x ∈ r ↔ r.lo.toNat ≤ x.toNat ∧ x.toNat ≤ r.hi.toNat := by
  show r.lo ≤ x ∧ x ≤ r.hi ↔ _
  rw [UInt32.le_iff_toNat_le, UInt32.le_iff_toNat_le]

/-- A range is level with the symbols that it has. -/
theorem side_eq_iff : r.side x = .eq ↔ x ∈ r := by
  rw [mem_iff]
  simp only [side, UInt32.lt_iff_toNat_lt]
  grind

theorem mem_between : x ∈ between a b ↔ a ≤ x ∧ x ≤ b ∨ b ≤ x ∧ x ≤ a := by
  simp only [mem_iff, between, UInt32.le_iff_toNat_le]
  split <;> lia

theorem between_proper (a b : Symbol) : (between a b).lo ≤ (between a b).hi := by
  simp only [between, UInt32.le_iff_toNat_le]
  split <;> lia

end SymbolRange

namespace SymbolSet
variable {s : SymbolSet} {a b lo hi x y : Symbol}

theorem mem_iff : x ∈ s ↔ ∃ r ∈ s.ranges, x ∈ r := Iff.rfl

theorem notMem_empty (x : Symbol) : x ∉ empty := nofun

theorem mem_range : x ∈ range a b ↔ a ≤ x ∧ x ≤ b ∨ b ≤ x ∧ x ≤ a := by
  rw [mem_iff, range]
  simp only [List.mem_singleton, exists_eq_left, SymbolRange.mem_between]

theorem mem_single : x ∈ single y ↔ x = y := by
  rw [single, mem_range, or_self, ← UInt32.toNat_inj, UInt32.le_iff_toNat_le,
    UInt32.le_iff_toNat_le]
  lia

/-- Looking for a symbol in ascending ranges finds it where it is. -/
theorem contains_iff (h : Ascending (·.side x) s.ranges) : s.contains x = true ↔ x ∈ s := by
  rw [contains, Option.isSome_iff_exists, mem_iff]
  refine exists_congr fun r => ?_
  rw [bisect_eq_some_iff h, SymbolRange.side_eq_iff]

theorem mem_of_covers (h : s.covers lo hi = true) (hlo : lo.toNat ≤ x.toNat)
    (hhi : x.toNat ≤ hi.toNat) : x ∈ s := by
  obtain ⟨r, hr, hcov⟩ := List.any_eq_true.mp h
  simp only [SymbolRange.covers, Bool.and_eq_true, decide_eq_true_eq,
    UInt32.le_iff_toNat_le] at hcov
  exact ⟨r, hr, SymbolRange.mem_iff.mpr ⟨by omega, by omega⟩⟩

end SymbolSet
end Lookahead
