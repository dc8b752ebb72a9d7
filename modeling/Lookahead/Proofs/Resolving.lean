import Lookahead.Proofs.Guard.Meaning
import Lookahead.Proofs.Sorting
import Lookahead.Resolving

/-! What ways to alternatives decide.

A resolution names only alternatives to which some way leads. Where the guard of a way can
be true, there is a resolution, and where no way has a guard and at least two alternatives
are left, it is an ambiguity. -/
namespace Lookahead
variable {d : Decision} {ways : List (Ordinal × Guard)}

/-- The condition under which one of the ways to an alternative is open. -/
def guardTo (ways : List (Ordinal × Guard)) (alt : Ordinal) : Guard :=
  ((ways.filter (·.1 == alt)).map (·.2)).foldl Guard.or .never

theorem under_guardTo {alt : Ordinal} {v : PredicateId → Bool} :
    (guardTo ways alt).under v = true ↔ ∃ g, (alt, g) ∈ ways ∧ g.under v = true := by
  rw [guardTo, Guard.under_foldl_or]
  constructor
  · rintro (h | ⟨g, hg, hv⟩)
    · exact nomatch h
    · obtain ⟨way, hway, rfl⟩ := List.mem_map.mp hg
      obtain ⟨hway, halt⟩ := List.mem_filter.mp hway
      exact ⟨way.2, eq_of_beq halt ▸ hway, hv⟩
  · rintro ⟨g, hg, hv⟩
    exact .inr ⟨g, List.mem_map.mpr ⟨(alt, g), List.mem_filter.mpr ⟨hg, beq_self_eq_true alt⟩, rfl⟩, hv⟩

theorem Candidate.mem_ofWays {c : Candidate} :
    c ∈ Candidate.ofWays d ways ↔ c.alt ∈ ways.map (·.1) ∧ guardTo ways c.alt ≠ .never ∧
      c.guard = (if (guardTo ways c.alt).isAlways then none else some (guardTo ways c.alt)) ∧
      c.exit = (d.exit? == some c.alt) := by
  have hmem : c ∈ Candidate.ofWays d ways ↔ ∃ alt, alt ∈ ways.map (·.1) ∧
      (!(guardTo ways alt).isNever) = true ∧
      ⟨alt, if (guardTo ways alt).isAlways then none else some (guardTo ways alt),
        d.exit? == some alt⟩ = c := by
    unfold Candidate.ofWays
    simp only [List.mem_map, List.mem_filter, mem_distinctRuns, mem_sortBy]
    constructor
    · rintro ⟨x, ⟨⟨alt, halt, rfl⟩, hnever⟩, hc⟩
      exact ⟨alt, halt, hnever, hc⟩
    · rintro ⟨alt, halt, hnever, hc⟩
      exact ⟨(alt, guardTo ways alt), ⟨⟨alt, halt, rfl⟩, hnever⟩, hc⟩
  rw [hmem]
  simp only [Bool.not_eq_true', ← Bool.not_eq_true, Guard.isNever_iff]
  constructor
  · rintro ⟨alt, halt, hnever, rfl⟩
    exact ⟨halt, hnever, rfl, rfl⟩
  · rintro ⟨halt, hnever, hguard, hexit⟩
    exact ⟨c.alt, halt, hnever, by rw [← hguard, ← hexit]⟩

namespace Resolution

/-- The alternatives of a resolution are those of the candidates. -/
theorem alternatives_ofWays {r : Resolution} (h : ofWays d ways = some r) :
    r.alternatives = (Candidate.ofWays d ways).map (·.alt) := by
  unfold ofWays at h
  split at h
  · exact nomatch h
  · next alt exit hc =>
    obtain rfl := Option.some.inj h
    rw [hc]
    rfl
  · next first rest _ hc =>
    rw [hc]
    split at h
    · obtain rfl := Option.some.inj h
      rfl
    · obtain rfl := Option.some.inj h
      rfl

theorem mem_of_ofWays {r : Resolution} (h : ofWays d ways = some r) {alt : Ordinal}
    (halt : alt ∈ r.alternatives) : alt ∈ ways.map (·.1) := by
  rw [alternatives_ofWays h] at halt
  obtain ⟨c, hc, rfl⟩ := List.mem_map.mp halt
  exact (Candidate.mem_ofWays.mp hc).1

/-- Some candidate has a guard where guards decide. -/
theorem exists_guard_of_predicated {cs : List Candidate} (h : ofWays d ways = some (.predicated cs)) :
    cs = Candidate.ofWays d ways ∧ ∃ c ∈ cs, c.guard ≠ none := by
  unfold ofWays at h
  split at h
  · exact nomatch h
  · exact nomatch Option.some.inj h
  · next first rest _ hc =>
    split at h
    · exact nomatch Option.some.inj h
    · next hall =>
      obtain rfl := Resolution.predicated.inj (Option.some.inj h)
      refine ⟨hc.symm, ?_⟩
      rw [List.all_eq_true] at hall
      refine Classical.byContradiction fun hnone => hall fun c hc => ?_
      by_cases hguard : c.guard = none
      · rw [hguard]
        rfl
      · exact absurd ⟨c, hc, hguard⟩ hnone

theorem ofWays_eq_none_iff : ofWays d ways = none ↔ Candidate.ofWays d ways = [] := by
  unfold ofWays
  split
  · next h => simp [h]
  · next h => simp [h]
  · next h =>
    rw [h]
    split <;> simp

/-- A way whose guard can be true decides something. -/
theorem isSome_ofWays {alt : Ordinal} {g : Guard} (hway : (alt, g) ∈ ways)
    {v : PredicateId → Bool} (hv : g.under v = true) : (ofWays d ways).isSome := by
  rw [Option.isSome_iff_ne_none, ne_eq, ofWays_eq_none_iff]
  intro hnil
  have hguard : guardTo ways alt ≠ .never := fun h => by
    have := under_guardTo.mpr ⟨g, hway, hv⟩
    rw [h] at this
    exact nomatch this
  have hmem : (⟨alt, if (guardTo ways alt).isAlways then none else some (guardTo ways alt),
      d.exit? == some alt⟩ : Candidate) ∈ Candidate.ofWays d ways :=
    Candidate.mem_ofWays.mpr ⟨List.mem_map.mpr ⟨_, hway, rfl⟩, hguard, rfl, rfl⟩
  rw [hnil] at hmem
  exact nomatch hmem

end Resolution
end Lookahead
