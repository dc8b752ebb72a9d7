import Lookahead.Proofs.Closure.Exact

/-! Closures under a higher recursion limit.

The limit decides only whether a call is entered or fails. A closure that enters every call
that it comes to therefore moves in the same way under any higher limit, visits the same
ways in the same order, and ends with the same configurations. -/
namespace Lookahead

/-- The same terrain with another recursion limit. -/
def Terrain.withLimit (t : Terrain) (limit : Nat) : Terrain := { t with maxRecursionDepth := limit }

@[simp] theorem Terrain.network_withLimit (t : Terrain) (limit : Nat) :
    (t.withLimit limit).network = t.network := rfl

@[simp] theorem Terrain.maxRecursionDepth_withLimit (t : Terrain) (limit : Nat) :
    (t.withLimit limit).maxRecursionDepth = limit := rfl

variable {t : Terrain} {limit : Nat}

theorem Terrain.Sound.withLimit (sound : t.Sound) (limit : Nat) : (t.withLimit limit).Sound :=
  ⟨sound.closed, sound.numbered⟩

/-! Runs do not look at the limit. -/

theorem Move.withLimit {p q : Position} {ps : List Passage} (h : Move t p ps q) (limit : Nat) :
    Move (t.withLimit limit) p ps q := by
  cases h with
  | silent he => exact .silent he
  | action he => exact .action he
  | symbol he hx => exact .symbol he hx
  | predicate he hopen => exact .predicate he hopen
  | call he => exact .call he
  | back hstop => exact .back hstop
  | onward hstop hf => exact .onward hstop hf

theorem Run.withLimit {p q : Position} {ps : List Passage} (h : Run t p ps q) (limit : Nat) :
    Run (t.withLimit limit) p ps q := by
  induction h with
  | refl => exact .refl
  | tail _ move ih => exact ih.tail (move.withLimit limit)

theorem LookaheadRun.withLimit {d : DecisionId} {alt : Ordinal} {ps : List Passage} {q : Position}
    (h : LookaheadRun t d alt ps q) (limit : Nat) :
    LookaheadRun (t.withLimit limit) d alt ps q := by
  obtain ⟨entry, hpos, hentry, hrun⟩ := h
  exact ⟨entry, hpos, hentry, hrun.withLimit limit⟩

namespace Way
variable {label : Type} {pass : PredicateId → label → Option label} {w : Way label}
  {ways visited : List (Way label)}

theorem along_withLimit (hlimit : t.maxRecursionDepth ≤ limit) {e : Edge}
    (h : w.along t pass e = .ok ways) : w.along (t.withLimit limit) pass e = .ok ways := by
  cases e with
  | call rule follow =>
    obtain ⟨hcount, rfl⟩ := along_call h
    exact if_neg (Nat.not_le_of_lt (Nat.lt_of_lt_of_le hcount hlimit))
  | _ => exact h

theorem alongAll_withLimit (hlimit : t.maxRecursionDepth ≤ limit) {es : List Edge}
    (h : w.alongAll t pass es = .ok ways) : w.alongAll (t.withLimit limit) pass es = .ok ways := by
  induction es generalizing ways with
  | nil => exact h
  | cons e es ih =>
    obtain ⟨found, later, he, hes, rfl⟩ := alongAll_cons_eq_ok.mp h
    exact alongAll_cons_eq_ok.mpr ⟨found, later, along_withLimit hlimit he, ih hes, rfl⟩

/-- A move that does not fail is the same under a higher limit. -/
theorem moves_withLimit (hlimit : t.maxRecursionDepth ≤ limit)
    (h : w.moves t pass = .ok ways) : w.moves (t.withLimit limit) pass = .ok ways := by
  rcases moves_cases h with ⟨rule, follow, stack, hstop, hstack, rfl⟩ |
    ⟨rule, hstop, hstack, rfl⟩ | ⟨hstop, hall⟩
  · simp [moves, hstop, hstack]
  · simp [moves, hstop, hstack]
  · simp [moves, hstop, alongAll_withLimit hlimit hall]

theorem bound_le_withLimit (hlimit : t.maxRecursionDepth ≤ limit) (exponent : Nat)
    (ways : List (Way label)) : bound t exponent ways ≤ bound (t.withLimit limit) exponent ways := by
  simp only [bound, Terrain.network_withLimit, Terrain.maxRecursionDepth_withLimit]
  gcongr

variable [DecidableEq label]

theorem Contained.reach_withLimit {exponent : Nat} {labels : Finset label}
    (hways : Contained t pass exponent labels ways) (hlimit : t.maxRecursionDepth ≤ limit)
    (h : reach t pass exponent ways = .ok visited) :
    reach (t.withLimit limit) pass exponent ways = .ok visited :=
  hways.suffices_bound.explore_eq_ok_of_le (fun _ _ => moves_withLimit hlimit)
    (bound_le_withLimit hlimit exponent ways) h

end Way

namespace Closure
variable {d : DecisionId} {configs : List Configuration}

/-- The closure of the entries of a decision is the same under a higher limit, unless it
fails. -/
theorem ofEntries_withLimit (sound : t.Sound) (hlimit : t.maxRecursionDepth ≤ limit)
    (h : ofEntries t (t.network.entriesOf d) = .ok configs) :
    ofEntries (t.withLimit limit) (t.network.entriesOf d) = .ok configs := by
  rw [ofEntries_eq sound] at h
  rw [ofEntries_eq (sound.withLimit limit)]
  obtain ⟨visited, hvisited, rfl⟩ := map_eq_ok_iff.mp h
  exact map_eq_ok_iff.mpr
    ⟨visited, (contained_entries sound d).reach_withLimit hlimit hvisited, rfl⟩

/-- So is the closure after a symbol. -/
theorem ofSteps_withLimit (sound : t.Sound) (hlimit : t.maxRecursionDepth ≤ limit)
    {ways : List (Way Conditions)} (hinside : ∀ w ∈ ways, w.position.Inside t.network)
    (h : ofSteps t ways = .ok configs) : ofSteps (t.withLimit limit) ways = .ok configs := by
  obtain ⟨visited, hvisited, rfl⟩ := map_eq_ok_iff.mp h
  exact map_eq_ok_iff.mpr
    ⟨visited, (contained_steps sound hinside).reach_withLimit hlimit hvisited, rfl⟩

end Closure
end Lookahead
