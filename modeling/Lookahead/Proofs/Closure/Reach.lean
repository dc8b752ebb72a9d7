import Lookahead.Proofs.Closure.Places
import Mathlib.Tactic.GCongr
import Mathlib.Tactic.Ring

/-! What a closure reaches: the ends of the runs that read nothing. -/
namespace Lookahead.Way
variable {label : Type} {t : Terrain}
  {pass : PredicateId → label → Option label} {ways visited : List (Way label)} {w : Way label}

/-! ### The bound of a closure -/

theorem bound_suffices {places alts nodes times labels edges follows : Nat}
    (h : places ≤ alts * nodes * ((nodes + 1) ^ (nodes * times) * 2 ^ labels)) :
    alts + places * (edges + follows + 1 + 1) + 2 ≤
      2 ^ (nodes + 2 * alts + nodes * nodes * times + labels + edges + follows + 2) := by
  have hnodes : nodes + 1 ≤ 2 ^ nodes := Nat.lt_two_pow_self
  have halts : alts ≤ 2 ^ alts := Nat.le_of_lt Nat.lt_two_pow_self
  have hwidth : edges + follows + 1 + 1 ≤ 2 ^ (edges + follows + 1) := Nat.lt_two_pow_self
  have hfew : alts + 2 ≤ 2 ^ (alts + 1) := Nat.lt_two_pow_self
  obtain ⟨total, htotal⟩ :
      ∃ total, total = alts + nodes + nodes * nodes * times + labels + edges + follows + 1 :=
    ⟨_, rfl⟩
  have hplaces : places * (edges + follows + 1 + 1) ≤ 2 ^ total := by
    calc places * (edges + follows + 1 + 1)
        ≤ alts * nodes * ((nodes + 1) ^ (nodes * times) * 2 ^ labels) *
            (edges + follows + 1 + 1) := Nat.mul_le_mul_right _ h
      _ ≤ 2 ^ alts * 2 ^ nodes * ((2 ^ nodes) ^ (nodes * times) * 2 ^ labels) *
            2 ^ (edges + follows + 1) := by
          gcongr
          omega
      _ = 2 ^ total := by
          rw [← pow_mul, ← pow_add, ← pow_add, ← pow_add, ← pow_add]
          congr 1
          rw [htotal]
          ring
  have hfew' : 2 ^ (alts + 1) ≤ 2 ^ total := Nat.pow_le_pow_right (by decide) (by omega)
  calc alts + places * (edges + follows + 1 + 1) + 2
      ≤ 2 ^ total + 2 ^ total := by omega
    _ = 2 ^ (total + 1) := by rw [Nat.pow_succ, Nat.mul_two]
    _ ≤ 2 ^ (nodes + 2 * alts + nodes * nodes * times + labels + edges + follows + 2) :=
        Nat.pow_le_pow_right (by decide) (by omega)

theorem le_foldl_max {n : Nat} {ns : List Nat} (h : n ∈ ns) : n ≤ ns.foldl max 0 := by
  have hall : ∀ (ns : List Nat) (start : Nat), start ≤ ns.foldl max start ∧
      ∀ n ∈ ns, n ≤ ns.foldl max start := by
    intro ns
    induction ns with
    | nil => exact fun start => ⟨Nat.le_refl _, nofun⟩
    | cons m ns ih =>
      intro start
      obtain ⟨hstart, hns⟩ := ih (max start m)
      rw [List.foldl_cons]
      refine ⟨by omega, fun n hn => ?_⟩
      rcases List.mem_cons.mp hn with rfl | hn
      · omega
      · exact hns n hn
  exact (hall ns 0).2 n h

/-- How many ways one move finds. -/
theorem length_le_of_moves (h : w.moves t pass = .ok ways) (hw : w.node < t.network.size) :
    ways.length ≤
      ((List.range t.network.size).map fun n => (t.network.edgesOf n).length).foldl (· + ·) 0 +
        (t.network.follows.toList.map List.length).foldl (· + ·) 0 + 1 := by
  rw [← List.sum_eq_foldl_nat, ← List.sum_eq_foldl_nat]
  rcases moves_cases h with ⟨rule, follow, stack, _, _, rfl⟩ | ⟨rule, _, _, rfl⟩ | ⟨_, hall⟩
  · exact Nat.le_add_left _ _
  · rw [List.length_map]
    cases hf : t.network.follows[rule]? with
    | none => simp [Network.followsOf, hf]
    | some follows =>
      have hmem : follows.length ∈ t.network.follows.toList.map List.length :=
        List.mem_map_of_mem (Array.mem_toList_iff.mpr (Array.mem_of_getElem? hf))
      have := List.le_sum_of_mem hmem
      simp only [Network.followsOf, hf, Option.getD_some]
      omega
  · have hlength := length_alongAll_le hall
    have hmem : (t.network.edgesOf w.node).length ∈
        (List.range t.network.size).map fun n => (t.network.edgesOf n).length :=
      List.mem_map.mpr ⟨w.node, List.mem_range.mpr hw, rfl⟩
    have := List.le_sum_of_mem hmem
    omega

/-! ### What is reached -/

/-- What the bound of a closure relies on: ways inside a closed network, whose labels stay
in `labels`. -/
structure Contained (t : Terrain) (pass : PredicateId → label → Option label) (exponent : Nat)
    (labels : Finset label) (ways : List (Way label)) : Prop where
  closed : t.network.Closed t.predicates.length
  respects : Respects t pass
  keeps : KeepsIn pass t.predicates.length labels
  card : labels.card ≤ 2 ^ exponent
  inside : ∀ w ∈ ways, w.position.Inside t.network
  label : ∀ w ∈ ways, w.label ∈ labels

variable {exponent : Nat} {labels : Finset label}

section
variable [DecidableEq label]

/-- The bound of a closure allows for all ways that it can reach. -/
theorem Contained.suffices_bound (h : Contained t pass exponent labels ways) :
    Suffices (moves t pass) (bound t exponent ways) ways := by
  let longest := (ways.map (·.stack.length)).foldl max 0
  let alts := (ways.map (·.alt)).toFinset
  have hconfined : ∀ w, Reachable (moves t pass) ways w →
      Confined t alts (t.maxRecursionDepth + longest) labels w := by
    rintro w ⟨s, hs, hsw⟩
    induction hsw with
    | refl =>
      refine ⟨List.mem_toFinset.mpr (List.mem_map_of_mem hs), h.inside s hs, fun m => ?_,
        h.label s hs⟩
      have := le_foldl_max (List.mem_map_of_mem (f := fun w : Way label => w.stack.length) hs)
      exact Nat.le_trans List.count_le_length (Nat.le_trans this (Nat.le_add_left _ _))
    | tail _ hfound ih => exact ih.found h.closed h.respects h.keeps (Nat.le_add_right _ _) hfound
  have hplaces : (places t alts (t.maxRecursionDepth + longest) labels).card ≤
      ways.length * t.network.size * ((t.network.size + 1) ^
        (t.network.size * (t.maxRecursionDepth + longest)) * 2 ^ exponent) := by
    have halts : alts.card ≤ ways.length := by
      simpa using List.toFinset_card_le (ways.map (·.alt))
    have hcard := h.card
    refine Nat.le_trans (card_places_le _ _ _ _) ?_
    gcongr
  exact ⟨_, _, fun w hw => (hconfined w hw).mem_places,
    fun w found hw hfound => length_le_of_moves hfound (hconfined w hw).inside.1,
    bound_suffices hplaces⟩

/-- A closure comes to an end: it is exact, or fails where some way that it can reach
fails. -/
theorem Contained.explored_reach (h : Contained t pass exponent labels ways) :
    Explored (moves t pass) ways (reach t pass exponent ways) :=
  explored h.suffices_bound

end

/-- What visits find is where runs that read nothing come to. -/
theorem run_of_reachable (respects : Respects t pass) (h : Reachable (moves t pass) ways w) :
    ∃ s ∈ ways, w.alt = s.alt ∧ ∃ ps, Run t s.position ps w.position ∧
      Passage.symbols ps = [] ∧ carry pass ps s.label = some w.label := by
  obtain ⟨s, hs, hsw⟩ := h
  refine ⟨s, hs, ?_⟩
  induction hsw with
  | refl => exact ⟨rfl, [], .refl, rfl, rfl⟩
  | tail _ hfound ih =>
    obtain ⟨halt, ps, hrun, hsymbols, hcarry⟩ := ih
    obtain ⟨halt', qs, hmove, hsymbols', hcarry'⟩ := leads_of_found respects hfound
    refine ⟨halt'.trans halt, ps ++ qs, hrun.tail hmove, ?_, ?_⟩
    · rw [Passage.symbols_append, hsymbols, hsymbols']
      rfl
    · rw [carry_append, hcarry]
      exact hcarry'

/-- Where moving never fails, visits find all that runs come to that read nothing. -/
theorem reachable_of_run {count : Nat} (closed : t.network.Closed count)
    (hmoves : ∀ w, Reachable (moves t pass) ways w → ∃ found, w.moves t pass = .ok found)
    {s : Way label} (hs : s ∈ ways) {q : Position} {ps : List Passage}
    (hrun : Run t s.position ps q) (hsymbols : Passage.symbols ps = []) {l : label}
    (hcarry : carry pass ps s.label = some l) :
    Reachable (moves t pass) ways ⟨s.alt, q.node, q.stack, l⟩ := by
  induction hrun generalizing l with
  | refl =>
    obtain rfl := Option.some.inj hcarry
    exact .start hs
  | @tail ps q qs r _ hmove ih =>
    rw [Passage.symbols_append, List.append_eq_nil_iff] at hsymbols
    rw [carry_append] at hcarry
    obtain ⟨l', hl', hcarry'⟩ := Option.bind_eq_some_iff.mp hcarry
    have hreach := ih hsymbols.1 hl'
    obtain ⟨found, hfound⟩ := hmoves _ hreach
    exact hreach.step (found_of_leads closed hfound ⟨rfl, qs, hmove, hsymbols.2, hcarry'⟩)

/-- Without failing, a closure reaches exactly what runs that read nothing come to. -/
theorem Contained.mem_reach_iff [DecidableEq label] (hways : Contained t pass exponent labels ways)
    (h : reach t pass exponent ways = .ok visited) :
    w ∈ visited ↔ ∃ s ∈ ways, w.alt = s.alt ∧ ∃ ps, Run t s.position ps w.position ∧
      Passage.symbols ps = [] ∧ carry pass ps s.label = some w.label := by
  have hexplored := hways.explored_reach
  rw [h] at hexplored
  obtain ⟨_, hmem, hmoves⟩ := hexplored
  rw [hmem]
  constructor
  · exact run_of_reachable hways.respects
  · rintro ⟨s, hs, halt, ps, hrun, hsymbols, hcarry⟩
    have hreach := reachable_of_run hways.closed (fun w hw => hmoves w ((hmem w).mpr hw)) hs hrun
      hsymbols hcarry
    rw [← halt] at hreach
    exact hreach

end Lookahead.Way
