import Lookahead.Proofs.Closure.Exact
import Lookahead.Proofs.Guard.Conjunction

/-! Closures end.

The loop of a closure has no bound of its own (`Settles`). It ends because there are finitely
many ways: the recursion limit bounds the stacks, and conjoining predicates to the conditions
that the ways begin with makes finitely many conditions, however often a loop comes by a
predicate. So the bound that an exploration is given is never what stops it. -/
namespace Lookahead.Closure
variable {t : Terrain} {ways : List (Way Conditions)}

/-- The loop of a closure ends with this result. -/
def Settles {label : Type} [DecidableEq label] (t : Terrain)
    (pass : PredicateId → label → Option label) (ways : List (Way label))
    (result : Except RuleId (List (Way label))) : Prop :=
  ∃ n, steps (Frontier.advance (Way.moves t pass)) n ⟨ways.reverse, []⟩ = .done result

theorem settles_of_contained {label : Type} [DecidableEq label] {exponent : Nat}
    {labels : Finset label} {pass : PredicateId → label → Option label} {ways : List (Way label)}
    (h : Way.Contained t pass exponent labels ways) :
    Settles t pass ways (Way.reach t pass exponent ways) :=
  ⟨_, h.suffices_bound.steps_eq⟩

/-! ### Before the first symbol -/

theorem respects_hoist (t : Terrain) : Way.Respects t (hoist t) := by
  intro id c
  unfold hoist
  split <;> simp_all

/-- The leaves of all predicates, and what is in the conditions of some ways. -/
def operands (t : Terrain) (ways : List (Way Conditions)) : List Guard :=
  t.predicates.map .leaf ++
    Guard.conjunctsOf (ways.flatMap fun w => [w.label.context, w.label.gate])

theorem opened_operands (t : Terrain) (ways : List (Way Conditions)) :
    Guard.Opened (operands t ways) := by
  refine Guard.Opened.append (fun gs hgs => ?_) (Guard.opened_conjunctsOf _)
  simp at hgs

/-- The conditions that are conjunctions of some guards. -/
def conditionsFrom (known : List Guard) : Finset Conditions :=
  ((Guard.conjunctions known).toFinset ×ˢ (Guard.conjunctions known).toFinset).image
    fun c => ⟨c.1, c.2⟩

theorem mem_conditionsFrom {known : List Guard} {c : Conditions} :
    c ∈ conditionsFrom known ↔
      c.context ∈ Guard.conjunctions known ∧ c.gate ∈ Guard.conjunctions known := by
  obtain ⟨context, gate⟩ := c
  simp [conditionsFrom]

/-- Passing a predicate conjoins one of the operands. -/
theorem keepsIn_hoist (t : Terrain) (ways : List (Way Conditions)) :
    Way.KeepsIn (hoist t) t.predicates.length (conditionsFrom (operands t ways)) := by
  intro id c c' hid hc h
  obtain ⟨hcontext, hgate⟩ := mem_conditionsFrom.mp hc
  have hleaf : .leaf t.predicates[id] ∈ Guard.conjunctions (operands t ways) :=
    Guard.mem_conjunctions.mpr (.inr (.inr (.inl
      (List.mem_append_left _ (List.mem_map_of_mem (List.getElem_mem hid))))))
  have hand {g : Guard} (hg : g ∈ Guard.conjunctions (operands t ways)) :
      g.and (.leaf t.predicates[id]) ∈ Guard.conjunctions (operands t ways) :=
    Guard.allOf_mem_conjunctions (opened_operands t ways) (by simp [hg, hleaf])
  unfold hoist at h
  split at h
  · exact nomatch h
  · exact Option.some.inj h ▸ hc
  · rw [List.getElem?_eq_getElem hid, Option.map_some, Option.getD_some] at h
    obtain rfl := Option.some.inj h
    refine mem_conditionsFrom.mpr ⟨hand hcontext, ?_⟩
    show (if t.isGated id then c.gate.and _ else c.gate) ∈ _
    split
    · exact hand hgate
    · exact hgate

theorem contained_hoist (closed : t.network.Closed t.predicates.length)
    (hinside : ∀ w ∈ ways, w.position.Inside t.network) :
    Way.Contained t (hoist t) (conditionsFrom (operands t ways)).card
      (conditionsFrom (operands t ways)) ways where
  closed := closed
  respects := respects_hoist t
  keeps := keepsIn_hoist t ways
  card := Nat.le_of_lt Nat.lt_two_pow_self
  inside := hinside
  label w hw := by
    have hknown {g : Guard} (hg : g ∈ [w.label.context, w.label.gate]) :
        g ∈ Guard.conjunctions (operands t ways) :=
      Guard.mem_conjunctions.mpr (.inr (.inr (.inl (List.mem_append_right _
        (Guard.subset_conjunctsOf _ (List.mem_flatMap.mpr ⟨w, hw, hg⟩))))))
    exact mem_conditionsFrom.mpr ⟨hknown (.head _), hknown (.tail _ (.head _))⟩

/-- **Closures end**, from any ways and whether they hoist or not, after visiting some of finitely
many ways. -/
theorem exists_settles (sound : t.Sound) {pass : PredicateId → Conditions → Option Conditions}
    (hpass : pass = hoist t ∨ pass = passLater t)
    (hinside : ∀ w ∈ ways, w.position.Inside t.network) :
    ∃ (seeds : Finset (Way Conditions)) (result : Except RuleId (List (Way Conditions))),
      (∀ w, Reachable (Way.moves t pass) ways w → w ∈ seeds) ∧ Settles t pass ways result ∧
        Explored (Way.moves t pass) ways result := by
  have hcontained : ∃ exponent labels, Way.Contained t pass exponent labels ways := by
    rcases hpass with rfl | rfl
    · exact ⟨_, _, contained_hoist sound.closed hinside⟩
    · exact ⟨_, _, contained_steps sound hinside⟩
  obtain ⟨exponent, labels, hcontained⟩ := hcontained
  obtain ⟨seeds, _, hseeds, _⟩ := hcontained.suffices_bound
  exact ⟨seeds, _, hseeds, settles_of_contained hcontained, hcontained.explored_reach⟩

/-- The closure of the entries of a decision is not stopped by its bound. -/
theorem settles_entries (sound : t.Sound) (d : DecisionId) :
    let ways := (t.network.entriesOf d).mapIdx fun i node => ⟨i + 1, node, [], .none⟩
    Settles t (hoist t) ways (Way.reach t (hoist t) t.predicates.length ways) := by
  intro ways
  have hsuffices := (contained_entries sound d).suffices_bound
  have hsteps := (renames_conditionsOf sound).steps_eq (fun _ => label_mem_of_mem_entries) hsuffices
  rw [relabel_entries, ← bound_relabel t _ (conditionsOf t), relabel_entries] at hsteps
  exact ⟨_, hsteps⟩

/-- Nor is one after a symbol. -/
theorem settles_steps (sound : t.Sound) (hinside : ∀ w ∈ ways, w.position.Inside t.network) :
    Settles t (passLater t) ways (Way.reach t (passLater t) ways.length ways) :=
  settles_of_contained (contained_steps sound hinside)

end Lookahead.Closure
