import Lookahead.Proofs.Exploration
import Lookahead.Proofs.Run.Basic

/-! The moves of the closure are the steps of a run that read no symbol.

A way is a position with an alternative and a label. `carry` says what a label becomes
along what a run passes. A way moves to exactly those ways whose positions one step leads
to, unless a call among the steps has been open too often. -/
namespace Lookahead.Way
variable {label : Type} {t : Terrain} {pass : PredicateId → label → Option label}
  {w w' : Way label}

def position (w : Way label) : Position := ⟨w.node, w.stack⟩

/-- What passing the predicates among some passages makes of a label. -/
def carry (pass : PredicateId → label → Option label) : List Passage → label → Option label
  | [], l => some l
  | .symbol _ :: ps, l => carry pass ps l
  | .predicate id :: ps, l => (pass id l).bind (carry pass ps)

theorem carry_append (ps qs : List Passage) (l : label) :
    carry pass (ps ++ qs) l = (carry pass ps l).bind (carry pass qs) := by
  induction ps generalizing l with
  | nil => rfl
  | cons p ps ih =>
    cases p with
    | symbol x => exact ih l
    | predicate id =>
      simp only [List.cons_append, carry]
      cases pass id l with
      | none => rfl
      | some l => exact ih l

/-- Exactly the gates that are known to be closed let no way pass. -/
def Respects (t : Terrain) (pass : PredicateId → label → Option label) : Prop :=
  ∀ id l, pass id l = none ↔ t.gateValue id = some false

/-- One step that reads nothing leads from a way to another one of its alternative. -/
def Leads (t : Terrain) (pass : PredicateId → label → Option label) (w w' : Way label) : Prop :=
  w'.alt = w.alt ∧ ∃ ps, Move t w.position ps w'.position ∧ Passage.symbols ps = [] ∧
    carry pass ps w.label = some w'.label

/-! ### Along the edges of a node -/

/-- A call is entered unless it is open too often. -/
theorem along_call {rule : RuleId} {follow : NodeId} {ways : List (Way label)}
    (h : w.along t pass (.call rule follow) = .ok ways) :
    w.stack.count follow < t.maxRecursionDepth ∧
      ways = [{ w with node := Network.start rule, stack := follow :: w.stack }] := by
  by_cases hcount : t.maxRecursionDepth ≤ w.stack.count follow
  · simp [along, hcount] at h
  · rw [along, if_neg hcount] at h
    exact ⟨Nat.lt_of_not_le hcount, (Except.ok.inj h).symm⟩

/-- What an edge can lead to. -/
theorem along_cases {e : Edge} {ways : List (Way label)} (h : w.along t pass e = .ok ways)
    (hw : w' ∈ ways) :
    (∃ target, (e = .silent target ∨ e = .action target) ∧
      w' = { w with node := target }) ∨
    (∃ id target l, e = .predicate id target ∧ pass id w.label = some l ∧
      w' = { w with node := target, label := l }) ∨
    ∃ rule follow, e = .call rule follow ∧ w.stack.count follow < t.maxRecursionDepth ∧
      w' = { w with node := Network.start rule, stack := follow :: w.stack } := by
  cases e with
  | silent target =>
    obtain rfl := Except.ok.inj h
    exact .inl ⟨target, .inl rfl, List.mem_singleton.mp hw⟩
  | action target =>
    obtain rfl := Except.ok.inj h
    exact .inl ⟨target, .inr rfl, List.mem_singleton.mp hw⟩
  | symbols set target =>
    obtain rfl := Except.ok.inj h
    exact nomatch hw
  | predicate id target =>
    obtain rfl := Except.ok.inj h
    obtain ⟨l, hl, rfl⟩ := List.mem_map.mp hw
    exact .inr (.inl ⟨id, target, l, rfl, Option.mem_toList.mp hl, rfl⟩)
  | call rule follow =>
    obtain ⟨hcount, rfl⟩ := along_call h
    exact .inr (.inr ⟨rule, follow, rfl, hcount, List.mem_singleton.mp hw⟩)

theorem length_along_le {e : Edge} {ways : List (Way label)} (h : w.along t pass e = .ok ways) :
    ways.length ≤ 1 := by
  cases e with
  | silent | action | symbols =>
    obtain rfl := Except.ok.inj h
    simp
  | predicate id target =>
    obtain rfl := Except.ok.inj h
    cases pass id w.label <;> simp
  | call rule follow =>
    obtain ⟨_, rfl⟩ := along_call h
    exact Nat.le_refl _

/-- All edges are followed if the first one is and the others are. -/
theorem alongAll_cons_eq_ok {e : Edge} {es : List Edge} {ways : List (Way label)} :
    w.alongAll t pass (e :: es) = .ok ways ↔ ∃ found later, w.along t pass e = .ok found ∧
      w.alongAll t pass es = .ok later ∧ ways = found ++ later := by
  rw [alongAll]
  cases w.along t pass e with
  | error rule => exact ⟨nofun, fun ⟨_, _, h, _⟩ => nomatch h⟩
  | ok found =>
    cases w.alongAll t pass es with
    | error rule => exact ⟨nofun, fun ⟨_, _, _, h, _⟩ => nomatch h⟩
    | ok later => simp [Except.map, eq_comm]

/-- The first edge that fails is the one that all fail with. -/
theorem alongAll_cons_eq_error {e : Edge} {es : List Edge} {rule : RuleId} :
    w.alongAll t pass (e :: es) = .error rule ↔ w.along t pass e = .error rule ∨
      ∃ found, w.along t pass e = .ok found ∧ w.alongAll t pass es = .error rule := by
  rw [alongAll]
  cases w.along t pass e with
  | error rule' => simp
  | ok found => cases w.alongAll t pass es <;> simp [Except.map]

theorem mem_alongAll {es : List Edge} {ways : List (Way label)}
    (h : w.alongAll t pass es = .ok ways) :
    w' ∈ ways ↔ ∃ e ∈ es, ∃ found, w.along t pass e = .ok found ∧ w' ∈ found := by
  induction es generalizing ways with
  | nil =>
    obtain rfl := Except.ok.inj h
    exact ⟨nofun, fun ⟨_, he, _⟩ => nomatch he⟩
  | cons e es ih =>
    obtain ⟨found, later, he, hes, rfl⟩ := alongAll_cons_eq_ok.mp h
    rw [List.mem_append, ih hes]
    constructor
    · rintro (hw | ⟨e', he', hw⟩)
      · exact ⟨e, .head _, found, he, hw⟩
      · exact ⟨e', .tail _ he', hw⟩
    · rintro ⟨e', he', found', hfound', hw⟩
      rcases List.mem_cons.mp he' with rfl | he'
      · obtain rfl := Except.ok.inj (he.symm.trans hfound')
        exact .inl hw
      · exact .inr ⟨e', he', found', hfound', hw⟩

theorem exists_along_of_alongAll {es : List Edge} {ways : List (Way label)}
    (h : w.alongAll t pass es = .ok ways) {e : Edge} (he : e ∈ es) :
    ∃ found, w.along t pass e = .ok found := by
  induction es generalizing ways with
  | nil => exact nomatch he
  | cons e' es ih =>
    obtain ⟨found, later, he', hes, _⟩ := alongAll_cons_eq_ok.mp h
    rcases List.mem_cons.mp he with rfl | he
    · exact ⟨found, he'⟩
    · exact ih hes he

theorem length_alongAll_le {es : List Edge} {ways : List (Way label)}
    (h : w.alongAll t pass es = .ok ways) : ways.length ≤ es.length := by
  induction es generalizing ways with
  | nil =>
    obtain rfl := Except.ok.inj h
    exact Nat.le_refl _
  | cons e es ih =>
    obtain ⟨found, later, he, hes, rfl⟩ := alongAll_cons_eq_ok.mp h
    have hfound := length_along_le he
    have hlater := ih hes
    simp only [List.length_append, List.length_cons]
    omega

/-! ### Moves and steps -/

/-- What one move can do. -/
theorem moves_cases {ways : List (Way label)} (h : w.moves t pass = .ok ways) :
    (∃ rule follow stack, t.network.stopOf? w.node = some rule ∧ w.stack = follow :: stack ∧
      ways = [{ w with node := follow, stack := stack }]) ∨
    (∃ rule, t.network.stopOf? w.node = some rule ∧ w.stack = [] ∧
      ways = (t.network.followsOf rule).map fun follow => { w with node := follow }) ∨
    t.network.stopOf? w.node = none ∧ w.alongAll t pass (t.network.edgesOf w.node) = .ok ways := by
  unfold moves at h
  split at h
  · next rule follow stack hstop hstack =>
    exact .inl ⟨rule, follow, stack, hstop, hstack, (Except.ok.inj h).symm⟩
  · next rule hstop hstack => exact .inr (.inl ⟨rule, hstop, hstack, (Except.ok.inj h).symm⟩)
  · next hstop => exact .inr (.inr ⟨hstop, h⟩)

/-- A way that is found is one step further. -/
theorem leads_of_found (respects : Respects t pass) (h : Found (moves t pass) w w') :
    Leads t pass w w' := by
  obtain ⟨ways, hways, hw⟩ := h
  obtain ⟨alt, node, stack, l⟩ := w
  rcases moves_cases hways with ⟨rule, follow, stack, hstop, hstack, rfl⟩ |
    ⟨rule, hstop, hstack, rfl⟩ | ⟨_, hall⟩
  · obtain rfl := List.mem_singleton.mp hw
    simp only at hstack
    subst hstack
    exact ⟨rfl, [], .back hstop, rfl, rfl⟩
  · obtain ⟨follow, hf, rfl⟩ := List.mem_map.mp hw
    simp only at hstack
    subst hstack
    exact ⟨rfl, [], .onward hstop hf, rfl, rfl⟩
  · obtain ⟨e, he, found, hfound, hw⟩ := (mem_alongAll hall).mp hw
    rcases along_cases hfound hw with ⟨target, rfl | rfl, rfl⟩ |
      ⟨id, target, l', rfl, hl, rfl⟩ | ⟨rule, follow, rfl, _, rfl⟩
    · exact ⟨rfl, [], .silent he, rfl, rfl⟩
    · exact ⟨rfl, [], .action he, rfl, rfl⟩
    · have hopen : t.gateValue id ≠ some false := fun hv => by
        rw [(respects id l).mpr hv] at hl
        exact nomatch hl
      exact ⟨rfl, [.predicate id], .predicate he hopen, rfl, by simp only [carry, hl]; rfl⟩
    · exact ⟨rfl, [], .call he, rfl, rfl⟩

/-- A step is found, where moving does not fail. -/
theorem found_of_leads {count : Nat} (closed : t.network.Closed count)
    {ways : List (Way label)} (hways : w.moves t pass = .ok ways) (h : Leads t pass w w') :
    Found (moves t pass) w w' := by
  refine ⟨ways, hways, ?_⟩
  obtain ⟨alt, node, stack, l⟩ := w
  obtain ⟨alt', node', stack', l'⟩ := w'
  obtain ⟨halt, ps, hmove, hsymbols, hcarry⟩ := h
  simp only [position] at halt hmove hcarry
  subst halt
  have hedge {e : Edge} (he : e ∈ t.network.edgesOf node) :
      (⟨alt', node, stack, l⟩ : Way label).alongAll t pass (t.network.edgesOf node) = .ok ways := by
    rcases moves_cases hways with ⟨rule, _, _, hstop, _⟩ | ⟨rule, hstop, _⟩ | ⟨_, hall⟩
    · rw [closed.stop _ _ hstop] at he
      exact nomatch he
    · rw [closed.stop _ _ hstop] at he
      exact nomatch he
    · exact hall
  cases hmove with
  | silent he =>
    obtain rfl := Option.some.inj hcarry
    exact (mem_alongAll (hedge he)).mpr ⟨_, he, _, rfl, .head _⟩
  | action he =>
    obtain rfl := Option.some.inj hcarry
    exact (mem_alongAll (hedge he)).mpr ⟨_, he, _, rfl, .head _⟩
  | symbol => exact nomatch hsymbols
  | @predicate _ id _ _ he =>
    refine (mem_alongAll (hedge he)).mpr ⟨_, he, _, rfl, ?_⟩
    have hl : pass id l = some l' := by
      cases hp : pass id l with
      | none => simp [carry, hp] at hcarry
      | some l'' => simpa [carry, hp] using hcarry
    exact List.mem_map.mpr ⟨l', Option.mem_toList.mpr hl, rfl⟩
  | @call _ rule follow _ he =>
    obtain rfl := Option.some.inj hcarry
    obtain ⟨found, hfound⟩ := exists_along_of_alongAll (hedge he) he
    obtain ⟨_, rfl⟩ := along_call hfound
    exact (mem_alongAll (hedge he)).mpr ⟨_, he, _, hfound, .head _⟩
  | @back _ rule _ _ hstop =>
    obtain rfl := Option.some.inj hcarry
    rcases moves_cases hways with ⟨_, _, _, _, hstack, rfl⟩ | ⟨_, _, hstack, _⟩ | ⟨hnone, _⟩
    · obtain ⟨rfl, rfl⟩ := List.cons.inj hstack
      exact .head _
    · exact nomatch hstack
    · rw [hnone] at hstop
      exact nomatch hstop
  | @onward _ rule _ hstop hf =>
    obtain rfl := Option.some.inj hcarry
    rcases moves_cases hways with ⟨_, _, _, _, hstack, _⟩ | ⟨rule', hstop', _, rfl⟩ | ⟨hnone, _⟩
    · exact nomatch hstack
    · obtain rfl := Option.some.inj (hstop.symm.trans hstop')
      exact List.mem_map.mpr ⟨_, hf, rfl⟩
    · rw [hnone] at hstop
      exact nomatch hstop

end Lookahead.Way
