import Lookahead.Automaton.Cycle
import Lookahead.Iteration.Lemmas
import Mathlib.Algebra.BigOperators.Group.Finset.Basic
import Mathlib.Algebra.Order.BigOperators.Group.Finset
import Mathlib.Data.List.Chain
import Mathlib.Logic.Relation

/-! The search for a cycle finds one exactly if there is one.

The open states are the states of the path, each one leads to the next inner one, and
the transitions that have been taken lead further in or to states that are done
(`Sound`). So a transition to an open state closes a cycle. A state that is done has
only such successors, and none of them was open when it was left, so it lies on no
cycle. Each step uses up one start, one transition or one visit (`left`), so a search
ends. -/
namespace Lookahead

/-- A transition leads from one state to another. -/
def Links (states : Array State) (i j : StateId) : Prop :=
  ∃ state, states[i]? = some state ∧ ∃ t ∈ state.transitions, t.target = j

namespace CycleSearch

/-- What a step can do. -/
inductive Advances (states : Array State) :
    CycleSearch → Step CycleSearch (Except StateId Bool) → Prop where
  | finished {root marks} (h : states.size ≤ root) :
    Advances states ⟨root, [], marks⟩ (.done (.ok false))
  | lostRoot {root marks} (h : root < states.size) (hm : marks[root]? = none) :
    Advances states ⟨root, [], marks⟩ (.done (.error root))
  | begin {root marks} (h : root < states.size) (hm : marks[root]? = some .new) :
    Advances states ⟨root, [], marks⟩
      (.more ⟨root + 1, [⟨root, 0⟩], marks.setIfInBounds root .opened⟩)
  | skip {root marks m} (h : root < states.size) (hm : marks[root]? = some m) (hne : m ≠ .new) :
    Advances states ⟨root, [], marks⟩ (.more ⟨root + 1, [], marks⟩)
  | lostState {root id taken path marks} (hs : states[id]? = none) :
    Advances states ⟨root, ⟨id, taken⟩ :: path, marks⟩ (.done (.error id))
  | leave {root id taken path marks state}
    (hs : states[id]? = some state) (ht : state.transitions.length ≤ taken) :
    Advances states ⟨root, ⟨id, taken⟩ :: path, marks⟩
      (.more ⟨root, path, marks.setIfInBounds id .done⟩)
  | lostTarget {root id taken path marks state t}
    (hs : states[id]? = some state) (ht : state.transitions[taken]? = some t)
    (hm : marks[t.target]? = none) :
    Advances states ⟨root, ⟨id, taken⟩ :: path, marks⟩ (.done (.error t.target))
  | close {root id taken path marks state t}
    (hs : states[id]? = some state) (ht : state.transitions[taken]? = some t)
    (hm : marks[t.target]? = some .opened) :
    Advances states ⟨root, ⟨id, taken⟩ :: path, marks⟩ (.done (.ok true))
  | descend {root id taken path marks state t}
    (hs : states[id]? = some state) (ht : state.transitions[taken]? = some t)
    (hm : marks[t.target]? = some .new) :
    Advances states ⟨root, ⟨id, taken⟩ :: path, marks⟩
      (.more ⟨root, ⟨t.target, 0⟩ :: ⟨id, taken + 1⟩ :: path,
        marks.setIfInBounds t.target .opened⟩)
  | pass {root id taken path marks state t}
    (hs : states[id]? = some state) (ht : state.transitions[taken]? = some t)
    (hm : marks[t.target]? = some .done) :
    Advances states ⟨root, ⟨id, taken⟩ :: path, marks⟩
      (.more ⟨root, ⟨id, taken + 1⟩ :: path, marks⟩)

variable {states : Array State} {root id taken : Nat} {path : List Visit} {marks : Array Mark}
  {state : State} {t : Transition} {m : Mark} {s s' : CycleSearch}

theorem advances_advance (states : Array State) (s : CycleSearch) :
    Advances states s (advance states s) := by
  obtain ⟨root, path, marks⟩ := s
  cases path with
  | nil =>
    by_cases h : root < states.size
    · simp only [advance, h, if_true]
      split
      · next hm => exact .lostRoot h hm
      · next hm => exact .begin h hm
      · next hm => exact .skip h hm nofun
      · next hm => exact .skip h hm nofun
    · simp only [advance, h, if_false]
      exact .finished (Nat.not_lt.mp h)
  | cons v path =>
    obtain ⟨id, taken⟩ := v
    simp only [advance]
    split
    · next hs => exact .lostState hs
    · next state hs =>
      split
      · next ht => exact .leave hs (List.getElem?_eq_none_iff.mp ht)
      · next t ht =>
        split
        · next hm => exact .lostTarget hs ht hm
        · next hm => exact .close hs ht hm
        · next hm => exact .descend hs ht hm
        · next hm => exact .pass hs ht hm

/-! ### What holds of every search -/

/-- The states of the path, the innermost one first. -/
def trail (path : List Visit) : List StateId := path.map (·.state)

/-- What a search keeps. -/
structure Sound (states : Array State) (s : CycleSearch) : Prop where
  size : s.marks.size = states.size
  opened : ∀ id, s.marks[id]? = some .opened ↔ id ∈ trail s.path
  nodup : (trail s.path).Nodup
  chain : (trail s.path).IsChain fun j i => Links states i j
  /-- A transition that has been taken leads further in, or to a state that is done. -/
  taken : ∀ inner v outer, s.path = inner ++ v :: outer → ∀ i < v.taken, ∀ state t,
    states[v.state]? = some state → state.transitions[i]? = some t →
      s.marks[t.target]? = some .done ∨ t.target ∈ trail inner
  closed : ∀ i j, s.marks[i]? = some .done → Links states i j → s.marks[j]? = some .done
  acyclic : ∀ i, s.marks[i]? = some .done → ¬ Relation.TransGen (Links states) i i
  roots : ∀ i < s.root, s.marks[i]? ≠ some .new

theorem sound_start (states : Array State) : Sound states (.start states.size) where
  size := by simp [start]
  opened id := by simp [start, trail, Array.getElem?_replicate]
  nodup := .nil
  chain := .nil
  taken inner v outer h := by simp [start] at h
  closed i j h := by simp [start, Array.getElem?_replicate] at h
  acyclic i h := by simp [start, Array.getElem?_replicate] at h
  roots i h := by simp [start] at h

/-- Setting the mark of a state leaves all others. -/
theorem getElem?_set (h : marks[id]? = some m) (m' : Mark) (j : StateId) :
    (marks.setIfInBounds id m')[j]? = if id = j then some m' else marks[j]? := by
  have hlt : id < marks.size := (Array.getElem?_eq_some_iff.mp h).1
  simp [Array.getElem?_setIfInBounds, hlt]

/-- What is done leads only to what is done. -/
theorem Sound.done_of_reachable (h : Sound states s) {i j : StateId}
    (hi : s.marks[i]? = some .done) (hij : Relation.ReflTransGen (Links states) i j) :
    s.marks[j]? = some .done := by
  induction hij with
  | refl => exact hi
  | tail _ hlink ih => exact h.closed _ _ ih hlink

/-- A state that is new is entered from the path `path'`, which differs from the path so far
at most in what has been taken. -/
theorem Sound.enter (h : Sound states ⟨root, path, marks⟩) (hm : marks[id]? = some .new)
    {path' : List Visit} {root' : StateId} (hpath : trail path' = trail path)
    (hlink : ∀ i ∈ (trail path).head?, Links states i id)
    (htaken : ∀ inner v outer, path' = inner ++ v :: outer → ∀ i < v.taken, ∀ state t,
      states[v.state]? = some state → state.transitions[i]? = some t →
        marks[t.target]? = some .done ∨ t.target = id ∨ t.target ∈ trail inner)
    (hroots : ∀ i < root', i = id ∨ marks[i]? ≠ some .new) :
    Sound states ⟨root', ⟨id, 0⟩ :: path', marks.setIfInBounds id .opened⟩ := by
  have hset := getElem?_set hm .opened
  have hne (i : StateId) (hi : marks[i]? = some .done) : id ≠ i := by
    rintro rfl
    simp [hm] at hi
  have hnotin : id ∉ trail path := fun hmem => by
    have := (h.opened id).mpr hmem
    simp [hm] at this
  have hdone (i : StateId) :
      (marks.setIfInBounds id .opened)[i]? = some .done ↔ marks[i]? = some .done := by
    rw [hset]
    by_cases hi : id = i
    · simp [← hi, hm]
    · simp [hi]
  constructor
  · simpa using h.size
  · intro i
    show _ ↔ i ∈ id :: trail path'
    rw [hpath, hset, List.mem_cons, ← h.opened i]
    by_cases hi : id = i
    · simp [hi]
    · simp [hi, Ne.symm hi]
  · show (id :: trail path').Nodup
    rw [hpath]
    exact h.nodup.cons hnotin
  · show (id :: trail path').IsChain _
    rw [hpath]
    exact h.chain.cons hlink
  · intro inner v outer heq i hi state t hs ht
    cases inner with
    | nil =>
      obtain ⟨rfl, _⟩ := List.cons.inj heq
      exact absurd hi (Nat.not_lt_zero i)
    | cons w inner =>
      obtain ⟨rfl, hrest⟩ := List.cons.inj heq
      show _ ∨ t.target ∈ id :: trail inner
      rw [hdone, List.mem_cons]
      exact htaken inner v outer hrest i hi state t hs ht
  · intro i j hi hlink
    exact (hdone j).mpr (h.closed i j ((hdone i).mp hi) hlink)
  · intro i hi
    exact h.acyclic i ((hdone i).mp hi)
  · intro i hi
    simp only [hset]
    by_cases hid : id = i
    · simp [hid]
    · simpa [hid, Ne.symm hid] using hroots i hi

/-- Where one more transition is taken from the innermost state, it is the only one that may
lead to a state that is neither done nor further in. -/
theorem Sound.taken_next (h : Sound states ⟨root, ⟨id, taken⟩ :: path, marks⟩)
    (hs : states[id]? = some state) (ht : state.transitions[taken]? = some t) :
    ∀ inner v outer, ⟨id, taken + 1⟩ :: path = inner ++ v :: outer → ∀ i < v.taken, ∀ state' u,
      states[v.state]? = some state' → state'.transitions[i]? = some u →
        marks[u.target]? = some .done ∨ u.target = t.target ∨ u.target ∈ trail inner := by
  intro inner v outer heq i hi state' u hs' hu
  cases inner with
  | nil =>
    obtain ⟨rfl, rfl⟩ := List.cons.inj heq
    by_cases hlast : i = taken
    · obtain rfl := Option.some.inj (hs.symm.trans hs')
      rw [hlast, ht] at hu
      exact .inr (.inl (congrArg _ (Option.some.inj hu).symm))
    · have hlt : i < taken := by
        have : i < taken + 1 := hi
        omega
      have := h.taken [] ⟨id, taken⟩ path rfl i hlt state' u hs' hu
      simpa [trail] using this.imp_right fun hmem => absurd hmem (by simp [trail])
  | cons w inner =>
    obtain ⟨rfl, rfl⟩ := List.cons.inj heq
    exact (h.taken (⟨id, taken⟩ :: inner) v outer rfl i hi state' u hs' hu).imp_right .inr

/-- A state all of whose transitions have been taken lies on no cycle. -/
theorem Sound.leave (h : Sound states ⟨root, ⟨id, taken⟩ :: path, marks⟩)
    (hs : states[id]? = some state) (ht : state.transitions.length ≤ taken) :
    Sound states ⟨root, path, marks.setIfInBounds id .done⟩ := by
  have hm : marks[id]? = some .opened := (h.opened id).mpr (.head _)
  have hset := getElem?_set hm .done
  have hnodup : id ∉ trail path ∧ (trail path).Nodup := List.nodup_cons.mp h.nodup
  have hlinks (j : StateId) (hlink : Links states id j) : marks[j]? = some .done := by
    obtain ⟨state', hs', u, hu, rfl⟩ := hlink
    obtain rfl := Option.some.inj (hs.symm.trans hs')
    obtain ⟨i, hi, rfl⟩ := List.getElem_of_mem hu
    have := h.taken [] ⟨id, taken⟩ path rfl i (by show i < taken; omega) state _ hs
      (List.getElem?_eq_getElem hi)
    simpa [trail] using this
  have hdone (i : StateId) (hi : marks[i]? = some .done) :
      (marks.setIfInBounds id .done)[i]? = some .done := by
    rw [hset]
    split <;> simp [hi]
  constructor
  · simpa using h.size
  · intro i
    show _ ↔ i ∈ trail path
    rw [hset]
    by_cases hi : id = i
    · simp [← hi, hnodup.1]
    · have hopened : marks[i]? = some .opened ↔ i ∈ id :: trail path := h.opened i
      simpa [hi, Ne.symm hi] using hopened
  · exact hnodup.2
  · exact h.chain.tail
  · intro inner v outer heq i hi state' u hs' hu
    have hmem := h.taken (⟨id, taken⟩ :: inner) v outer (congrArg _ heq) i hi state' u hs' hu
    rcases hmem with hu' | hu'
    · exact .inl (hdone _ hu')
    · rcases List.mem_cons.mp hu' with heq | hu'
      · exact .inl (by simp [hset, heq])
      · exact .inr hu'
  · intro i j hi hlink
    simp only [hset] at hi
    by_cases hid : id = i
    · exact hdone j (hlinks j (hid ▸ hlink))
    · exact hdone j (h.closed i j (by simpa [hid] using hi) hlink)
  · intro i hi hcycle
    simp only [hset] at hi
    by_cases hid : id = i
    · -- Its successors were done while it was still open.
      subst hid
      obtain ⟨j, hlink, hback⟩ := Relation.TransGen.head'_iff.mp hcycle
      have := h.done_of_reachable (hlinks j hlink) hback
      simp [hm] at this
    · exact h.acyclic i (by simpa [hid] using hi) hcycle
  · intro i hi
    simp only [hset]
    split
    · simp
    · exact h.roots i hi

/-- **A step keeps the search sound.** -/
theorem Sound.advance (h : Sound states s) (hmore : advance states s = .more s') :
    Sound states s' := by
  have hstep := advances_advance states s
  rw [hmore] at hstep
  cases hstep with
  | @begin root marks _ hm =>
    refine h.enter hm rfl (by simp [trail]) (fun inner v outer heq => ?_) fun i hi => ?_
    · simp at heq
    · by_cases hlast : i = root
      · exact .inl hlast
      · exact .inr (h.roots i (by show i < root; lia))
  | @skip root marks m _ hm hne =>
    refine { h with roots := fun i hi => ?_ }
    by_cases hlast : i = root
    · simpa [hlast, hm] using hne
    · exact h.roots i (by show i < root; have : i < root + 1 := hi; lia)
  | leave hs ht => exact h.leave hs ht
  | descend hs ht hm =>
    refine h.enter hm rfl (fun i hi => ?_) (h.taken_next hs ht) fun i hi => .inr (h.roots i hi)
    obtain rfl := Option.some.inj hi
    exact ⟨_, hs, _, List.mem_of_getElem? ht, rfl⟩
  | pass hs ht hm =>
    refine { h with taken := fun inner v outer heq i hi state u hs' hu => ?_ }
    rcases h.taken_next hs ht inner v outer heq i hi state u hs' hu with hu | hu | hu
    · exact .inl hu
    · exact .inl (hu ▸ hm)
    · exact .inr hu

/-! ### What a search ends with -/

/-- From each state of the path the innermost one can be reached. -/
theorem reaches_of_isChain {ids : List StateId}
    (h : (id :: ids).IsChain fun j i => Links states i j) {i : StateId} (hi : i ∈ id :: ids) :
    Relation.ReflTransGen (Links states) i id := by
  induction ids generalizing id with
  | nil => simp_all [Relation.ReflTransGen.refl]
  | cons j ids ih =>
    obtain ⟨hlink, hrest⟩ := List.isChain_cons_cons.mp h
    rcases List.mem_cons.mp hi with rfl | hi
    · exact .refl
    · exact (ih hrest hi).tail hlink

/-- **A search that ends has the answer**: it looks up nothing that is not there, and tells
whether some state can be reached from itself. -/
theorem Sound.answer (h : Sound states s) (hrange : ∀ i j, Links states i j → j < states.size)
    {result : Except StateId Bool} (hdone : CycleSearch.advance states s = .done result) :
    ∃ found, result = .ok found ∧
      (found = true ↔ ∃ id, Relation.TransGen (Links states) id id) := by
  have hstep := advances_advance states s
  rw [hdone] at hstep
  have hmarked {i : StateId} {m : Mark} (hm : s.marks[i]? = some m) : i < states.size :=
    h.size ▸ (Array.getElem?_eq_some_iff.mp hm).1
  have hlost {i : StateId} (hi : i < states.size) (hm : s.marks[i]? = none) : False := by
    have := Array.getElem?_eq_none_iff.mp hm
    have := h.size
    lia
  cases hstep with
  | @finished root marks hroot =>
    refine ⟨false, rfl, by simp, fun ⟨id, hcycle⟩ => ?_⟩
    obtain ⟨_, ⟨state, hs, _⟩, _⟩ := Relation.TransGen.head'_iff.mp hcycle
    have hid : id < states.size := (Array.getElem?_eq_some_iff.mp hs).1
    cases hm : marks[id]? with
    | none => exact (hlost hid hm).elim
    | some m =>
      cases m with
      | new => exact absurd hm (h.roots id (by show id < root; lia))
      | opened => simpa [trail] using (h.opened id).mp hm
      | done => exact absurd hcycle (h.acyclic id hm)
  | lostRoot hroot hm => exact (hlost hroot hm).elim
  | lostState hs =>
    have := hmarked ((h.opened _).mpr (.head _))
    have := Array.getElem?_eq_none_iff.mp hs
    lia
  | lostTarget hs ht hm =>
    exact (hlost (hrange _ _ ⟨_, hs, _, List.mem_of_getElem? ht, rfl⟩) hm).elim
  | close hs ht hm =>
    have hback := reaches_of_isChain h.chain ((h.opened _).mp hm)
    have hcycle := Relation.TransGen.tail' hback ⟨_, hs, _, List.mem_of_getElem? ht, rfl⟩
    exact ⟨true, rfl, fun _ => ⟨_, hcycle⟩, by simp⟩

/-! ### How long a search takes -/

/-- How many transitions a state has. -/
def outdegree (states : Array State) (id : StateId) : Nat :=
  (states[id]?.map (·.transitions.length)).getD 0

/-- How many steps are left: one for each state from which the search has not started, for
each transition on the path that has not been taken and for the end of each visit, and for
the transitions and the visit of each state that is new. -/
def left (states : Array State) (s : CycleSearch) : Nat :=
  (states.size - s.root) +
    (s.path.map fun v => outdegree states v.state - v.taken + 1).sum +
    ∑ id ∈ (Finset.range states.size).filter (s.marks[·]? = some .new), (outdegree states id + 1)

/-- A state that is entered is no longer new. -/
theorem sum_new_enter (hsize : marks.size = states.size) (hm : marks[id]? = some .new) :
    ∑ i ∈ (Finset.range states.size).filter
        ((marks.setIfInBounds id .opened)[·]? = some .new), (outdegree states i + 1) +
      (outdegree states id + 1) =
    ∑ i ∈ (Finset.range states.size).filter (marks[·]? = some .new), (outdegree states i + 1) := by
  have hlt : id < states.size := hsize ▸ (Array.getElem?_eq_some_iff.mp hm).1
  have hmem : id ∈ (Finset.range states.size).filter (marks[·]? = some .new) :=
    Finset.mem_filter.mpr ⟨Finset.mem_range.mpr hlt, hm⟩
  rw [← Finset.sum_erase_add _ _ hmem]
  congr 2
  ext i
  simp only [Finset.mem_filter, Finset.mem_erase, getElem?_set hm]
  by_cases hi : id = i
  · simp [hi]
  · simp [hi, Ne.symm hi]

theorem sum_new_leave (hm : marks[id]? = some .opened) :
    (Finset.range states.size).filter ((marks.setIfInBounds id .done)[·]? = some .new) =
      (Finset.range states.size).filter (marks[·]? = some .new) := by
  ext i
  simp only [Finset.mem_filter, getElem?_set hm]
  by_cases hi : id = i
  · simp [← hi, hm]
  · simp [hi]

/-- **Each step uses up one.** -/
theorem Sound.left_advance (h : Sound states s) (hmore : CycleSearch.advance states s = .more s') :
    left states s' + 1 = left states s := by
  have hstep := advances_advance states s
  rw [hmore] at hstep
  have hopen {state : State} {t : Transition} {id taken : Nat} (hs : states[id]? = some state)
      (ht : state.transitions[taken]? = some t) :
      outdegree states id - taken = outdegree states id - (taken + 1) + 1 := by
    have := (List.getElem?_eq_some_iff.mp ht).1
    simp [outdegree, hs]
    omega
  cases hstep with
  | @begin root marks hroot hm =>
    have := sum_new_enter (show marks.size = states.size from h.size) hm
    simp [left]
    omega
  | skip hroot hm hne =>
    simp [left]
    omega
  | leave hs ht =>
    have hm := (h.opened _).mpr (.head _)
    simp [left, sum_new_leave hm, outdegree, hs]
    omega
  | @descend _ _ _ _ marks _ _ hs ht hm =>
    have := sum_new_enter (show marks.size = states.size from h.size) hm
    have := hopen hs ht
    simp [left]
    omega
  | pass hs ht hm =>
    have := hopen hs ht
    simp [left]
    omega

/-- **A search that may take enough steps ends with the answer.** -/
theorem Sound.steps_eq (h : Sound states s) (hrange : ∀ i j, Links states i j → j < states.size)
    {n : Nat} (hn : left states s < n) :
    ∃ found, steps (CycleSearch.advance states) n s = .done (.ok found) ∧
      (found = true ↔ ∃ id, Relation.TransGen (Links states) id id) := by
  obtain ⟨_, hsteps, found, rfl, hfound⟩ := exists_steps_eq_done (left states)
    (fun s s' hs hstep => ⟨hs.advance hstep, Nat.lt_of_succ_le (hs.left_advance hstep).le⟩)
    (fun s result hs hstep => hs.answer hrange hstep) h hn
  exact ⟨found, hsteps, hfound⟩

theorem sum_outdegree (states : List State) :
    ∑ id ∈ Finset.range states.length, outdegree states.toArray id =
      (states.flatMap (·.transitions)).length := by
  induction states with
  | nil => rfl
  | cons state states ih =>
    rw [List.length_cons, Finset.sum_range_succ']
    simpa [outdegree, Nat.add_comm] using ih

/-- A search from the start may take enough steps. -/
theorem left_start (a : Automaton) :
    left a.states.toArray (.start a.states.length) < a.cycleSteps := by
  have hnew : (Finset.range a.states.length).filter
      ((Array.replicate a.states.length Mark.new)[·]? = some .new) =
        Finset.range a.states.length := by
    ext id
    simp [Array.getElem?_replicate]
  simp [left, start, hnew, Finset.sum_add_distrib, sum_outdegree, Automaton.cycleSteps]
  omega

end CycleSearch

namespace Automaton

/-- **The search for a cycle is exact.** Where transitions lead to states, it ends, looks up
nothing that is not there, and finds a cycle exactly if some state can be reached from itself by
one or more transitions, whether or not the start leads there. -/
theorem isCyclic_iff (a : Automaton)
    (hrange : ∀ s ∈ a.states, ∀ t ∈ s.transitions, t.target < a.states.length) :
    (∃ n, steps (CycleSearch.advance a.states.toArray) n (.start a.states.length) =
        .done (.ok a.isCyclic)) ∧
      (a.isCyclic = true ↔ ∃ id, Relation.TransGen (Links a.states.toArray) id id) := by
  have hlinks (i j : StateId) (hlink : Links a.states.toArray i j) :
      j < a.states.toArray.size := by
    obtain ⟨state, hstate, t, ht, rfl⟩ := hlink
    simpa using hrange state (by simpa using Array.mem_of_getElem? hstate) t ht
  have hstart : CycleSearch.Sound a.states.toArray (.start a.states.length) := by
    simpa using CycleSearch.sound_start a.states.toArray
  obtain ⟨found, hsteps, hfound⟩ := hstart.steps_eq hlinks (CycleSearch.left_start a)
  have hcyclic : a.isCyclic = found := by
    simp [isCyclic, findCycle, hsteps]
  rw [hcyclic]
  exact ⟨⟨_, hsteps⟩, hfound⟩

/-- The start decides at once; beside it two states lead to each other. -/
def roundabout : Automaton where
  decision := 0
  rule := 0
  ruleName := "r"
  kind := .block
  altCount := 2
  states :=
    [⟨[], none, some (.unique 0)⟩,
      ⟨[⟨1, 1, 2, none⟩], none, none⟩,
      ⟨[⟨1, 2, 0, none⟩, ⟨3, 3, 1, none⟩], none, none⟩]

theorem isCyclic_iff_roundabout :
    (∀ s ∈ roundabout.states, ∀ t ∈ s.transitions, t.target < roundabout.states.length) ∧
      (∃ n, steps (CycleSearch.advance roundabout.states.toArray) n (.start 3) =
        .done (.ok true)) ∧
      ∃ id, Relation.TransGen (Links roundabout.states.toArray) id id := by
  have hrange (s : State) (hs : s ∈ roundabout.states) :
      ∀ t ∈ s.transitions, t.target < roundabout.states.length := by
    revert s
    decide
  have hcyclic : roundabout.isCyclic = true := by decide
  obtain ⟨hsteps, hfound⟩ := isCyclic_iff roundabout hrange
  rw [hcyclic] at hsteps
  exact ⟨hrange, hsteps, hfound.mp hcyclic⟩

end Automaton
end Lookahead
