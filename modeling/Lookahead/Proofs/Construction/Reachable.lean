import Lookahead.Proofs.Construction.Walk

/-! Every state of a built automaton is reachable.

A state is added only as the target of a transition of the state that is worked on, which
has a lower number. Joining transitions keeps all targets, and a state that has been worked
on is not touched again, so the link stays (`Linked`). -/
namespace Lookahead.Construction
variable {p : Plan} {site site' : Site} {configs : List Configuration}

/-! ### Targets -/

/-- Where transitions lead. -/
def targets (ts : List Transition) : List StateId := ts.map (·.target)

/-- Joining loses no target. -/
theorem mem_targets_join {t : Transition} {ts : List Transition} {id : StateId} :
    id ∈ targets (join t ts) ↔ id = t.target ∨ id ∈ targets ts := by
  rcases join_cases t ts with ⟨hjoin, _⟩ | ⟨last, rest, rfl, htarget, _, _, hjoin⟩
  · simp [hjoin, targets]
  · simp only [hjoin, targets, List.map_cons, List.mem_cons, htarget]
    tauto

/-- New states are targets of the transitions that they are found with. -/
structure FoundWith (ts : List Transition) (found : List StateId) (ts' : List Transition)
    (found' : List StateId) : Prop where
  kept : ∀ id ∈ targets ts, id ∈ targets ts'
  new : ∀ id ∈ found', id ∈ found ∨ id ∈ targets ts'

theorem FoundWith.refl (ts : List Transition) (found : List StateId) :
    FoundWith ts found ts found :=
  ⟨fun _ h => h, fun _ => .inl⟩

theorem FoundWith.trans {ts ts' ts'' : List Transition} {found found' found'' : List StateId}
    (h : FoundWith ts found ts' found') (h' : FoundWith ts' found' ts'' found'') :
    FoundWith ts found ts'' found'' where
  kept id hid := h'.kept id (h.kept id hid)
  new id hid := by
    rcases h'.new id hid with hid | hid
    · exact (h.new id hid).imp_right (h'.kept id)
    · exact .inr hid

theorem foundWith_follow {range : SymbolRange} {ts ts' : List Transition}
    {found found' : List StateId}
    (h : Ends (follow p configs range ts found) site (.ok (ts', found')) site') :
    FoundWith ts found ts' found' := by
  obtain ⟨reached, s₁, _, hrest⟩ := ends_bind_ok.mp h
  split at hrest
  · obtain ⟨hr, _⟩ := ends_pure_ok.mp hrest
    obtain ⟨rfl, rfl⟩ := Prod.mk.inj hr
    exact .refl ts' found'
  · obtain ⟨⟨target, isNew⟩, s₂, _, hpure⟩ := ends_bind_ok.mp hrest
    obtain ⟨hr, _⟩ := ends_pure_ok.mp hpure
    obtain ⟨rfl, rfl⟩ := Prod.mk.inj hr
    refine ⟨fun id hid => mem_targets_join.mpr (.inr hid), fun id hid => ?_⟩
    cases isNew with
    | false => exact .inl hid
    | true =>
      rcases List.mem_cons.mp hid with rfl | hid
      · exact .inr (mem_targets_join.mpr (.inl rfl))
      · exact .inl hid

theorem foundWith_followAll {ranges : List SymbolRange} {ts ts' : List Transition}
    {found found' : List StateId}
    (h : Ends (followAll p configs ranges ts found) site (.ok (ts', found')) site') :
    FoundWith ts found ts' found' := by
  induction ranges generalizing ts found site with
  | nil =>
    obtain ⟨hr, _⟩ := ends_pure_ok.mp h
    obtain ⟨rfl, rfl⟩ := Prod.mk.inj hr
    exact .refl ts' found'
  | cons range ranges ih =>
    obtain ⟨⟨ts₁, found₁⟩, s₁, hfollow, hrest⟩ := ends_bind_ok.mp h
    exact (foundWith_follow hfollow).trans (ih hrest)

/-- What a state leads to that is new, it leads to directly. -/
theorem mem_targets_of_work {id : StateId} {state : State} {found : List StateId}
    (h : Ends (work p id configs) site (.ok (state, found)) site') :
    ∀ i ∈ found, i ∈ targets state.transitions := by
  match halts : Configuration.alternatives configs with
  | [] =>
    rw [work_of_none p id halts] at h
    obtain ⟨hr, _⟩ := ends_pure_ok.mp h
    obtain ⟨rfl, rfl⟩ := Prod.mk.inj hr
    exact nofun
  | [alt] =>
    rw [work_of_one p id halts] at h
    obtain ⟨hr, _⟩ := ends_pure_ok.mp h
    obtain ⟨rfl, rfl⟩ := Prod.mk.inj hr
    exact nofun
  | alt :: alt' :: alts =>
    cases hconflict : Configuration.isConflict configs with
    | true =>
      rw [work_of_conflict p id halts hconflict] at h
      obtain ⟨r, s₁, _, hpure⟩ := ends_bind_ok.mp h
      obtain ⟨hr, _⟩ := ends_pure_ok.mp hpure
      obtain ⟨rfl, rfl⟩ := Prod.mk.inj hr
      exact nofun
    | false =>
      rw [work_of_looking p id halts hconflict] at h
      obtain ⟨accept, s₁, _, hrest⟩ := ends_bind_ok.mp h
      obtain ⟨⟨ts, found'⟩, s₂, hfollow, hpure⟩ := ends_bind_ok.mp hrest
      obtain ⟨hr, _⟩ := ends_pure_ok.mp hpure
      obtain ⟨rfl, rfl⟩ := Prod.mk.inj hr
      intro i hi
      simpa [targets] using ((foundWith_followAll hfollow).new i hi).resolve_left nofun

/-! ### Links -/

/-- Each state but the start is the target of a transition of a state with a lower number. -/
def Linked (site : Site) : Prop :=
  ∀ i, 0 < i → i < site.states.length → ∃ j < i, ∃ s, site.states[j]? = some s ∧
    i ∈ targets s.2.transitions

/-- Work on a blank state links the states that it adds. -/
theorem linked_round {id : StateId} {state : State} {found : List StateId}
    (hlinked : Linked site) (hid : site.states[id]? = some (configs, .blank))
    (hwork : Ends (work p id configs) site (.ok (state, found)) site') :
    Linked (site'.record id state) := by
  obtain ⟨noted, hstates, _, ⟨added, rfl, rfl, _⟩, _⟩ := ends_work hwork
  have hnew := mem_targets_of_work hwork
  rw [← hstates] at hid
  have hlt := (List.getElem?_eq_some_iff.mp hid).1
  have hknown := Site.known_of_states hid
  intro i hpos hi
  by_cases hold : i < noted.states.length
  · obtain ⟨j, hj, s, hs, htarget⟩ := hlinked i hpos (hstates ▸ hold)
    -- The state that has been worked on had no transition before.
    have hne : id ≠ j := by
      rintro rfl
      rw [hstates] at hid
      rw [hid] at hs
      obtain rfl := Option.some.inj hs
      cases htarget
    exact ⟨j, hj, s, Site.getElem?_round_of_ne hne (hstates ▸ hs), htarget⟩
  · refine ⟨id, by omega, _, Site.getElem?_round_self hknown, hnew i ?_⟩
    have hlength : i < noted.states.length + added.length := by
      simpa [Site.record, Site.withNew] using hi
    rw [List.append_nil, List.mem_reverse, List.mem_range'_1]
    omega

theorem linked_workAll {fuel : Nat} {waiting : List StateId} (h : Progressing p fuel waiting site)
    (hlinked : Linked site) (hends : Ends (workAll p fuel waiting) site (.ok ()) site') :
    Linked site' := by
  induction fuel generalizing waiting site with
  | zero =>
    obtain ⟨_, rfl⟩ := ends_pure.mp hends
    exact hlinked
  | succ fuel ih =>
    cases waiting with
    | nil =>
      obtain ⟨_, rfl⟩ := ends_pure.mp hends
      exact hlinked
    | cons id waiting =>
      obtain ⟨configs, state, found, s₁, hid, hwork, hrest⟩ := ends_workAll_cons h hends
      exact ih (h.step hid hwork) (linked_round hlinked hid hwork) hrest

theorem linked_of_outcome (h : outcome p = (.ok (), site)) : Linked site := by
  obtain ⟨configs, _, hlt, hwork⟩ := workAll_of_outcome h
  refine linked_workAll (progressing_start hlt configs) (fun i hpos hi => ?_) hwork
  have hone : i < 1 := hi
  omega

/-! ### Walks -/

theorem Made.exists_tidy {known : List (List Configuration)} {id : StateId} {state : State}
    (h : Made p known id configs state) : ∃ ts, Tidy ts ∧ state.transitions = ts.reverse := by
  cases h with
  | dead | only | conflict => exact ⟨[], ⟨nofun, .nil⟩, rfl⟩
  | looking _ _ hnew => exact ⟨_, (tidy_looking hnew).1, rfl⟩

/-- A state is left along any of its transitions. -/
theorem Made.edge?_lo {known : List (List Configuration)} {id : StateId} {state : State}
    (h : Made p known id configs state) {t : Transition} (ht : t ∈ state.transitions) :
    state.edge? t.lo = some t := by
  obtain ⟨ts, htidy, hstate⟩ := h.exists_tidy
  rw [hstate, List.mem_reverse] at ht
  exact (edge?_eq_some_iff htidy hstate).mpr ⟨ht, Nat.le_refl _, htidy.bounds t ht⟩

/-- A transition leads to the configurations that are reached along it, through their gate. -/
theorem exists_reached_of_mem (hbuilt : Built p site) {id : StateId} {state : State}
    (hid : site.states[id]? = some (configs, state)) {t : Transition}
    (ht : t ∈ state.transitions) :
    ∃ reached, reached ≠ [] ∧ site.known[t.target]? = some reached ∧
      t.gate = Configuration.gateOf reached := by
  obtain ⟨_, _, _, reached, _, hne, htarget, hgate⟩ :=
    reached_of_edge? hbuilt hid ((hbuilt.made id configs state hid).edge?_lo ht)
  exact ⟨reached, hne, htarget, hgate⟩

/-- Some word leads to each state. -/
theorem exists_walk (h : outcome p = (.ok (), site)) {id : StateId}
    (hid : id < site.states.length) :
    ∃ w, (site.automaton p).walk Automaton.start w = some id := by
  obtain ⟨hbuilt, _⟩ := built_of_outcome h
  induction id using Nat.strongRecOn with
  | ind id ih =>
    by_cases hpos : 0 < id
    · obtain ⟨j, hj, ⟨configs, state⟩, hs, htarget⟩ := linked_of_outcome h id hpos hid
      obtain ⟨t, ht, rfl⟩ := List.mem_map.mp htarget
      obtain ⟨w, hw⟩ := ih j hj (Nat.lt_trans hj hid)
      have hedge := (hbuilt.made j configs state hs).edge?_lo ht
      refine ⟨w ++ [t.lo], ?_⟩
      rw [Automaton.walk_snoc, hw, Option.bind_some, state_automaton hs, State.next?, hedge]
      rfl
    · obtain rfl : id = Automaton.start := Nat.eq_zero_of_not_pos hpos
      exact ⟨[], rfl⟩

end Lookahead.Construction
