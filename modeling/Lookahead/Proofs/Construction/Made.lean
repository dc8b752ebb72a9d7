import Lookahead.Proofs.Construction.Build
import Mathlib.Data.List.Nodup

/-! What the construction builds.

`Made` says what a state looks like, given its configurations and those of all states.
A state waits until it is worked on and then stays as it is made. Each state waits once,
so the loop works on all of them before it stops, and a construction that does not fail
ends with a site on which every state is made (`Built`). -/
namespace Lookahead

/-- One of the resolutions of the state is an ambiguity between these alternatives. -/
def State.Ambiguous (s : State) (alternatives : List Ordinal) : Prop :=
  ∃ chosen, s.accept = some (.ambiguous chosen alternatives) ∨
    s.terminal = some (.ambiguous chosen alternatives)

namespace Construction
variable {p : Plan} {site site' : Site} {configs : List Configuration}

/-- How configurations decide, as far as their conditions tell. -/
def resolution (p : Plan) (configs : List Configuration) : Option Resolution :=
  Resolution.ofWays p.decision (configs.map fun c => (c.alt, c.conditions.context))

/-- How configurations decide where the input cannot be read on. -/
def resolutionAtEnd (p : Plan) (configs : List Configuration) : Option Resolution :=
  let ends := configs.filter (·.accept)
  if ends.isEmpty then none else resolution p ends

/-- Where a configuration accepts, those that do decide. -/
theorem resolutionAtEnd_eq {c : Configuration} (hc : c ∈ configs) (haccept : c.accept = true) :
    resolutionAtEnd p configs = resolution p (configs.filter (·.accept)) :=
  if_neg fun hnone =>
    List.ne_nil_of_mem (List.mem_filter.mpr ⟨hc, haccept⟩) (List.isEmpty_iff.mp hnone)

/-- The state that configurations make, where `known` are the configurations of all
states. -/
inductive Made (p : Plan) (known : List (List Configuration)) (id : StateId)
    (configs : List Configuration) : State → Prop where
  | dead (halts : Configuration.alternatives configs = []) : Made p known id configs .blank
  | only {alt : Ordinal} (halts : Configuration.alternatives configs = [alt]) :
    Made p known id configs ⟨[], none, some (onlyOne p id alt configs)⟩
  | conflict (halts : 2 ≤ (Configuration.alternatives configs).length)
    (hconflict : Configuration.isConflict configs = true) :
    Made p known id configs ⟨[], none, resolution p configs⟩
  | looking {new : List (List Transition)}
    (halts : 2 ≤ (Configuration.alternatives configs).length)
    (hconflict : Configuration.isConflict configs = false)
    (hnew : List.Forall₂ (OnRange p known configs)
      (SymbolSet.partition (symbolSets p configs)) new) :
    Made p known id configs
      ⟨(joinAll new.flatten []).reverse, resolutionAtEnd p configs, none⟩

theorem Made.mono {known known' : List (List Configuration)} {id : StateId} {state : State}
    (h : Made p known id configs state) (hk : known <+: known') :
    Made p known' id configs state := by
  cases h with
  | dead halts => exact .dead halts
  | only halts => exact .only halts
  | conflict halts hconflict => exact .conflict halts hconflict
  | looking halts hconflict hnew =>
    exact .looking halts hconflict (hnew.imp fun _ _ hrange => hrange.mono hk)

/-! ### Working on one state -/

/-- `later` are the ambiguities of `earlier` and of a state. -/
def Notes (earlier : List (List Ordinal)) (state : State) (later : List (List Ordinal)) : Prop :=
  (∀ alternatives, alternatives ∈ later ↔
    alternatives ∈ earlier ∨ state.Ambiguous alternatives) ∧ (earlier.Nodup → later.Nodup)

/-- From `site` to `site'` at most the ambiguity of a resolution has been noted. -/
def NotesOf (site : Site) (r : Option Resolution) (site' : Site) : Prop :=
  ∃ later, site' = { site with ambiguities := later } ∧
    (∀ alternatives, alternatives ∈ later ↔ alternatives ∈ site.ambiguities ∨
      ∃ chosen, r = some (.ambiguous chosen alternatives)) ∧
    (site.ambiguities.Nodup → later.Nodup)

theorem ends_resolve {r : Option Resolution} (h : Ends (resolve p configs) site (.ok r) site') :
    r = resolution p configs ∧ NotesOf site r site' := by
  simp only [resolve] at h
  split at h
  · next chosen alternatives hr =>
    rw [ends_modify_bind, ends_pure_ok] at h
    obtain ⟨hres, rfl⟩ := h
    refine ⟨hres, ?_⟩
    have hsame (x : List Ordinal) :
        (∃ chosen, r = some (.ambiguous chosen x)) ↔ x = alternatives := by
      rw [hres, hr]
      simp [eq_comm]
    by_cases hmem : alternatives ∈ site.ambiguities
    · refine ⟨site.ambiguities, ?_, fun x => ?_, id⟩
      · rw [if_pos (List.contains_iff_mem.mpr hmem)]
      · rw [hsame]
        exact ⟨.inl, fun h => h.elim id fun hx => hx ▸ hmem⟩
    · refine ⟨site.ambiguities ++ [alternatives], ?_, fun x => ?_, fun hnodup => ?_⟩
      · rw [if_neg (fun hc => hmem (List.contains_iff_mem.mp hc))]
      · rw [hsame, List.mem_append, List.mem_singleton]
      · refine List.nodup_append.mpr ⟨hnodup, List.pairwise_singleton .., fun x hx y hy => ?_⟩
        rw [List.mem_singleton.mp hy]
        exact fun hxy => hmem (hxy ▸ hx)
  · next hr =>
    obtain ⟨hres, rfl⟩ := ends_pure_ok.mp h
    refine ⟨hres, site'.ambiguities, rfl, fun x => ⟨.inl, fun hx => ?_⟩, id⟩
    refine hx.resolve_right fun ⟨chosen, hchosen⟩ => hr chosen x ?_
    rw [← hchosen]
    exact hres.symm

/-- Decides where the input cannot be read on. -/
def resolveAtEnd (p : Plan) (configs : List Configuration) : Build (Option Resolution) :=
  if (configs.filter (·.accept)).isEmpty then pure none else resolve p (configs.filter (·.accept))

theorem ends_resolveAtEnd {r : Option Resolution}
    (h : Ends (resolveAtEnd p configs) site (.ok r) site') :
    r = resolutionAtEnd p configs ∧ NotesOf site r site' := by
  unfold resolutionAtEnd
  unfold resolveAtEnd at h
  split at h
  · next hends =>
    obtain ⟨rfl, rfl⟩ := ends_pure_ok.mp h
    exact ⟨by rw [if_pos hends], site'.ambiguities, rfl, by simp, fun h => h⟩
  · next hends =>
    rw [if_neg hends]
    exact ends_resolve h

/-! The work that configurations make depends on how many alternatives are left. -/

section
variable (p) (id : StateId)

theorem work_of_none (halts : Configuration.alternatives configs = []) :
    work p id configs = pure (.blank, []) := by
  rw [work, halts]

theorem work_of_one {alt : Ordinal} (halts : Configuration.alternatives configs = [alt]) :
    work p id configs = pure (⟨[], none, some (onlyOne p id alt configs)⟩, []) := by
  rw [work, halts]

theorem work_of_conflict {alt alt' : Ordinal} {alts : List Ordinal}
    (halts : Configuration.alternatives configs = alt :: alt' :: alts)
    (hconflict : Configuration.isConflict configs = true) :
    work p id configs = resolve p configs >>= fun r => pure (⟨[], none, r⟩, []) := by
  rw [work, halts]
  exact if_pos hconflict

/-- Where the alternatives can still be told apart, the work is to read on. -/
theorem work_of_looking {alt alt' : Ordinal} {alts : List Ordinal}
    (halts : Configuration.alternatives configs = alt :: alt' :: alts)
    (hconflict : Configuration.isConflict configs = false) :
    work p id configs = resolveAtEnd p configs >>= fun accept =>
      followAll p configs (SymbolSet.partition (symbolSets p configs)) [] [] >>= fun x =>
        pure (⟨x.1.reverse, accept, none⟩, x.2) := by
  simp only [work, halts, hconflict, resolveAtEnd, Bool.false_eq_true, if_false]
  split <;> rfl

end

/-- Resolutions where only one alternative is left are no ambiguities. -/
theorem onlyOne_ne_ambiguous (p : Plan) (id : StateId) (alt chosen : Ordinal)
    (configs : List Configuration) (alternatives : List Ordinal) :
    onlyOne p id alt configs ≠ .ambiguous chosen alternatives := by
  unfold onlyOne
  split
  · split <;> exact nofun
  · exact nofun

theorem ends_work {id : StateId} {state : State} {found : List StateId}
    (h : Ends (work p id configs) site (.ok (state, found)) site') :
    ∃ noted, noted.states = site.states ∧ Notes site.ambiguities state noted.ambiguities ∧
      Grows p noted [] site' found ∧ Made p site'.known id configs state := by
  match halts : Configuration.alternatives configs with
  | [] =>
    rw [work_of_none p id halts] at h
    obtain ⟨hr, rfl⟩ := ends_pure_ok.mp h
    obtain ⟨rfl, rfl⟩ := Prod.mk.inj hr
    refine ⟨site', rfl, ⟨fun x => ⟨.inl, fun hx => ?_⟩, fun h => h⟩, .refl _ _ _, .dead halts⟩
    exact hx.resolve_right fun ⟨_, hx⟩ => hx.elim nofun nofun
  | [alt] =>
    rw [work_of_one p id halts] at h
    obtain ⟨hr, rfl⟩ := ends_pure_ok.mp h
    obtain ⟨rfl, rfl⟩ := Prod.mk.inj hr
    refine ⟨site', rfl, ⟨fun x => ⟨.inl, fun hx => ?_⟩, fun h => h⟩, .refl _ _ _, .only halts⟩
    refine hx.resolve_right fun ⟨chosen, hx⟩ => ?_
    rcases hx with hx | hx
    · exact nomatch hx
    · exact onlyOne_ne_ambiguous _ _ _ _ _ _ (Option.some.inj hx)
  | alt :: alt' :: alts =>
    have hlength : 2 ≤ (Configuration.alternatives configs).length := by simp [halts]
    cases hconflict : Configuration.isConflict configs with
    | true =>
      rw [work_of_conflict p id halts hconflict] at h
      obtain ⟨r, s₁, hresolve, hpure⟩ := ends_bind_ok.mp h
      obtain ⟨hr, rfl⟩ := ends_pure_ok.mp hpure
      obtain ⟨rfl, rfl⟩ := Prod.mk.inj hr
      obtain ⟨hres, later, rfl, hlater, hnodup⟩ := ends_resolve hresolve
      refine ⟨{ site with ambiguities := later }, rfl, ⟨fun x => ?_, hnodup⟩, .refl _ _ _,
        hres ▸ .conflict hlength hconflict⟩
      simp [hlater, State.Ambiguous]
    | false =>
      rw [work_of_looking p id halts hconflict] at h
      obtain ⟨accept, s₁, hresolve, hrest⟩ := ends_bind_ok.mp h
      obtain ⟨⟨ts, found'⟩, s₂, hfollow, hpure⟩ := ends_bind_ok.mp hrest
      obtain ⟨hr, rfl⟩ := ends_pure_ok.mp hpure
      obtain ⟨rfl, rfl⟩ := Prod.mk.inj hr
      obtain ⟨hgrows, new, hnew, rfl⟩ := ends_followAll hfollow
      obtain ⟨rfl, later, rfl, hlater, hnodup⟩ := ends_resolveAtEnd hresolve
      refine ⟨{ site with ambiguities := later }, rfl, ⟨fun x => ?_, hnodup⟩, hgrows,
        .looking hlength hconflict hnew⟩
      simp [hlater, State.Ambiguous]

/-! ### Working on all states -/

/-- Some state has an ambiguity between these alternatives. -/
def Site.Ambiguous (site : Site) (alternatives : List Ordinal) : Prop :=
  ∃ (id : StateId) (s : List Configuration × State),
    site.states[id]? = some s ∧ s.2.Ambiguous alternatives

/-- What holds between two rounds of the loop. -/
structure Progressing (p : Plan) (fuel : Nat) (waiting : List StateId) (site : Site) : Prop where
  nodup : waiting.Nodup
  untouched : ∀ id ∈ waiting, ∃ configs, site.states[id]? = some (configs, .blank)
  made : ∀ (id : StateId) configs state, site.states[id]? = some (configs, state) →
    id ∈ waiting ∨ Made p site.known id configs state
  fuel : p.maxStates + waiting.length ≤ fuel + site.states.length
  count : site.states.length ≤ p.maxStates
  ambiguities : ∀ alternatives, alternatives ∈ site.ambiguities ↔ site.Ambiguous alternatives
  ambiguitiesNodup : site.ambiguities.Nodup
  knownNodup : site.known.Nodup

/-- A site on which all states are made. -/
structure Built (p : Plan) (site : Site) : Prop where
  made : ∀ (id : StateId) configs state, site.states[id]? = some (configs, state) →
    Made p site.known id configs state
  count : site.states.length ≤ p.maxStates
  ambiguities : ∀ alternatives, alternatives ∈ site.ambiguities ↔ site.Ambiguous alternatives
  ambiguitiesNodup : site.ambiguities.Nodup
  knownNodup : site.known.Nodup

theorem Progressing.built {fuel : Nat} (h : Progressing p fuel [] site) : Built p site :=
  ⟨fun id configs state hid => (h.made id configs state hid).resolve_left nofun, h.count,
    h.ambiguities, h.ambiguitiesNodup, h.knownNodup⟩

/-- Writes down the state that has been worked on. -/
def Site.record (site : Site) (id : StateId) (state : State) : Site :=
  { site with states := site.states.modify id fun s => (s.1, state) }

theorem Site.getElem?_record (site : Site) (id : StateId) (state : State) (i : StateId) :
    (site.record id state).states[i]? =
      site.states[i]?.map fun s => if id = i then (s.1, state) else s := by
  rw [record, List.getElem?_modify]
  rfl

@[simp] theorem Site.known_record (site : Site) (id : StateId) (state : State) :
    (site.record id state).known = site.known := by
  refine List.ext_getElem? fun i => ?_
  rw [known, List.getElem?_map, getElem?_record, known, List.getElem?_map]
  cases site.states[i]? with
  | none => rfl
  | some s => by_cases h : id = i <;> simp [h]

theorem Site.getElem?_withNew_of_lt {id : Nat} (h : id < site.states.length)
    (added : List (List Configuration)) : (site.withNew added).states[id]? = site.states[id]? :=
  List.getElem?_append_left h

/-- A state is an old one or a new one. -/
theorem Site.getElem?_withNew_cases {added : List (List Configuration)} {id : Nat}
    {s : List Configuration × State} (h : (site.withNew added).states[id]? = some s) :
    site.states[id]? = some s ∨
      id ∈ List.range' site.states.length added.length ∧ s.2 = State.blank := by
  by_cases hid : id < site.states.length
  · rw [getElem?_withNew_of_lt hid] at h
    exact .inl h
  · obtain ⟨hlt, hs⟩ := List.getElem?_eq_some_iff.mp h
    simp only [withNew, List.length_append, List.length_map] at hlt
    rw [withNew, List.getElem?_append_right (Nat.le_of_not_lt hid), List.getElem?_map,
      Option.map_eq_some_iff] at h
    obtain ⟨configs, _, rfl⟩ := h
    refine .inr ⟨List.mem_range'_1.mpr ⟨Nat.le_of_not_lt hid, hlt⟩, rfl⟩

theorem Site.exists_getElem?_withNew {added : List (List Configuration)} {id : Nat}
    (h : id ∈ List.range' site.states.length added.length) :
    ∃ configs, (site.withNew added).states[id]? = some (configs, .blank) := by
  obtain ⟨hle, hlt⟩ := List.mem_range'_1.mp h
  have hlt' : id - site.states.length < added.length := by omega
  refine ⟨added[id - site.states.length], ?_⟩
  rw [withNew, List.getElem?_append_right hle, List.getElem?_map, List.getElem?_eq_getElem hlt']
  rfl

section
variable {id i : Nat} {added : List (List Configuration)} {state : State}
  {s : List Configuration × State}

theorem Site.getElem?_round_self (hid : site.known[id]? = some configs) :
    ((site.withNew added).record id state).states[id]? = some (configs, state) := by
  rw [known, List.getElem?_map, Option.map_eq_some_iff] at hid
  obtain ⟨s, hs, rfl⟩ := hid
  rw [getElem?_record, getElem?_withNew_of_lt (List.getElem?_eq_some_iff.mp hs).1, hs,
    Option.map_some, if_pos rfl]

theorem Site.getElem?_round_of_ne (hne : id ≠ i) (hs : site.states[i]? = some s) :
    ((site.withNew added).record id state).states[i]? = some s := by
  rw [getElem?_record, getElem?_withNew_of_lt (List.getElem?_eq_some_iff.mp hs).1, hs,
    Option.map_some, if_neg hne]

/-- What a state can be after a round in which `id` was worked on. -/
theorem Site.getElem?_round_cases (hid : site.known[id]? = some configs)
    (h : ((site.withNew added).record id state).states[i]? = some s) :
    (id = i ∧ s = (configs, state)) ∨ (id ≠ i ∧ site.states[i]? = some s) ∨
      i ∈ List.range' site.states.length added.length ∧ s.2 = State.blank := by
  by_cases hne : id = i
  · subst hne
    rw [getElem?_round_self hid] at h
    exact .inl ⟨rfl, (Option.some.inj h).symm⟩
  · rw [getElem?_record, Option.map_eq_some_iff] at h
    obtain ⟨s', hs', hss⟩ := h
    rw [if_neg hne] at hss
    subst hss
    exact .inr ((getElem?_withNew_cases hs').imp_left fun hs => ⟨hne, hs⟩)

theorem State.not_ambiguous_blank (alternatives : List Ordinal) :
    ¬ State.blank.Ambiguous alternatives :=
  fun ⟨_, h⟩ => h.elim nofun nofun

/-- Work on a blank state adds its ambiguities. -/
theorem Site.ambiguous_round_iff (hid : site.states[id]? = some (configs, .blank))
    {alternatives : List Ordinal} :
    ((site.withNew added).record id state).Ambiguous alternatives ↔
      site.Ambiguous alternatives ∨ state.Ambiguous alternatives := by
  have hknown : site.known[id]? = some configs := by
    rw [known, List.getElem?_map, hid]
    rfl
  constructor
  · rintro ⟨i, s, hs, hx⟩
    rcases getElem?_round_cases hknown hs with ⟨_, rfl⟩ | ⟨_, hs⟩ | ⟨_, hs⟩
    · exact .inr hx
    · exact .inl ⟨i, s, hs, hx⟩
    · rw [hs] at hx
      exact absurd hx (State.not_ambiguous_blank _)
  · rintro (⟨i, s, hs, hx⟩ | hx)
    · by_cases hne : id = i
      · subst hne
        rw [hid] at hs
        obtain rfl := Option.some.inj hs
        exact absurd hx (State.not_ambiguous_blank _)
      · exact ⟨i, s, getElem?_round_of_ne hne hs, hx⟩
    · exact ⟨id, _, getElem?_round_self hknown, hx⟩

end

/-- One round of the loop. -/
theorem Progressing.step {fuel id : Nat} {waiting found : List StateId} {state : State}
    (h : Progressing p (fuel + 1) (id :: waiting) site)
    (hid : site.states[id]? = some (configs, .blank))
    (hwork : Ends (work p id configs) site (.ok (state, found)) site') :
    Progressing p fuel (found ++ waiting) (site'.record id state) := by
  obtain ⟨noted, hstates, hnotes, ⟨added, rfl, rfl, hlength, hknown⟩, hmade⟩ := ends_work hwork
  obtain ⟨hidw, hnodup⟩ := List.nodup_cons.mp h.nodup
  have hnotedKnown : noted.known = site.known := by rw [Site.known, hstates, Site.known]
  rw [← hstates] at hid
  have hidKnown : noted.known[id]? = some configs := Site.known_of_states hid
  have hlt {i : Nat} (hi : i ∈ id :: waiting) : i < noted.states.length := by
    obtain ⟨_, hi⟩ := h.untouched i hi
    rw [hstates]
    exact (List.getElem?_eq_some_iff.mp hi).1
  have hnew {i : Nat} (hi : i ∈ List.range' noted.states.length added.length) :
      noted.states.length ≤ i := (List.mem_range'_1.mp hi).1
  rw [List.append_nil]
  refine ⟨?_, fun i hi => ?_, fun i configs' state' hi => ?_, ?_, ?_, fun x => ?_, ?_, ?_⟩
  · refine List.nodup_append.mpr ⟨?_, hnodup, fun i hi j hj hij => ?_⟩
    · exact List.nodup_reverse.mpr List.nodup_range'
    · have := hnew (List.mem_reverse.mp hi)
      have := hlt (.tail _ hj)
      lia
  · rcases List.mem_append.mp hi with hi | hi
    · have hi := List.mem_reverse.mp hi
      obtain ⟨configs', hc⟩ := Site.exists_getElem?_withNew hi
      have hne : id ≠ i := Nat.ne_of_lt (Nat.lt_of_lt_of_le (hlt (.head _)) (hnew hi))
      exact ⟨configs', by rw [Site.getElem?_record, hc, Option.map_some, if_neg hne]⟩
    · obtain ⟨configs', hc⟩ := h.untouched i (.tail _ hi)
      exact ⟨configs', Site.getElem?_round_of_ne (fun heq => hidw (heq ▸ hi)) (hstates ▸ hc)⟩
  · rw [Site.known_record]
    rcases Site.getElem?_round_cases hidKnown hi with ⟨rfl, hs⟩ | ⟨hne, hs⟩ | ⟨hi, _⟩
    · obtain ⟨rfl, rfl⟩ := Prod.mk.inj hs
      exact .inr hmade
    · refine (h.made i _ _ (hstates ▸ hs)).imp (fun hw => ?_) fun hm => hm.mono ?_
      · exact List.mem_append_right _ ((List.mem_cons.mp hw).resolve_left (Ne.symm hne))
      · rw [Site.known_withNew, hnotedKnown]
        exact List.prefix_append _ _
    · exact .inl (List.mem_append_left _ (List.mem_reverse.mpr hi))
  · have := h.fuel
    simp only [Site.record, Site.withNew, List.length_modify, List.length_append,
      List.length_reverse, List.length_range', List.length_map, List.length_cons, hstates] at this ⊢
    omega
  · rw [Site.record, List.length_modify]
    exact hlength (hstates ▸ h.count)
  · have hsame : noted.Ambiguous x ↔ site.Ambiguous x := by
      rw [Site.Ambiguous, hstates]
      exact Iff.rfl
    rw [Site.ambiguous_round_iff hid, hsame, ← h.ambiguities]
    exact hnotes.1 x
  · exact hnotes.2 h.ambiguitiesNodup
  · rw [Site.known_record]
    exact hknown (hnotedKnown ▸ h.knownNodup)

/-- Without rounds left nothing waits. -/
theorem Progressing.waiting_eq_nil {waiting : List StateId} (h : Progressing p 0 waiting site) :
    waiting = [] := by
  refine List.eq_nil_of_length_eq_zero ?_
  have := h.fuel
  have := h.count
  omega

/-- What a round does before the next one. -/
theorem ends_workAll_cons {fuel id : Nat} {waiting : List StateId}
    (h : Progressing p (fuel + 1) (id :: waiting) site)
    (hends : Ends (workAll p (fuel + 1) (id :: waiting)) site (.ok ()) site') :
    ∃ configs state found site₁, site.states[id]? = some (configs, .blank) ∧
      Ends (work p id configs) site (.ok (state, found)) site₁ ∧
      Ends (workAll p fuel (found ++ waiting)) (site₁.record id state) (.ok ()) site' := by
  obtain ⟨configs, hid⟩ := h.untouched id (.head _)
  rw [workAll, ends_get_bind] at hends
  obtain ⟨⟨state, found⟩, site₁, hwork, hrest⟩ := ends_bind_ok.mp hends
  rw [ends_modify_bind] at hrest
  rw [hid] at hwork
  exact ⟨configs, state, found, site₁, hid, hwork, hrest⟩

theorem ends_workAll {fuel : Nat} {waiting : List StateId}
    (h : Progressing p fuel waiting site) (hends : Ends (workAll p fuel waiting) site (.ok ()) site') :
    Built p site' ∧ site.known <+: site'.known := by
  induction fuel generalizing waiting site with
  | zero =>
    obtain ⟨_, rfl⟩ := ends_pure.mp hends
    obtain rfl := h.waiting_eq_nil
    exact ⟨h.built, List.prefix_rfl⟩
  | succ fuel ih =>
    cases waiting with
    | nil =>
      obtain ⟨_, rfl⟩ := ends_pure.mp hends
      exact ⟨h.built, List.prefix_rfl⟩
    | cons id waiting =>
      obtain ⟨configs, state, found, site₁, hid, hwork, hrest⟩ := ends_workAll_cons h hends
      obtain ⟨hbuilt, hprefix⟩ := ih (h.step hid hwork) hrest
      obtain ⟨noted, hstates, _, hgrows, _⟩ := ends_work hwork
      refine ⟨hbuilt, List.IsPrefix.trans ?_ hprefix⟩
      rw [Site.known_record, Site.known, ← hstates]
      exact hgrows.known_prefix

/-- Before the first round only the start state waits. -/
theorem progressing_start (hlt : 0 < p.maxStates) (configs : List Configuration) :
    Progressing p p.maxStates [0] (Site.withNew ⟨[], []⟩ [configs]) := by
  refine ⟨List.pairwise_singleton .., fun id hid => ?_, fun id configs' state hid => ?_,
    Nat.le_refl _, Nat.succ_le_of_lt hlt, fun x => ⟨nofun, ?_⟩, .nil, List.pairwise_singleton ..⟩
  · rw [List.mem_singleton.mp hid]
    exact ⟨configs, rfl⟩
  · obtain ⟨hid, _⟩ := List.getElem?_eq_some_iff.mp hid
    exact .inl (List.mem_singleton.mpr (Nat.lt_one_iff.mp hid))
  · rintro ⟨id, s, hs, _, hx⟩
    rcases Site.getElem?_withNew_cases hs with hs | ⟨_, hs⟩
    · exact nomatch hs
    · rw [hs] at hx
      exact hx.elim nofun nofun

/-- A construction that does not fail works on all states that come from the start state,
which has the configurations of the entries of the decision. -/
theorem workAll_of_outcome (h : outcome p = (.ok (), site)) :
    ∃ configs, Closure.ofEntries p.terrain (p.terrain.network.entriesOf p.decision.id) =
        .ok configs ∧ 0 < p.maxStates ∧
      Ends (workAll p p.maxStates [0]) (Site.withNew ⟨[], []⟩ [configs]) (.ok ()) site := by
  have hends : Ends (buildStates p) ⟨[], []⟩ (.ok ()) site := h
  obtain ⟨configs, s₁, hclose, hrest⟩ := ends_bind_ok.mp hends
  obtain ⟨hconfigs, rfl⟩ := ends_close hclose
  obtain ⟨start, s₂, hadd, hwork⟩ := ends_bind_ok.mp hrest
  obtain ⟨rfl, hlt, rfl⟩ := ends_addState hadd
  exact ⟨configs, hconfigs, hlt, hwork⟩

/-- A construction that does not fail makes all states, and the start state from the
entries of the decision. -/
theorem built_of_outcome (h : outcome p = (.ok (), site)) :
    Built p site ∧ ∃ configs, site.known[0]? = some configs ∧
      Closure.ofEntries p.terrain (p.terrain.network.entriesOf p.decision.id) = .ok configs := by
  obtain ⟨configs, hconfigs, hlt, hwork⟩ := workAll_of_outcome h
  obtain ⟨hbuilt, hprefix⟩ := ends_workAll (progressing_start hlt configs) hwork
  refine ⟨hbuilt, configs, ?_, hconfigs⟩
  obtain ⟨later, hlater⟩ := hprefix
  rw [← hlater]
  rfl

end Construction
end Lookahead
