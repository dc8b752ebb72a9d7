import Lookahead.Analysis.Construction
import Lookahead.Proofs.Bisection
import Lookahead.Proofs.Outcome
import Lookahead.Proofs.SymbolSet.Partition
import Mathlib.Data.List.Forall2

/-! What the parts of the construction do to the site.

The configurations of a state never change once it has a number, so a site only ever knows
more states. Each part of the construction is described by the states that it adds and by
what it returns. -/
namespace Lookahead.Construction
variable {p : Plan} {site site' : Site} {configs : List Configuration}

/-- The configurations of the states, at their numbers. -/
def Site.known (site : Site) : List (List Configuration) := site.states.map (·.1)

@[simp] theorem Site.length_known (site : Site) : site.known.length = site.states.length :=
  List.length_map _

theorem Site.known_of_states {site : Site} {id : StateId} {configs : List Configuration}
    {state : State} (h : site.states[id]? = some (configs, state)) :
    site.known[id]? = some configs := by
  rw [known, List.getElem?_map, h]
  rfl

/-- New states, not worked on yet. -/
def Site.withNew (site : Site) (added : List (List Configuration)) : Site :=
  { site with states := site.states ++ added.map fun configs => (configs, State.blank) }

@[simp] theorem Site.withNew_nil (site : Site) : site.withNew [] = site := by
  simp [withNew]

@[simp] theorem Site.withNew_withNew (site : Site) (added later : List (List Configuration)) :
    (site.withNew added).withNew later = site.withNew (added ++ later) := by
  simp [withNew]

@[simp] theorem Site.known_withNew (site : Site) (added : List (List Configuration)) :
    (site.withNew added).known = site.known ++ added := by
  simp [known, withNew, Function.comp_def]

@[simp] theorem Site.ambiguities_withNew (site : Site) (added : List (List Configuration)) :
    (site.withNew added).ambiguities = site.ambiguities := rfl

theorem ends_close {result : Except RuleId (List Configuration)}
    (h : Ends (close p result) site (.ok configs) site') : result = .ok configs ∧ site' = site := by
  cases result with
  | ok configs' =>
    obtain ⟨hr, hs⟩ := ends_pure_ok.mp h
    exact ⟨congrArg _ hr.symm, hs⟩
  | error callee => exact nomatch (ends_throw.mp h).1

theorem ends_addState {id : StateId} (h : Ends (addState p configs) site (.ok id) site') :
    id = site.states.length ∧ site.states.length < p.maxStates ∧ site' = site.withNew [configs] := by
  simp only [addState, ends_get_bind] at h
  split at h
  · cases (ends_throw_bind.mp h).1
  · next hlt =>
    rw [ends_set_bind, ends_pure_ok] at h
    exact ⟨h.1, Nat.lt_of_not_le hlt, h.2⟩

/-- Configurations get the number of a state that has them, or the next number. -/
theorem ends_stateFor {id : StateId} {isNew : Bool}
    (h : Ends (stateFor p configs) site (.ok (id, isNew)) site') :
    (isNew = false ∧ site' = site ∧ site.known[id]? = some configs) ∨
    (isNew = true ∧ id = site.states.length ∧ site.states.length < p.maxStates ∧
      site' = site.withNew [configs] ∧ configs ∉ site.known) := by
  simp only [stateFor, ends_get_bind] at h
  split at h
  · next id' hid =>
    obtain ⟨hr, rfl⟩ := ends_pure_ok.mp h
    obtain ⟨rfl, rfl⟩ := Prod.mk.inj hr
    obtain ⟨hlt, heq, _⟩ := List.findIdx?_eq_some_iff_getElem.mp hid
    refine .inl ⟨rfl, rfl, ?_⟩
    rw [Site.known, List.getElem?_map, List.getElem?_eq_getElem hlt]
    exact congrArg some (eq_of_beq heq)
  · next hnone =>
    obtain ⟨id', s₁, hadd, hpure⟩ := ends_bind_ok.mp h
    obtain ⟨hr, rfl⟩ := ends_pure_ok.mp hpure
    obtain ⟨rfl, rfl⟩ := Prod.mk.inj hr
    obtain ⟨hid, hlt, hsite⟩ := ends_addState hadd
    refine .inr ⟨rfl, hid, hlt, hsite, fun hmem => ?_⟩
    obtain ⟨s, hs, rfl⟩ := List.mem_map.mp hmem
    have := List.findIdx?_eq_none_iff.mp hnone s hs
    simp at this

/-! ### Following ranges of symbols -/

/-- From `site` to `site'` states may have been added. They are told with the one found
last first, before those found earlier. -/
def Grows (p : Plan) (site : Site) (found : List StateId) (site' : Site) (found' : List StateId) :
    Prop :=
  ∃ added, site' = site.withNew added ∧
    found' = (List.range' site.states.length added.length).reverse ++ found ∧
    (site.states.length ≤ p.maxStates → site'.states.length ≤ p.maxStates) ∧
    (site.known.Nodup → site'.known.Nodup)

namespace Grows
variable {found found' found'' : List StateId} {site'' : Site}

theorem refl (p : Plan) (site : Site) (found : List StateId) : Grows p site found site found :=
  ⟨[], (site.withNew_nil).symm, rfl, id, id⟩

theorem trans (h : Grows p site found site' found') (h' : Grows p site' found' site'' found'') :
    Grows p site found site'' found'' := by
  obtain ⟨added, rfl, rfl, hlength, hnodup⟩ := h
  obtain ⟨later, rfl, rfl, hlength', hnodup'⟩ := h'
  refine ⟨added ++ later, site.withNew_withNew _ _, ?_, hlength' ∘ hlength, hnodup' ∘ hnodup⟩
  have hstates : (site.withNew added).states.length = site.states.length + added.length := by
    simp [Site.withNew]
  rw [hstates, List.length_append, ← List.range'_append_1, List.reverse_append,
    List.append_assoc]

theorem known_prefix (h : Grows p site found site' found') : site.known <+: site'.known := by
  obtain ⟨added, rfl, _⟩ := h
  rw [Site.known_withNew]
  exact List.prefix_append _ _

end Grows

theorem grows_stateFor {id : StateId} {isNew : Bool} (found : List StateId)
    (h : Ends (stateFor p configs) site (.ok (id, isNew)) site') :
    Grows p site found site' (if isNew then id :: found else found) ∧
      site'.known[id]? = some configs := by
  rcases ends_stateFor h with ⟨rfl, rfl, hid⟩ | ⟨rfl, rfl, hlt, rfl, hnew⟩
  · exact ⟨.refl _ _ _, hid⟩
  · refine ⟨⟨[configs], rfl, rfl, fun _ => ?_, fun hnodup => ?_⟩, ?_⟩
    · simpa [Site.withNew] using Nat.succ_le_of_lt hlt
    · rw [Site.known_withNew, List.nodup_append]
      exact ⟨hnodup, List.pairwise_singleton .., fun c hc c' hc' hcc =>
        hnew (List.mem_singleton.mp hc' ▸ hcc ▸ hc)⟩
    · rw [Site.known_withNew, ← site.length_known]
      exact List.getElem?_concat_length ..

/-- The transition on one of the ranges, before those that touch are joined. There is none
where the closure reaches nothing. -/
def OnRange (p : Plan) (known : List (List Configuration)) (configs : List Configuration)
    (range : SymbolRange) (ts : List Transition) : Prop :=
  ∃ reached, Closure.ofSteps p.terrain
      (Configuration.read p.terrain range.lo range.hi configs) = .ok reached ∧
    (reached = [] ∧ ts = [] ∨ reached ≠ [] ∧ ∃ target, known[target]? = some reached ∧
      ts = [⟨range.lo, range.hi, target, Configuration.gateOf reached⟩])

theorem OnRange.mono {known known' : List (List Configuration)} {range : SymbolRange}
    {ts : List Transition} (h : OnRange p known configs range ts) (hk : known <+: known') :
    OnRange p known' configs range ts := by
  obtain ⟨reached, hreached, h⟩ := h
  refine ⟨reached, hreached, h.imp_right fun ⟨hne, target, htarget, hts⟩ => ⟨hne, target, ?_, hts⟩⟩
  obtain ⟨hlt, rfl⟩ := List.getElem?_eq_some_iff.mp htarget
  rw [hk.getElem hlt]
  exact List.getElem?_eq_getElem _

/-- Adds transitions to those on lower symbols, one after the other. -/
def joinAll (ts joined : List Transition) : List Transition :=
  ts.foldl (fun joined t => join t joined) joined

theorem ends_follow {range : SymbolRange} {ts ts' : List Transition} {found found' : List StateId}
    (h : Ends (follow p configs range ts found) site (.ok (ts', found')) site') :
    Grows p site found site' found' ∧
      ∃ new, OnRange p site'.known configs range new ∧ ts' = joinAll new ts := by
  obtain ⟨reached, s₁, hclose, hrest⟩ := ends_bind_ok.mp h
  obtain ⟨hreached, rfl⟩ := ends_close hclose
  split at hrest
  · next hempty =>
    obtain ⟨hr, rfl⟩ := ends_pure_ok.mp hrest
    obtain ⟨rfl, rfl⟩ := Prod.mk.inj hr
    exact ⟨.refl _ _ _, [], ⟨reached, hreached, .inl ⟨List.isEmpty_iff.mp hempty, rfl⟩⟩, rfl⟩
  · next hempty =>
    obtain ⟨⟨target, isNew⟩, s₂, hstate, hpure⟩ := ends_bind_ok.mp hrest
    obtain ⟨hr, rfl⟩ := ends_pure_ok.mp hpure
    obtain ⟨rfl, rfl⟩ := Prod.mk.inj hr
    obtain ⟨hgrows, htarget⟩ := grows_stateFor found hstate
    refine ⟨hgrows, _, ⟨reached, hreached, .inr ⟨fun hnil => ?_, target, htarget, rfl⟩⟩, rfl⟩
    exact hempty (List.isEmpty_iff.mpr hnil)

theorem ends_followAll {ranges : List SymbolRange} {ts ts' : List Transition}
    {found found' : List StateId}
    (h : Ends (followAll p configs ranges ts found) site (.ok (ts', found')) site') :
    Grows p site found site' found' ∧
      ∃ new, List.Forall₂ (OnRange p site'.known configs) ranges new ∧
        ts' = joinAll new.flatten ts := by
  induction ranges generalizing ts found site with
  | nil =>
    obtain ⟨hr, rfl⟩ := ends_pure_ok.mp h
    obtain ⟨rfl, rfl⟩ := Prod.mk.inj hr
    exact ⟨.refl _ _ _, [], .nil, rfl⟩
  | cons range ranges ih =>
    obtain ⟨⟨ts₁, found₁⟩, s₁, hfollow, hrest⟩ := ends_bind_ok.mp h
    obtain ⟨hgrows, new, hnew, rfl⟩ := ends_follow hfollow
    obtain ⟨hgrows', later, hlater, rfl⟩ := ih hrest
    refine ⟨hgrows.trans hgrows', new :: later, .cons (hnew.mono hgrows'.known_prefix) hlater, ?_⟩
    rw [joinAll, joinAll, joinAll, List.flatten_cons, List.foldl_append]

end Lookahead.Construction
