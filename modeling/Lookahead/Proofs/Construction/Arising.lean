import Lookahead.Proofs.Construction.Walk

/-! Where the configurations of states come from.

`Reading` is what the analysis does from some configurations on: it reads a symbol of one of
the ranges that they tell apart, and closes. Every state that is ever added has the closure of
the entries, or what is read on from it, and a construction that fails keeps the states that
it has added (`Rooted`). -/
namespace Lookahead.Construction
variable {p : Plan} {site site' : Site} {configs later : List Configuration} {w z : List Symbol}

/-- From `configs` on, reading a word leads to the configurations `later`. -/
inductive Reading (p : Plan) (configs : List Configuration) :
    List Symbol → List Configuration → Prop where
  | refl : Reading p configs [] configs
  | tail {w later range x reached} (h : Reading p configs w later)
    (hrange : range ∈ SymbolSet.partition (symbolSets p later)) (hx : x ∈ range)
    (hreached : Closure.ofSteps p.terrain
      (Configuration.read p.terrain range.lo range.hi later) = .ok reached) :
    Reading p configs (w ++ [x]) reached

/-- Where configurations represent a word, those that are read on from them represent a longer
one. -/
theorem Reading.represents (sound : p.terrain.Sound) (h : Reading p configs z later)
    (hw : Represents p.terrain p.decision.id w configs) :
    Represents p.terrain p.decision.id (w ++ z) later := by
  induction h with
  | refl => rwa [List.append_nil]
  | tail _ hrange hx hreached ih =>
    rw [← List.append_assoc]
    exact Closure.represents_ofSteps sound ih (covers_iff_of_mem_partition hrange hx) hreached

/-- Reading a word from the entries of the decision leads to configurations. -/
def Arises (p : Plan) (w : List Symbol) (configs : List Configuration) : Prop :=
  ∃ start, Closure.ofEntries p.terrain (p.terrain.network.entriesOf p.decision.id) = .ok start ∧
    Reading p start w configs

theorem Arises.represents (sound : p.terrain.Sound) (h : Arises p w configs) :
    Represents p.terrain p.decision.id w configs := by
  obtain ⟨start, hstart, hreading⟩ := h
  exact hreading.represents sound (Closure.represents_ofEntries sound hstart)

/-- Each range that configurations tell apart has a symbol. -/
theorem Arises.read (h : Arises p w configs) {range : SymbolRange}
    (hrange : range ∈ SymbolSet.partition (symbolSets p configs))
    (hreached : Closure.ofSteps p.terrain
      (Configuration.read p.terrain range.lo range.hi configs) = .ok later) :
    ∃ w, Arises p w later := by
  obtain ⟨start, hstart, hreading⟩ := h
  have hlo : range.lo ∈ range :=
    SymbolRange.mem_iff.mpr ⟨Nat.le_refl _, SymbolSet.lo_le_hi_of_mem_partition hrange⟩
  exact ⟨_, start, hstart, hreading.tail hrange hlo hreached⟩

/-! ### However the construction ends -/

/-- However an action ends, an invariant of the site is kept; if it does not fail, `Q` holds of
what it returns. -/
def Keeps (I : Site → Prop) (m : Build α) (Q : α → Prop) : Prop :=
  ∀ site r site', Ends m site r site' → I site → I site' ∧ ∀ a, r = .ok a → Q a

section
variable {I : Site → Prop} {m : Build α} {f : α → Build β} {R : α → Prop} {Q : β → Prop}

theorem keeps_pure {b : β} (h : Q b) : Keeps I (pure b) Q := by
  intro site r site' hends hI
  obtain ⟨rfl, rfl⟩ := ends_pure.mp hends
  exact ⟨hI, fun a ha => Except.ok.inj ha ▸ h⟩

theorem keeps_throw {e : AnalysisError} : Keeps I (throw e) Q := by
  intro site r site' hends hI
  obtain ⟨rfl, rfl⟩ := ends_throw.mp hends
  exact ⟨hI, nofun⟩

theorem Keeps.bind (hm : Keeps I m R) (hf : ∀ a, R a → Keeps I (f a) Q) :
    Keeps I (m >>= f) Q := by
  intro site r site' hends hI
  rcases ends_bind.mp hends with ⟨e, he, rfl⟩ | ⟨a, s₁, ha, hrest⟩
  · exact ⟨(hm _ _ _ he hI).1, nofun⟩
  · obtain ⟨hI', hR⟩ := hm _ _ _ ha hI
    exact hf a (hR a rfl) _ _ _ hrest hI'

theorem keeps_get_bind {f : Site → Build β} (h : ∀ site, I site → Keeps I (f site) Q) :
    Keeps I (get >>= f) Q :=
  fun site r site' hends hI => h site hI site r site' (ends_get_bind.mp hends) hI

theorem keeps_modify {g : Site → Site} (h : ∀ site, I site → I (g site)) :
    Keeps I (modify g) fun _ => True := by
  intro site r site' hends hI
  obtain ⟨rfl, rfl⟩ := ends_modify.mp hends
  exact ⟨h site hI, fun _ _ => trivial⟩

theorem keeps_close {result : Except RuleId (List Configuration)} {Q : List Configuration → Prop}
    (h : ∀ configs, result = .ok configs → Q configs) : Keeps I (close p result) Q := by
  cases result with
  | ok configs => exact keeps_pure (h configs rfl)
  | error callee => exact keeps_throw

end

/-- All states have configurations that arise. -/
def Rooted (p : Plan) (site : Site) : Prop := ∀ configs ∈ site.known, ∃ w, Arises p w configs

theorem keeps_addState (h : ∃ w, Arises p w configs) :
    Keeps (Rooted p) (addState p configs) fun _ => True := by
  intro site r site' hends hrooted
  refine ⟨?_, fun _ _ => trivial⟩
  simp only [addState, ends_get_bind] at hends
  split at hends
  · obtain ⟨_, rfl⟩ := ends_throw_bind.mp hends
    exact hrooted
  · rw [ends_set_bind, ends_pure] at hends
    obtain ⟨_, rfl⟩ := hends
    intro configs' hconfigs'
    rcases List.mem_append.mp (Site.known_withNew site [configs] ▸ hconfigs') with hold | hnew
    · exact hrooted _ hold
    · exact List.mem_singleton.mp hnew ▸ h

theorem keeps_stateFor (h : ∃ w, Arises p w configs) :
    Keeps (Rooted p) (stateFor p configs) fun _ => True := by
  refine keeps_get_bind fun site _ => ?_
  split
  · exact keeps_pure trivial
  · exact (keeps_addState h).bind fun _ _ => keeps_pure trivial

theorem keeps_follow {range : SymbolRange} {ts : List Transition} {found : List StateId}
    (h : Arises p w configs) (hrange : range ∈ SymbolSet.partition (symbolSets p configs)) :
    Keeps (Rooted p) (follow p configs range ts found) fun _ => True := by
  refine (keeps_close fun reached => h.read hrange).bind fun reached hreached => ?_
  split
  · exact keeps_pure trivial
  · exact (keeps_stateFor hreached).bind fun _ _ => keeps_pure trivial

theorem keeps_followAll {ranges : List SymbolRange} {ts : List Transition} {found : List StateId}
    (h : Arises p w configs) (hranges : ranges ⊆ SymbolSet.partition (symbolSets p configs)) :
    Keeps (Rooted p) (followAll p configs ranges ts found) fun _ => True := by
  induction ranges generalizing ts found with
  | nil => exact keeps_pure trivial
  | cons range ranges ih =>
    obtain ⟨hrange, hranges⟩ := List.cons_subset.mp hranges
    exact (keeps_follow h hrange).bind fun _ _ => ih hranges

theorem keeps_resolve (configs : List Configuration) :
    Keeps (Rooted p) (resolve p configs) fun _ => True := by
  simp only [resolve]
  split
  · refine (keeps_modify fun site hrooted => ?_).bind fun _ _ => keeps_pure trivial
    split <;> exact hrooted
  · exact keeps_pure trivial

theorem keeps_work (id : StateId) (h : configs = [] ∨ ∃ w, Arises p w configs) :
    Keeps (Rooted p) (work p id configs) fun _ => True := by
  match halts : Configuration.alternatives configs with
  | [] =>
    rw [work_of_none p id halts]
    exact keeps_pure trivial
  | [alt] =>
    rw [work_of_one p id halts]
    exact keeps_pure trivial
  | alt :: alt' :: alts =>
    cases hconflict : Configuration.isConflict configs with
    | true =>
      rw [work_of_conflict p id halts hconflict]
      exact (keeps_resolve configs).bind fun _ _ => keeps_pure trivial
    | false =>
      have hne : configs ≠ [] := by
        rintro rfl
        cases halts
      obtain ⟨w, hw⟩ := h.resolve_left hne
      rw [work_of_looking p id halts hconflict]
      refine Keeps.bind (R := fun _ => True) ?_ fun _ _ => ?_
      · unfold resolveAtEnd
        split
        · exact keeps_pure trivial
        · exact keeps_resolve _
      · exact (keeps_followAll hw (List.Subset.refl _)).bind fun _ _ => keeps_pure trivial

theorem keeps_workAll (p : Plan) (fuel : Nat) (waiting : List StateId) :
    Keeps (Rooted p) (workAll p fuel waiting) fun _ => True := by
  induction fuel generalizing waiting with
  | zero => exact keeps_pure trivial
  | succ fuel ih =>
    cases waiting with
    | nil => exact keeps_pure trivial
    | cons id waiting =>
      refine keeps_get_bind fun site hrooted => ?_
      have hconfigs : (site.states[id]?.map (·.1)).getD [] = [] ∨
          ∃ w, Arises p w ((site.states[id]?.map (·.1)).getD []) := by
        cases hs : site.states[id]? with
        | none => exact .inl rfl
        | some s =>
          exact .inr (hrooted s.1 (List.mem_of_getElem? (Site.known_of_states hs)))
      refine (keeps_work id hconfigs).bind fun _ _ => ?_
      refine (keeps_modify fun site hrooted => ?_).bind fun _ _ => ih _
      rw [← Site.record, Rooted, Site.known_record]
      exact hrooted

/-- **Every state arises**, also where the construction fails. -/
theorem rooted_of_outcome {result : Except AnalysisError Unit} (h : outcome p = (result, site)) :
    Rooted p site := by
  have hkeeps : Keeps (Rooted p) (buildStates p) fun _ => True :=
    (keeps_close fun configs hconfigs => ⟨configs, hconfigs, .refl⟩).bind fun configs hconfigs =>
      (keeps_addState ⟨[], hconfigs⟩).bind fun _ _ => keeps_workAll _ _ _
  exact (hkeeps _ _ _ h nofun).1

end Lookahead.Construction
