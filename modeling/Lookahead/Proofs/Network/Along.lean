import Lookahead.Proofs.Grammar.Admits
import Lookahead.Proofs.Network.Traversal

/-! Runs along elements.

What may happen on the way through elements, a run reads on along them. The elements need not
lie in one rule: where a called rule stops, the run goes on behind one of its calls. -/
namespace Lookahead
open Network

/-- The ways of an element lead from one node to another one, or they are those of a loop that
is under way at the node. -/
inductive Ways (g : Grammar) (source target : NodeId) : Element → Prop where
  | lays {e} (h : Lays g source target e) : Ways g source target e
  | loop {d sources as} (hsource : source ∈ sources)
    (hbranches : LaysBranches g d sources source as) (hexit : LaysExit g d source target as.length) :
    Ways g source target (.block .star (some d) as)

/-- A run from the position may go along the elements, and behind them it is live. -/
inductive Along (g : Grammar) (t : Terrain) : Position → List Element → Prop where
  | live {p} (h : p.Live t) : Along g t p []
  | step {p q ps es} (h : Run t p ps q) (hnone : Passage.symbols ps = []) (rest : Along g t q es) :
    Along g t p es
  | cons {node target stack e es} (h : Ways g node target e) (rest : Along g t ⟨target, stack⟩ es) :
    Along g t ⟨node, stack⟩ (e :: es)

variable {g : Grammar} {t : Terrain} {source target : NodeId} {stack : List NodeId}

theorem Along.readsFrom {p : Position} (h : Along g t p []) : ReadsFrom t p [] := by
  generalize hes : ([] : List Element) = es at h
  induction h with
  | live h => exact ⟨[], _, .refl, h, rfl⟩
  | step hrun hnone _ ih => simpa [hnone] using (ih hes).of_run hrun
  | cons => exact nomatch hes

theorem Along.exists_ways {p : Position} {e : Element} {es : List Element}
    (h : Along g t p (e :: es)) : ∃ node target stack ps, Run t p ps ⟨node, stack⟩ ∧
      Passage.symbols ps = [] ∧ Ways g node target e ∧ Along g t ⟨target, stack⟩ es := by
  generalize hes : e :: es = es' at h
  induction h with
  | live => exact nomatch hes
  | step hrun hnone _ ih =>
    obtain ⟨node, target, stack, ps, hrun', hnone', hways, hrest⟩ := ih hes
    exact ⟨node, target, stack, _, hrun.trans hrun',
      by rw [Passage.symbols_append, hnone, hnone']; rfl, hways, hrest⟩
  | cons hways hrest =>
    obtain ⟨rfl, rfl⟩ := List.cons.inj hes
    exact ⟨_, _, _, [], .refl, rfl, hways, hrest⟩

section
variable {kind : BlockKind} {d : Option DecisionId} {as : List (Alternative Element)}

variable (hnetwork : t.network = ofGrammar g)
include hnetwork

theorem Along.sequence {a rest : List Element} (h : LaysAll g source target a)
    (hrest : Along g t ⟨target, stack⟩ rest) : Along g t ⟨source, stack⟩ (a ++ rest) := by
  induction a generalizing source with
  | nil => exact .step (run_silent hnetwork h.nil) rfl hrest
  | cons e a ih =>
    obtain ⟨node, he, ha⟩ := h.head
    exact .cons (.lays he) (ih ha)

variable (hwf : g.WellFormed)
include hwf

/-- Where the rounds of a loop start and end, and where it is left. -/
theorem Ways.exists_loop (h : Ways g source target (.block kind d as)) (stack : List NodeId)
    (hkind : kind = .star ∨ kind = .plus) :
    ∃ id sources node loop, d = some id ∧ node ∈ sources ∧ loop ∈ sources ∧
      Run t ⟨source, stack⟩ [] ⟨node, stack⟩ ∧ (kind = .star → node = loop) ∧
      LaysBranches g id sources loop as ∧ LaysExit g id loop target as.length := by
  cases h with
  | lays h =>
    obtain ⟨id, rfl⟩ := hwf.exists_decision h.mem_parts (by rcases hkind with rfl | rfl <;> decide)
    rcases hkind with rfl | rfl
    · obtain ⟨loop, henter, hbranches, hexit, _⟩ := h.star hwf
      exact ⟨id, [loop], loop, loop, rfl, .head _, .head _, run_silent hnetwork henter,
        fun _ => rfl, hbranches, hexit⟩
    · obtain ⟨loop, hbranches, hexit, _⟩ := h.plus hwf
      exact ⟨id, [source, loop], source, loop, rfl, .head _, .tail _ (.head _), .refl,
        fun h => absurd h (by decide), hbranches, hexit⟩
  | loop hsource hbranches hexit =>
    exact ⟨_, _, source, source, rfl, hsource, hsource, .refl, fun _ => rfl, hbranches, hexit⟩

/-- Where an alternative of a block is entered, and what lies along the way from there. -/
theorem Ways.enter (h : Ways g source target (.block kind d as)) (stack : List NodeId) {i : Nat}
    {a : Alternative Element} (ha : as[i]? = some a) : ∃ entry,
      (∀ id, d = some id → ((ofGrammar g).entriesOf id)[i]? = some entry) ∧
      Run t ⟨source, stack⟩ [] ⟨entry, stack⟩ ∧ ∀ rest, Along g t ⟨target, stack⟩ rest →
        Along g t ⟨entry, stack⟩ (a.elements ++ (kind.again d as ++ rest)) := by
  by_cases hkind : kind = .star ∨ kind = .plus
  · obtain ⟨id, sources, node, loop, rfl, hnode, hloop, hrun, _, hbranches, hexit⟩ :=
      h.exists_loop hnetwork hwf stack hkind
    obtain ⟨entry, hentry, henter, hlays⟩ := hbranches i a ha
    refine ⟨entry, fun _ hid => Option.some.inj hid ▸ hentry,
      hrun.trans (run_silent hnetwork (henter node hnode)), fun rest hrest => ?_⟩
    have hagain : Along g t ⟨loop, stack⟩ (.block .star (some id) as :: rest) :=
      .cons (.loop hloop hbranches hexit) hrest
    rcases hkind with rfl | rfl <;> exact .sequence hnetwork hlays hagain
  · have h : Lays g source target (.block kind d as) := by
      cases h with
      | lays h => exact h
      | loop => exact absurd (.inl rfl) hkind
    have hbranch {id : DecisionId} (hd : d = some id) (hagain : kind.again d as = [])
        (hbranches : LaysBranches g id [source] target as) : ∃ entry,
        (∀ id, d = some id → ((ofGrammar g).entriesOf id)[i]? = some entry) ∧
        Run t ⟨source, stack⟩ [] ⟨entry, stack⟩ ∧ ∀ rest, Along g t ⟨target, stack⟩ rest →
          Along g t ⟨entry, stack⟩ (a.elements ++ (kind.again d as ++ rest)) := by
      subst hd
      obtain ⟨entry, hentry, henter, hlays⟩ := hbranches i a ha
      refine ⟨entry, fun _ hid => Option.some.inj hid ▸ hentry,
        run_silent hnetwork (henter source (.head _)), fun rest hrest => ?_⟩
      rw [hagain]
      exact .sequence hnetwork hlays hrest
    cases kind with
    | single =>
      cases d with
      | some id => exact hbranch rfl rfl (h.single hwf).1
      | none =>
        obtain ⟨b, rfl⟩ := hwf.exists_alternative h.mem_parts
        obtain rfl := List.mem_singleton.mp (List.mem_of_getElem? ha)
        exact ⟨source, by simp, .refl, fun rest hrest => .sequence hnetwork h.alternative hrest⟩
    | optional =>
      obtain ⟨id, rfl⟩ := hwf.exists_decision h.mem_parts (by decide)
      exact hbranch rfl rfl (h.optional hwf).1
    | star => exact absurd (.inl rfl) hkind
    | plus => exact absurd (.inr rfl) hkind

/-- Where a block is left that needs no alternative. -/
theorem Ways.leave (h : Ways g source target (.block kind d as)) (stack : List NodeId)
    (hkind : kind = .optional ∨ kind = .star) : ∃ id entry, d = some id ∧
      ((ofGrammar g).entriesOf id)[as.length]? = some entry ∧
      Run t ⟨source, stack⟩ [] ⟨entry, stack⟩ ∧ Run t ⟨entry, stack⟩ [] ⟨target, stack⟩ := by
  rcases hkind with rfl | rfl
  · obtain ⟨h⟩ := h
    obtain ⟨id, rfl⟩ := hwf.exists_decision h.mem_parts (by decide)
    obtain ⟨entry, hentry, henter, hleave⟩ := (h.optional hwf).2.1
    exact ⟨id, entry, rfl, hentry, run_silent hnetwork henter, run_silent hnetwork hleave⟩
  · obtain ⟨id, _, node, _, rfl, _, _, hrun, hstar, _, entry, hentry, henter, hleave⟩ :=
      h.exists_loop hnetwork hwf stack (.inl rfl)
    obtain rfl := hstar rfl
    exact ⟨id, entry, rfl, hentry, hrun.trans (run_silent hnetwork henter),
      run_silent hnetwork hleave⟩

variable (hopen : ∀ id, t.gateValue id ≠ some false)
include hopen

/-- A run goes through a round that is the last one. -/
theorem Ways.last {n i : Nat} {a : Alternative Element} {bs : List Event}
    (h : Ways g source target (.block kind d as)) (hkind : kind = .star ∨ kind = .plus)
    (ha : as[i]? = some a) (hbs : Derives (g.DerivesIn n) (.sequence a.elements) bs)
    (hnone : Event.symbols bs = []) :
    Run t ⟨source, stack⟩ (Event.passages (Event.chosen d (i + 1) ++ bs)) ⟨target, stack⟩ := by
  obtain ⟨id, sources, node, loop, rfl, hnode, hloop, hrun, _, hbranches, hexit⟩ :=
    h.exists_loop hnetwork hwf stack hkind
  have hlast : Derives (g.DerivesIn n) (.loop (some id) as 1) (Event.chosen (some id) (i + 1) ++ bs) :=
    .last ha hbs hnone
  have hjoins : Joins g node target (.loop (some id) as 1) :=
    ⟨id, sources, loop, rfl, hnode, hloop, fun h => absurd h Nat.one_ne_zero, hbranches, hexit⟩
  exact hrun.trans (hlast.run hnetwork hwf
    (fun _ _ _ hfs hpassable => hfs.run hnetwork hwf hpassable) (fun id _ => hopen id) hjoins)

/-- What may happen on the way through elements is read by a live run along them. -/
theorem Grammar.Admits.readsFrom {es : List Element} {fs : List Event} (h : g.Admits es fs)
    {p : Position} (hp : Along g t p es) : ReadsFrom t p (Event.symbols fs) := by
  -- The way to the first element, and what comes after something on it.
  have hfirst {p : Position} {e : Element} {es : List Element} (hp : Along g t p (e :: es))
      {w : List Symbol} (hrest : ∀ node target stack, Ways g node target e →
        Along g t ⟨target, stack⟩ es → ReadsFrom t ⟨node, stack⟩ w) : ReadsFrom t p w := by
    obtain ⟨node, target, stack, ps, hrun, hnone, hways, hes⟩ := hp.exists_ways
    simpa [hnone] using (hrest node target stack hways hes).of_run hrun
  induction h generalizing p with
  | nil => exact hp.readsFrom
  | before =>
    refine hfirst hp fun _ _ _ (.lays h) _ => ⟨[], _, .refl, .inl ?_, rfl⟩
    exact List.any_eq_true.mpr ⟨_, hnetwork ▸ h.symbols, rfl⟩
  | symbol hx _ ih =>
    exact hfirst hp fun _ target stack (.lays h) hes =>
      (ih hes).of_run (.single (.symbol (hnetwork ▸ h.symbols) hx))
  | @call id r es fs hr _ ih =>
    refine hfirst hp fun _ target stack (.lays h) hes => ?_
    have hstop : t.network.stopOf? (stop id) = some id := by
      rw [hnetwork]
      exact stopOf?_eq_some.mpr ⟨(List.getElem?_eq_some_iff.mp hr).1, rfl⟩
    have hback : Along g t ⟨stop id, target :: stack⟩ es := .step (.single (.back hstop)) rfl hes
    exact (ih (.cons (.lays (lays_rule hr)) hback)).of_run (.single (.call (hnetwork ▸ h.call)))
  | @predicate id es fs _ ih =>
    exact hfirst hp fun _ target stack (.lays h) hes =>
      (ih hes).of_run (.single (.predicate (hnetwork ▸ h.predicate) (hopen id)))
  | action _ ih =>
    exact hfirst hp fun _ target stack (.lays h) hes =>
      (ih hes).of_run (.single (.action (hnetwork ▸ h.action)))
  | enter ha _ ih =>
    refine hfirst hp fun node target stack hways hes => ?_
    obtain ⟨entry, _, henter, halong⟩ := hways.enter hnetwork hwf stack ha
    simpa using (ih (halong _ hes)).of_run henter
  | leave hkind _ ih =>
    refine hfirst hp fun node target stack hways hes => ?_
    obtain ⟨_, _, _, _, henter, hleave⟩ := hways.leave hnetwork hwf stack hkind
    simpa using (ih hes).of_run (henter.trans hleave)
  | last hkind ha hbs hnil _ ih =>
    refine hfirst hp fun node target stack hways hes => ?_
    simpa [Event.symbols_passages] using (ih hes).of_run
      (hways.last hnetwork hwf hopen hkind ha hbs hnil)

end
end Lookahead
