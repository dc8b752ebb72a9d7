import Lookahead.Proofs.Grammar.Derivation
import Lookahead.Proofs.Network.Laid
import Lookahead.Proofs.Run.Basic

/-! Derivations are runs.

What an element lets happen, a run passes on its way from the node where the element begins
to the one where it ends. The stack is the same at both ends: each call that is entered on
the way returns. -/
namespace Lookahead
open Network

namespace Event

/-- What a run passes where the event happens. -/
def passage? : Event → Option Passage
  | symbol x => some (.symbol x)
  | predicate id => some (.predicate id)
  | action _ | choice .. => none

/-- What a run passes. -/
def passages (es : List Event) : List Passage := es.filterMap passage?

@[simp] theorem passages_append (es fs : List Event) :
    passages (es ++ fs) = passages es ++ passages fs :=
  List.filterMap_append

@[simp] theorem passages_chosen (d : Option DecisionId) (alt : Ordinal) :
    passages (chosen d alt) = [] := by
  cases d <;> rfl

theorem symbols_passages (es : List Event) : Passage.symbols (passages es) = symbols es := by
  rw [Passage.symbols, passages, List.filterMap_filterMap, symbols]
  congr 1
  funext e
  cases e <;> rfl

/-- No gate on the way is known to be closed. -/
def Passable (t : Terrain) (es : List Event) : Prop :=
  ∀ id, .predicate id ∈ es → t.gateValue id ≠ some false

theorem Passable.left {t : Terrain} {es fs : List Event} (h : Passable t (es ++ fs)) :
    Passable t es :=
  fun id hid => h id (List.mem_append_left _ hid)

theorem Passable.right {t : Terrain} {es fs : List Event} (h : Passable t (es ++ fs)) :
    Passable t fs :=
  fun id hid => h id (List.mem_append_right _ hid)

end Event

/-- The ways of a portion lead from one node to another one. Without rounds, the ways of a
loop start where its rounds end. -/
def Joins (g : Grammar) (source target : NodeId) : Portion → Prop
  | .element e => Lays g source target e
  | .sequence es => LaysAll g source target es
  | .loop d as n => ∃ id sources loop, d = some id ∧ source ∈ sources ∧ loop ∈ sources ∧
    (n = 0 → source = loop) ∧ LaysBranches g id sources loop as ∧
    LaysExit g id loop target as.length

variable {g : Grammar} {t : Terrain} {source target : NodeId}

section
variable (hnetwork : t.network = ofGrammar g) {stack : List NodeId}
include hnetwork

theorem run_silent {node : NodeId} (h : .silent target ∈ (ofGrammar g).edgesOf node) :
    Run t ⟨node, stack⟩ [] ⟨target, stack⟩ :=
  .single (.silent (hnetwork ▸ h))

/-- With no calls open, a run goes on from where a rule stops to behind each call of it. -/
theorem run_onward (hwf : g.WellFormed) {node : NodeId} {rule : RuleId}
    (h : .call rule target ∈ (ofGrammar g).edgesOf node) :
    Run t ⟨stop rule, []⟩ [] ⟨target, []⟩ := by
  have hlt : rule < g.rules.length := (closed_ofGrammar hwf).call _ _ _ h
  have hstop : t.network.stopOf? (stop rule) = some rule := by
    rw [hnetwork]
    exact stopOf?_eq_some.mpr ⟨hlt, rfl⟩
  refine .single (.onward hstop ?_)
  rw [hnetwork]
  exact mem_followsOf.mpr ⟨hlt, node, mem_edgesOf.mp h⟩

/-- The way through an alternative, from where it is entered. -/
theorem run_exit {d : DecisionId} {count : Nat} (h : LaysExit g d source target count) :
    Run t ⟨source, stack⟩ [] ⟨target, stack⟩ := by
  obtain ⟨node, _, henter, hleave⟩ := h
  exact (run_silent hnetwork henter).trans (run_silent hnetwork hleave)

theorem run_branch {d : DecisionId} {sources : List NodeId} {as : List (Alternative Element)}
    (h : LaysBranches g d sources target as) (hsource : source ∈ sources) {i : Nat}
    {a : Alternative Element} (ha : as[i]? = some a) {ps : List Passage}
    (hrun : ∀ node, LaysAll g node target a.elements → Run t ⟨node, stack⟩ ps ⟨target, stack⟩) :
    Run t ⟨source, stack⟩ ps ⟨target, stack⟩ := by
  obtain ⟨node, _, henter, hlays⟩ := h i a ha
  exact (run_silent hnetwork (henter source hsource)).trans (hrun node hlays)

/-- Derivations pass the ways of their portions. -/
theorem Derives.run (hwf : g.WellFormed) {calls : RuleId → List Event → Prop}
    (hcalls : ∀ id es (stack : List NodeId), calls id es → Event.Passable t es →
      Run t ⟨start id, stack⟩ (Event.passages es) ⟨stop id, stack⟩)
    {portion : Portion} {es : List Event} (h : Derives calls portion es)
    (hpassable : Event.Passable t es) (hjoins : Joins g source target portion) :
    Run t ⟨source, stack⟩ (Event.passages es) ⟨target, stack⟩ := by
  induction h generalizing source target stack with
  | symbols hx => exact .single (.symbol (hnetwork ▸ Lays.symbols hjoins) hx)
  | @call rule es h =>
    have hlt : rule < g.rules.length := hwf.calls rule (Lays.mem_parts hjoins)
    have hback : t.network.stopOf? (stop rule) = some rule := by
      rw [hnetwork]
      exact stopOf?_eq_some.mpr ⟨hlt, rfl⟩
    have henter : Run t ⟨source, stack⟩ [] ⟨start rule, target :: stack⟩ :=
      .single (.call (hnetwork ▸ Lays.call hjoins))
    have hrun := (henter.trans (hcalls rule es (target :: stack) h hpassable)).tail (.back hback)
    rwa [List.nil_append, List.append_nil] at hrun
  | predicate id =>
    exact .single (.predicate (hnetwork ▸ Lays.predicate hjoins) (hpassable id (.head _)))
  | action id => exact .single (.action (hnetwork ▸ Lays.action hjoins))
  | @single d as i a es ha _ ih =>
    rw [Event.passages_append, Event.passages_chosen, List.nil_append]
    cases d with
    | some d =>
      exact run_branch hnetwork (hjoins.single hwf).1 (.head _) ha fun node hlays =>
        ih hpassable.right hlays
    | none =>
      obtain ⟨b, rfl⟩ := hwf.exists_alternative (Lays.mem_parts hjoins)
      obtain rfl := List.mem_singleton.mp (List.mem_of_getElem? ha)
      exact ih hpassable.right (Lays.alternative hjoins)
  | @optional d as i a es ha _ ih =>
    rw [Event.passages_append, Event.passages_chosen, List.nil_append]
    obtain ⟨id, rfl⟩ := hwf.exists_decision (Lays.mem_parts hjoins) (by decide)
    exact run_branch hnetwork (hjoins.optional hwf).1 (.head _) ha fun node hlays =>
      ih hpassable.right hlays
  | @skip d as =>
    obtain ⟨id, rfl⟩ := hwf.exists_decision (Lays.mem_parts hjoins) (by decide)
    exact run_exit hnetwork (hjoins.optional hwf).2.1
  | @star d as n es _ ih =>
    obtain ⟨id, rfl⟩ := hwf.exists_decision (Lays.mem_parts hjoins) (by decide)
    obtain ⟨loop, henter, hbranches, hexit, _⟩ := Lays.star hwf hjoins
    exact (run_silent hnetwork henter).trans
      (ih hpassable ⟨id, [loop], loop, rfl, .head _, .head _, fun _ => rfl, hbranches, hexit⟩)
  | @plus d as n es hn _ ih =>
    obtain ⟨id, rfl⟩ := hwf.exists_decision (Lays.mem_parts hjoins) (by decide)
    obtain ⟨loop, hbranches, hexit, _⟩ := Lays.plus hwf hjoins
    exact ih hpassable ⟨id, [source, loop], loop, rfl, .head _, .tail _ (.head _),
      fun hzero => absurd hzero (Nat.pos_iff_ne_zero.mp hn), hbranches, hexit⟩
  | nil => exact run_silent hnetwork (LaysAll.nil hjoins)
  | cons _ _ ih ih' =>
    obtain ⟨node, hhead, htail⟩ := LaysAll.head hjoins
    rw [Event.passages_append]
    exact (ih hpassable.left hhead).trans (ih' hpassable.right htail)
  | @leave d as =>
    obtain ⟨id, sources, loop, rfl, _, _, hsource, _, hexit⟩ := hjoins
    obtain rfl := hsource rfl
    exact run_exit hnetwork hexit
  | @round d as i a n es fs ha _ _ ih ih' =>
    obtain ⟨id, sources, loop, rfl, hsource, hloop, _, hbranches, hexit⟩ := hjoins
    rw [Event.passages_append, Event.passages_append, Event.passages_chosen, List.nil_append]
    refine Run.trans ?_ (ih' hpassable.right
      ⟨id, sources, loop, rfl, hloop, hloop, fun _ => rfl, hbranches, hexit⟩)
    exact run_branch hnetwork hbranches hsource ha fun node hlays => ih hpassable.left.right hlays
  | @last d as i a es ha _ _ ih =>
    obtain ⟨id, sources, loop, rfl, hsource, _, _, hbranches, hexit⟩ := hjoins
    rw [Event.passages_append, Event.passages_chosen, List.nil_append]
    have hround : Run t ⟨source, stack⟩ (Event.passages es) ⟨loop, stack⟩ :=
      run_branch hnetwork hbranches hsource ha fun node hlays => ih hpassable.right hlays
    have hrun := hround.trans (run_exit hnetwork hexit)
    rwa [List.append_nil] at hrun

/-- A derivation of a rule is a run from where the rule starts to where it stops. -/
theorem Grammar.DerivesIn.run (hwf : g.WellFormed) {n : Nat} {id : RuleId} {es : List Event}
    (h : g.DerivesIn n id es) (hpassable : Event.Passable t es) :
    Run t ⟨start id, stack⟩ (Event.passages es) ⟨stop id, stack⟩ := by
  induction n generalizing id es stack with
  | zero => exact h.elim
  | succ n ih =>
    obtain ⟨r, hr, hes⟩ := h
    exact hes.run hnetwork hwf (fun _ _ _ hfs hpassable => ih hfs hpassable) hpassable (lays_rule hr)

end
end Lookahead
