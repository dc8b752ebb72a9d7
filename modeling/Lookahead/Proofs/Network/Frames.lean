import Lookahead.Proofs.Grammar.Admits
import Lookahead.Proofs.Network.Path
import Lookahead.Proofs.Run.Basic

/-! What a run reads may happen.

While a run is under way, phrases wait at its position: those up to the end of the innermost
call, then those behind the call, and so on. Each move takes a step through the first of them,
enters a call or returns from one. So the run reads what the phrases where it begins offer. -/
namespace Lookahead
open Network

/-- No rule stops at the node. -/
def Inner (g : Grammar) (n : NodeId) : Prop := ∀ rule < g.rules.length, n ≠ stop rule

/-- The phrases that wait at a position. Each call ends where its rule stops, and the outermost
phrases end at `bottom`. -/
def Waiting (g : Grammar) (bottom : NodeId) : NodeId → List NodeId → List Phrase → Prop
  | node, [], ps => SpansAll g (Inner g) bottom node ps
  | node, follow :: stack, ps => ∃ rule < g.rules.length, ∃ qs rs, ps = qs ++ rs ∧
    SpansAll g (Inner g) (stop rule) node qs ∧ Waiting g bottom follow stack rs

/-- These are the elements of the phrases that wait at a position. -/
def Offering (g : Grammar) (bottom : NodeId) (p : Position) (es : List Element) : Prop :=
  ∃ ps, Waiting g bottom p.node p.stack ps ∧ Phrase.Listed ps es

variable {g : Grammar} {bottom node target : NodeId} {stack : List NodeId} {ps : List Phrase}
  {x : Edge}

/-- From where a rule stops, no phrase leads on. -/
theorem Network.SpansAll.eq_nil {rule : RuleId} (hrule : rule < g.rules.length)
    (h : SpansAll g (Inner g) target (stop rule) ps) : ps = [] ∧ stop rule = target := by
  cases ps with
  | nil => exact ⟨rfl, h⟩
  | cons p ps =>
    obtain ⟨_, hp, _⟩ := h
    exact absurd rfl (hp.may_source rule hrule)

theorem Network.SpansAll.advance (hwf : g.WellFormed) (h : SpansAll g (Inner g) target node ps)
    (hne : node ≠ target) (hx : x ∈ (ofGrammar g).edgesOf node) : ∃ p qs rest, ps = p :: rest ∧
      Advance p ((ofGrammar g).passed? x) qs ∧
        SpansAll g (Inner g) target x.target (qs ++ rest) := by
  cases ps with
  | nil => exact absurd h hne
  | cons p ps =>
    obtain ⟨_, hp, hps⟩ := h
    obtain ⟨qs, hqs, hadvance⟩ := hp.advances hwf hx
    exact ⟨p, qs, ps, rfl, hadvance, hqs.append hps⟩

theorem Waiting.call {rule : RuleId} {r : Rule} (hr : g.rule? rule = some r)
    (h : Waiting g bottom node stack ps) :
    Waiting g bottom (start rule) (node :: stack) (.element r.block.element :: ps) := by
  have hrule : rule < g.rules.length := (List.getElem?_eq_some_iff.mp hr).1
  refine ⟨rule, hrule, [.element r.block.element], ps, rfl, .singleton (p := .element _) ?_, h⟩
  refine spans_rule_inside hr fun n hn id hid => ?_
  simp only [start, stop] at hn ⊢
  lia

/-- A return leaves the phrases that wait behind the call. -/
theorem Waiting.back {rule : RuleId} {follow : NodeId} (hrule : rule < g.rules.length)
    (h : Waiting g bottom (stop rule) (follow :: stack) ps) : Waiting g bottom follow stack ps := by
  obtain ⟨_, _, qs, rs, rfl, hqs, hrs⟩ := h
  rw [(hqs.eq_nil hrule).1]
  exact hrs

/-- No rule goes on from `bottom`, and no edge does. -/
structure IsBottom (g : Grammar) (bottom : NodeId) : Prop where
  edges : (ofGrammar g).edgesOf bottom = []
  follows : ∀ rule, bottom = stop rule → (ofGrammar g).followsOf rule = []

section
variable (hwf : g.WellFormed) (hbottom : IsBottom g bottom)
include hwf hbottom

/-- An edge takes a step through the first phrase that waits. -/
theorem Waiting.advance (h : Waiting g bottom node stack ps)
    (hx : x ∈ (ofGrammar g).edgesOf node) : ∃ p qs rest, ps = p :: rest ∧
      Advance p ((ofGrammar g).passed? x) qs ∧ Waiting g bottom x.target stack (qs ++ rest) := by
  cases stack with
  | nil =>
    refine h.advance hwf (fun heq => ?_) hx
    rw [heq, hbottom.edges] at hx
    exact nomatch hx
  | cons follow stack =>
    obtain ⟨rule, hrule, ps, rs, rfl, hps, hrs⟩ := h
    have hne : node ≠ stop rule := fun heq => by
      rw [heq, (closed_ofGrammar hwf).stop _ rule (stopOf?_eq_some.mpr ⟨hrule, rfl⟩)] at hx
      exact nomatch hx
    obtain ⟨p, qs, rest, rfl, hadvance, hspans⟩ := hps.advance hwf hne hx
    exact ⟨p, qs, rest ++ rs, rfl, hadvance, rule, hrule, qs ++ rest, rs,
      (List.append_assoc ..).symm, hspans, hrs⟩

variable {t : Terrain} (hnetwork : t.network = ofGrammar g)
include hnetwork

/-- A move reads what the elements at the one position offer before those at the other one. -/
theorem Move.offers {p q : Position} {passed : List Passage} (h : Move t p passed q)
    {es : List Element} (hes : Offering g bottom p es) : ∃ es', Offering g bottom q es' ∧
      ∀ w, g.Offers es' w → g.Offers es (Passage.symbols passed ++ w) := by
  obtain ⟨ps, hps, hlisted⟩ := hes
  have hedge {node : NodeId} {stack : List NodeId} {x : Edge} (hx : x ∈ t.network.edgesOf node)
      (hps : Waiting g bottom node stack ps) : ∃ ps' es', Waiting g bottom x.target stack ps' ∧
        Phrase.Listed ps' es' ∧
          ∀ w, g.Offers (((ofGrammar g).passed? x).toList ++ es') w → g.Offers es w := by
    obtain ⟨p, qs, rest, rfl, hadvance, hwaiting⟩ := hps.advance hwf hbottom (hnetwork ▸ hx)
    obtain ⟨es', hes', hoffers⟩ := hadvance.offers hlisted
    exact ⟨_, es', hwaiting, hes', hoffers⟩
  cases h with
  | silent he =>
    obtain ⟨ps', es', hwaiting, hes', hoffers⟩ := hedge he hps
    exact ⟨es', ⟨ps', hwaiting, hes'⟩, hoffers⟩
  | action he =>
    obtain ⟨ps', es', hwaiting, hes', hoffers⟩ := hedge he hps
    exact ⟨es', ⟨ps', hwaiting, hes'⟩, fun w ⟨fs, hfs, hw⟩ => hoffers w ⟨_, .action hfs, hw⟩⟩
  | @symbol _ _ _ _ x he hx =>
    obtain ⟨ps', es', hwaiting, hes', hoffers⟩ := hedge he hps
    exact ⟨es', ⟨ps', hwaiting, hes'⟩, fun w ⟨fs, hfs, hw⟩ =>
      hoffers _ ⟨_, .symbol hx hfs, congrArg (x :: ·) hw⟩⟩
  | predicate he _ =>
    obtain ⟨ps', es', hwaiting, hes', hoffers⟩ := hedge he hps
    exact ⟨es', ⟨ps', hwaiting, hes'⟩, fun w ⟨fs, hfs, hw⟩ => hoffers w ⟨_, .predicate hfs, hw⟩⟩
  | @call _ rule follow _ he =>
    obtain ⟨ps', es', hwaiting, hes', hoffers⟩ := hedge he hps
    have hrule : rule < g.rules.length := (closed_ofGrammar hwf).call _ _ _ (hnetwork ▸ he)
    obtain ⟨r, hr⟩ : ∃ r, g.rule? rule = some r := ⟨_, List.getElem?_eq_getElem hrule⟩
    exact ⟨_, ⟨_, hwaiting.call hr, .element hes'⟩, fun w ⟨fs, hfs, hw⟩ =>
      hoffers w ⟨fs, .call hr hfs, hw⟩⟩
  | back hstop =>
    rw [hnetwork] at hstop
    obtain ⟨hrule, rfl⟩ := stopOf?_eq_some.mp hstop
    exact ⟨es, ⟨ps, hps.back hrule, hlisted⟩, fun _ hw => hw⟩
  | onward hstop hf =>
    rw [hnetwork] at hstop hf
    obtain ⟨hrule, rfl⟩ := stopOf?_eq_some.mp hstop
    have heq : bottom = stop _ := (SpansAll.eq_nil hrule hps).2.symm
    rw [hbottom.follows _ heq] at hf
    exact nomatch hf

/-- What a live run reads, the elements at the position where it begins offer. -/
theorem ReadsFrom.offers {p : Position} {w : List Symbol} (h : ReadsFrom t p w)
    {es : List Element} (hes : Offering g bottom p es) : g.Offers es w := by
  obtain ⟨passed, q, hrun, hlive, rfl⟩ := h
  have hmoves : ∃ es', Offering g bottom q es' ∧
      ∀ w, g.Offers es' w → g.Offers es (Passage.symbols passed ++ w) := by
    clear hlive
    induction hrun with
    | refl => exact ⟨es, hes, fun _ hw => hw⟩
    | tail _ hmove ih =>
      obtain ⟨es₁, hes₁, hoffers⟩ := ih
      obtain ⟨es₂, hes₂, hoffers'⟩ := hmove.offers hwf hbottom hnetwork hes₁
      refine ⟨es₂, hes₂, fun w hw => ?_⟩
      rw [Passage.symbols_append, List.append_assoc]
      exact hoffers _ (hoffers' w hw)
  obtain ⟨es', ⟨ps, hps, hlisted⟩, hoffers⟩ := hmoves
  rw [← List.append_nil (Passage.symbols passed)]
  refine hoffers [] ?_
  rcases hlive with hmatches | ⟨rule, _, hstop, hstack⟩
  · obtain ⟨x, hx, hsymbols⟩ := List.any_eq_true.mp hmatches
    obtain ⟨p, qs, rest, rfl, hadvance, _⟩ := hps.advance hwf hbottom (hnetwork ▸ hx)
    obtain ⟨es'', _, hoffers'⟩ := hadvance.offers hlisted
    cases x with
    | symbols set target => exact hoffers' [] ⟨[], .before, rfl⟩
    | _ => exact nomatch hsymbols
  · rw [hnetwork] at hstop
    obtain ⟨hrule, hnode⟩ := stopOf?_eq_some.mp hstop
    rw [hstack, hnode] at hps
    obtain ⟨rfl, _⟩ := SpansAll.eq_nil hrule hps
    cases hlisted
    exact ⟨[], .nil, rfl⟩

end
end Lookahead
