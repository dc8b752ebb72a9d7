import Lookahead.Proofs.Grammar.Derivation
import Lookahead.Proofs.Grammar.Trace

/-! What may happen next on the way through elements.

A derivation tells what happens from the beginning of an element to its end. Here elements
stand one after the other, and what may happen on the way through them may stop at any symbol.
A loop is taken apart round by round: what follows a round is the loop again. So the first
thing that happens tells which elements are left (`Grammar.Admits`). -/
namespace Lookahead

/-- What follows an alternative of a block. A loop that has had a round needs no other one. -/
def BlockKind.again (kind : BlockKind) (d : Option DecisionId) (as : List (Alternative Element)) :
    List Element :=
  match kind with
  | single | optional => []
  | star | plus => [.block .star d as]

/-- On the way through elements these events may happen, up to the end or to where a symbol is
read next. -/
inductive Grammar.Admits (g : Grammar) : List Element → List Event → Prop where
  | nil : Admits g [] []
  | before {set es} : Admits g (.symbols set :: es) []
  | symbol {set x es fs} (hx : x ∈ set) (h : Admits g es fs) :
    Admits g (.symbols set :: es) (.symbol x :: fs)
  | call {id r es fs} (hr : g.rule? id = some r) (h : Admits g (r.block.element :: es) fs) :
    Admits g (.call id :: es) fs
  | predicate {id es fs} (h : Admits g es fs) : Admits g (.predicate id :: es) (.predicate id :: fs)
  | action {id es fs} (h : Admits g es fs) : Admits g (.action id :: es) (.action id :: fs)
  | enter {kind d as i a es fs} (ha : as[i]? = some a)
    (h : Admits g (a.elements ++ (kind.again d as ++ es)) fs) :
    Admits g (.block kind d as :: es) (Event.chosen d (i + 1) ++ fs)
  | leave {kind d as es fs} (hkind : kind = .optional ∨ kind = .star) (h : Admits g es fs) :
    Admits g (.block kind d as :: es) (Event.chosen d (as.length + 1) ++ fs)
  /-- A round that reads nothing may be the last one. -/
  | last {kind d as i a n bs es fs} (hkind : kind = .star ∨ kind = .plus) (ha : as[i]? = some a)
    (hbs : Lookahead.Derives (g.DerivesIn n) (.sequence a.elements) bs)
    (hnone : Event.symbols bs = [])
    (h : Admits g es fs) :
    Admits g (.block kind d as :: es) (Event.chosen d (i + 1) ++ (bs ++ fs))

/-- The elements that a portion stands for. Rounds of a loop are a loop that needs none, and if
there are any, one that needs a round. -/
inductive Portion.Covers : Portion → List Element → Prop where
  | element (e) : Covers (.element e) [e]
  | sequence (es) : Covers (.sequence es) es
  | star {d as n} : Covers (.loop d as n) [.block .star d as]
  | plus {d as n} (hn : 0 < n) : Covers (.loop d as n) [.block .plus d as]

variable {g : Grammar}

section
variable {n : Nat}

theorem Portion.Covers.again {d : Option DecisionId} {as : List (Alternative Element)}
    {k : Nat} {here : List Element} (h : (Portion.loop d as k).Covers here) :
    ∃ kind, here = [.block kind d as] ∧ (kind = .star ∨ kind = .plus) ∧
      kind.again d as = [.block .star d as] ∧ (kind = .plus → 0 < k) := by
  cases h with
  | star => exact ⟨.star, rfl, .inl rfl, rfl, nofun⟩
  | plus hk => exact ⟨.plus, rfl, .inr rfl, rfl, fun _ => hk⟩

/-- What is derived may happen, and after it what may happen behind. -/
theorem Derives.admits
    (hcalls : ∀ id es rest gs, g.DerivesIn n id es → g.Admits rest gs →
      g.Admits (.call id :: rest) (es ++ gs))
    {portion : Portion} {es : List Event} (h : Derives (g.DerivesIn n) portion es)
    {here : List Element} (hhere : portion.Covers here) {rest : List Element} {gs : List Event}
    (hrest : g.Admits rest gs) : g.Admits (here ++ rest) (es ++ gs) := by
  induction h generalizing here rest gs with
  | symbols hx =>
    cases hhere
    exact .symbol hx hrest
  | call h =>
    cases hhere
    exact hcalls _ _ _ _ h hrest
  | predicate id =>
    cases hhere
    exact .predicate hrest
  | action id =>
    cases hhere
    exact .action hrest
  | single ha _ ih | optional ha _ ih =>
    cases hhere
    rw [List.append_assoc]
    exact .enter ha (ih (.sequence _) hrest)
  | skip =>
    cases hhere
    exact .leave (.inl rfl) hrest
  | star _ ih =>
    cases hhere
    exact ih .star hrest
  | plus hn _ ih =>
    cases hhere
    exact ih (.plus hn) hrest
  | nil =>
    cases hhere
    exact hrest
  | cons _ _ ih ih' =>
    cases hhere
    rw [List.append_assoc]
    exact ih (.element _) (ih' (.sequence _) hrest)
  | leave =>
    cases hhere with
    | star => exact .leave (.inr rfl) hrest
    | plus hn => exact absurd hn (Nat.lt_irrefl 0)
  | @round d as i a k es fs ha _ _ ih ih' =>
    obtain ⟨kind, rfl, _, hagain, _⟩ := hhere.again
    rw [List.append_assoc, List.append_assoc]
    exact .enter ha (hagain ▸ ih (.sequence _) (ih' .star hrest))
  | last ha h hnone _ =>
    obtain ⟨kind, rfl, hkind, _⟩ := hhere.again
    rw [List.append_assoc]
    exact .last hkind ha h hnone hrest

/-- What a rule derives may happen where it is called. -/
theorem Grammar.DerivesIn.admits {id : RuleId} {es : List Event} (h : g.DerivesIn n id es)
    {rest : List Element} {gs : List Event} (hrest : g.Admits rest gs) :
    g.Admits (.call id :: rest) (es ++ gs) := by
  induction n generalizing id es rest gs with
  | zero => exact h.elim
  | succ n ih =>
    obtain ⟨r, hr, hes⟩ := h
    exact .call hr (hes.admits (fun _ _ _ _ hfs hrest => ih hfs hrest) (.element _) hrest)

theorem Derives.admitsIn {portion : Portion} {es : List Event}
    (h : Derives (g.DerivesIn n) portion es) {here : List Element} (hhere : portion.Covers here)
    {rest : List Element} {gs : List Event} (hrest : g.Admits rest gs) :
    g.Admits (here ++ rest) (es ++ gs) :=
  h.admits (fun _ _ _ _ hfs hrest => hfs.admits hrest) hhere hrest

end

/-- On the way through a block an alternative is entered, or the block is left without one. A
last round may as well be one before the loop is left. -/
theorem Grammar.Admits.block_cases {kind : BlockKind} {d : DecisionId}
    {as : List (Alternative Element)} {es : List Element} {fs : List Event}
    (h : g.Admits (.block kind (some d) as :: es) fs) :
    (∃ i a gs, as[i]? = some a ∧ fs = .choice d (i + 1) :: gs ∧ ∃ gs',
      g.Admits (a.elements ++ (kind.again (some d) as ++ es)) gs' ∧
        Event.symbols gs' = Event.symbols gs ∧ gs'.length ≤ fs.length) ∨
    ∃ gs, (kind = .optional ∨ kind = .star) ∧ fs = .choice d (as.length + 1) :: gs ∧
      g.Admits es gs := by
  cases h with
  | @enter _ _ _ i a _ gs ha h =>
    exact .inl ⟨i, a, gs, ha, rfl, gs, h, rfl, Nat.le_succ _⟩
  | leave hkind h => exact .inr ⟨_, hkind, rfl, h⟩
  | @last _ _ _ i a n bs _ gs hkind ha hbs _ h =>
    have hagain : g.Admits (kind.again (some d) as ++ es) (.choice d (as.length + 1) :: gs) := by
      rcases hkind with rfl | rfl <;> exact .leave (.inr rfl) h
    refine .inl ⟨i, a, bs ++ gs, ha, rfl, bs ++ .choice d (as.length + 1) :: gs,
      hbs.admitsIn (.sequence a.elements) hagain, ?_, ?_⟩
    · simp
    · simp [Event.chosen, Nat.add_assoc]

/-- What may happen on the way through a loop that needs a round may happen where it needs none. -/
theorem Grammar.Admits.star_of_plus {d : Option DecisionId} {as : List (Alternative Element)}
    {es : List Element} {fs : List Event} (h : g.Admits (.block .plus d as :: es) fs) :
    g.Admits (.block .star d as :: es) fs := by
  cases h with
  | enter ha h => exact .enter ha h
  | leave hkind => exact absurd hkind (by decide)
  | last _ ha hbs hnone h => exact .last (.inl rfl) ha hbs hnone h

/-! ### Steps through phrases -/

/-- The elements of phrases that stand one after the other. -/
inductive Phrase.Listed : List Phrase → List Element → Prop where
  | nil : Listed [] []
  | element {e ps es} (h : Listed ps es) : Listed (.element e :: ps) (e :: es)
  | sequence {a ps es} (h : Listed ps es) : Listed (.sequence a :: ps) (a ++ es)
  | rounds {as ps es} (d) (h : Listed ps es) :
    Listed (.rounds as :: ps) (.block .star (some d) as :: es)

/-- What reads the word may happen. -/
def Grammar.Offers (g : Grammar) (es : List Element) (w : List Symbol) : Prop :=
  ∃ fs, g.Admits es fs ∧ Event.symbols fs = w

theorem Grammar.Offers.enter {kind : BlockKind} {d : Option DecisionId}
    {as : List (Alternative Element)} {a : Alternative Element} (ha : a ∈ as) {es : List Element}
    {w : List Symbol} (h : g.Offers (a.elements ++ (kind.again d as ++ es)) w) :
    g.Offers (.block kind d as :: es) w := by
  obtain ⟨fs, hfs, rfl⟩ := h
  obtain ⟨i, hi⟩ := List.getElem?_of_mem ha
  exact ⟨_, .enter hi hfs, by simp⟩

theorem Grammar.Offers.leave {kind : BlockKind} {d : Option DecisionId}
    {as : List (Alternative Element)} (hkind : kind = .optional ∨ kind = .star) {es : List Element}
    {w : List Symbol}
    (h : g.Offers es w) : g.Offers (.block kind d as :: es) w := by
  obtain ⟨fs, hfs, rfl⟩ := h
  exact ⟨_, .leave hkind hfs, by simp⟩

/-- After a step, what it lists and then what it leaves offer what the phrases did. -/
theorem Advance.offers {p : Phrase} {x : Option Element} {qs ps : List Phrase} {es : List Element}
    (h : Advance p x qs) (hes : Phrase.Listed (p :: ps) es) :
    ∃ es', Phrase.Listed (qs ++ ps) es' ∧ ∀ w, g.Offers (x.toList ++ es') w → g.Offers es w := by
  induction h generalizing ps es with
  | leaf =>
    cases hes with
    | element hps => exact ⟨_, hps, fun _ hw => hw⟩
  | alternative _ ih =>
    cases hes with
    | element hps =>
      obtain ⟨es', hes', hoffers⟩ := ih (.sequence hps)
      exact ⟨es', hes', fun w hw => (hoffers w hw).enter (.head _)⟩
  | single ha | optional ha =>
    cases hes with
    | element hps => exact ⟨_, .sequence hps, fun _ hw => .enter ha hw⟩
  | skip =>
    cases hes with
    | element hps => exact ⟨_, .sequence hps, fun _ hw => .leave (.inl rfl) hw⟩
  | star =>
    cases hes with
    | element hps => exact ⟨_, .rounds _ hps, fun _ hw => hw⟩
  | plus ha =>
    cases hes with
    | element hps => exact ⟨_, .sequence (.rounds _ hps), fun _ hw => .enter ha hw⟩
  | nil =>
    cases hes with
    | sequence hps => exact ⟨_, hps, fun _ hw => hw⟩
  | @cons e es x qs _ ih =>
    cases hes with
    | sequence hps =>
      obtain ⟨es', hes', hoffers⟩ := ih (.element (.sequence hps))
      exact ⟨es', by simpa using hes', hoffers⟩
  | round ha =>
    cases hes with
    | rounds d hps => exact ⟨_, .sequence (.rounds d hps), fun _ hw => .enter ha hw⟩
  | leave =>
    cases hes with
    | rounds d hps => exact ⟨_, .sequence hps, fun _ hw => .leave (.inr rfl) hw⟩

end Lookahead
