import Lookahead.Proofs.Network.Actions
import Mathlib.Data.List.Infix

/-! The pieces inside a piece.

Each element of a grammar has a piece of its own in the network: its links are among those
of the whole, and its entries and its action edges are next to each other. All other entries
belong to other elements. As no two blocks share a decision, the entries of a decision are
those in the piece of its block, one for each alternative and in their order. -/
namespace Lookahead.Network

/-- Where the alternatives of a decision are entered. -/
def Piece.entriesOf (p : Piece) (d : DecisionId) : List NodeId :=
  (p.entries.filter (·.1 == d)).map (·.2)

@[simp] theorem Piece.entriesOf_append (p q : Piece) (d : DecisionId) :
    (p.append q).entriesOf d = p.entriesOf d ++ q.entriesOf d := by
  simp [entriesOf]

/-- The entries belong to `own` or to decisions of `parts`. -/
def EntriesIn (own : Option DecisionId) (parts : List Element)
    (entries : List (DecisionId × NodeId)) : Prop :=
  ∀ x ∈ entries, own = some x.1 ∨ x.1 ∈ parts.filterMap Element.decision?

/-- `q` is the piece of `part` inside the piece `p` of `parts`. -/
structure Piece.Contains (own : Option DecisionId) (parts : List Element) (p : Piece)
    (part : List Element) (q : Piece) : Prop where
  links : ∀ l ∈ q.links, l ∈ p.links
  split : ∃ before after lower upper, parts = before ++ part ++ after ∧
    p.entries = lower ++ q.entries ++ upper ∧
    EntriesIn own (before ++ after) (lower ++ upper)
  /-- The action edges of `q` come after as many others as the actions of `part`. -/
  actions : (∀ e ∈ parts, e.Shaped) → ∃ k, q.actionNodes <+: p.actionNodes.drop k ∧
    part.filterMap Element.action? <+: (parts.filterMap Element.action?).drop k

section
variable {own d : Option DecisionId} {parts part part' : List Element} {p q q' : Piece}
  {lo : NodeId}

theorem EntriesIn.mono {entries : List (DecisionId × NodeId)} (h : EntriesIn own parts entries)
    (part : List Element) (hparts : ∀ e ∈ parts, e ∈ part) : EntriesIn own part entries := by
  intro x hx
  refine (h x hx).imp_right fun hd => ?_
  obtain ⟨e, he, hd⟩ := List.mem_filterMap.mp hd
  exact List.mem_filterMap.mpr ⟨e, hparts e he, hd⟩

theorem Piece.Within.entriesIn {S T : NodeId → Prop} (h : p.Within S T own parts) :
    EntriesIn own parts p.entries :=
  fun x hx => (h.entries x hx).2

/-- Where no entry belongs to a decision, it has none. -/
theorem EntriesIn.entriesOf_eq_nil {d : DecisionId} (h : EntriesIn own parts p.entries)
    (hown : own ≠ some d) (hd : d ∉ parts.filterMap Element.decision?) : p.entriesOf d = [] := by
  rw [Piece.entriesOf, List.map_eq_nil_iff, List.filter_eq_nil_iff]
  intro x hx hxd
  obtain rfl := eq_of_beq hxd
  exact (h x hx).elim hown hd

namespace Piece.Contains

theorem refl (own : Option DecisionId) (parts : List Element) (p : Piece) :
    p.Contains own parts parts p :=
  ⟨fun _ h => h, ⟨[], [], [], [], by simp, by simp, nofun⟩,
    fun _ => ⟨0, List.prefix_refl _, List.prefix_refl _⟩⟩

theorem subset (h : p.Contains own parts part q) : part ⊆ parts := by
  obtain ⟨before, after, _, _, rfl, _, _⟩ := h.split
  exact List.subset_append_of_subset_left _ (List.subset_append_right _ _)

/-- A part of a part. -/
theorem trans (h : p.Contains own parts part q) (h' : q.Contains none part part' q') :
    p.Contains own parts part' q' where
  links l hl := h.links l (h'.links l hl)
  split := by
    obtain ⟨before, after, lower, upper, rfl, hentries, hin⟩ := h.split
    obtain ⟨before', after', lower', upper', rfl, hentries', hin'⟩ := h'.split
    refine ⟨before ++ before', after' ++ after, lower ++ lower', upper' ++ upper, by simp,
      by simp [hentries, hentries'], ?_⟩
    have houter := hin.mono (before ++ before' ++ (after' ++ after)) fun e he => by grind
    have hinner := hin'.mono (before ++ before' ++ (after' ++ after)) fun e he => by grind
    intro x hx
    by_cases hx' : x ∈ lower ++ upper
    · exact houter x hx'
    · exact .inr ((hinner x (by grind)).resolve_left nofun)
  actions hshaped := by
    obtain ⟨k, hnodes, hactions⟩ := h.actions hshaped
    obtain ⟨k', hnodes', hactions'⟩ := h'.actions fun e he => hshaped e (h.subset he)
    refine ⟨k + k', hnodes'.trans ?_, hactions'.trans ?_⟩ <;> rw [← List.drop_drop]
    · exact hnodes.drop k'
    · exact hactions.drop k'

/-- A piece in front, for parts that come before. -/
theorem append_left {parts' : List Element} (h : p.Contains own parts part q)
    (hin : EntriesIn own parts' q'.entries) (hcounts : q'.Counts lo parts') :
    (q'.append p).Contains own (parts' ++ parts) part q where
  links l hl := List.mem_append_right _ (h.links l hl)
  split := by
    obtain ⟨before, after, lower, upper, rfl, hentries, hin'⟩ := h.split
    refine ⟨parts' ++ before, after, q'.entries ++ lower, upper, by simp, by simp [hentries], ?_⟩
    have hfirst := hin.mono (parts' ++ before ++ after) fun e he => by grind
    have hlater := hin'.mono (parts' ++ before ++ after) fun e he => by grind
    intro x hx
    rw [List.append_assoc] at hx
    exact (List.mem_append.mp hx).elim (hfirst x) (hlater x)
  actions hshaped := by
    obtain ⟨k, hnodes, hactions⟩ := h.actions fun e he => hshaped e (List.mem_append_right _ he)
    have hcount := hcounts.count fun e he => hshaped e (List.mem_append_left _ he)
    refine ⟨q'.actionNodes.length + k, ?_, ?_⟩
    · rwa [actionNodes_append, ← List.drop_drop, List.drop_left]
    · rwa [hcount, List.filterMap_append, ← List.drop_drop, List.drop_left]

/-- A piece behind, for parts that come after. -/
theorem append_right {parts' : List Element} (h : p.Contains own parts part q)
    (hin : EntriesIn own parts' q'.entries) :
    (p.append q').Contains own (parts ++ parts') part q where
  links l hl := List.mem_append_left _ (h.links l hl)
  split := by
    obtain ⟨before, after, lower, upper, rfl, hentries, hin'⟩ := h.split
    refine ⟨before, after ++ parts', lower, upper ++ q'.entries, by simp, by simp [hentries], ?_⟩
    have hfirst := hin'.mono (before ++ (after ++ parts')) fun e he => by grind
    have hlater := hin.mono (before ++ (after ++ parts')) fun e he => by grind
    intro x hx
    rw [← List.append_assoc] at hx
    exact (List.mem_append.mp hx).elim (hfirst x) (hlater x)
  actions hshaped := by
    obtain ⟨k, hnodes, hactions⟩ := h.actions fun e he => hshaped e (List.mem_append_left _ he)
    refine ⟨k, hnodes.trans ?_, hactions.trans ?_⟩
    · rw [actionNodes_append]
      exact (List.prefix_append ..).drop k
    · exact ((List.prefix_append _ parts').filterMap _).drop k

/-- A piece in front that has entries of its own at most. -/
theorem own_left (h : p.Contains own parts part q) (hin : EntriesIn own [] q'.entries)
    (hactions : q'.actionNodes = []) : (q'.append p).Contains own parts part q := by
  have hcounts : q'.Counts 0 [] := .silent hactions rfl
  exact h.append_left hin hcounts

/-- A piece behind that has entries of its own at most. -/
theorem own_right (h : p.Contains own parts part q) (hin : EntriesIn own [] q'.entries) :
    (p.append q').Contains own parts part q := by
  have hright := h.append_right hin
  rwa [List.append_nil] at hright

/-- The decision of a block is one of its parts. -/
theorem block {kind : BlockKind} {as : List (Alternative Element)}
    (h : p.Contains own (Element.partsOfEach as) part q) :
    p.Contains none (Element.block kind own as).parts part q where
  links := h.links
  split := by
    obtain ⟨before, after, lower, upper, hparts, hentries, hin⟩ := h.split
    refine ⟨.block kind own as :: before, after, lower, upper, ?_, hentries, fun x hx => .inr ?_⟩
    · rw [Element.parts, hparts]
      rfl
    · rcases hin x hx with rfl | hd
      · exact List.mem_cons_self
      · obtain ⟨e, he, hd⟩ := List.mem_filterMap.mp hd
        exact List.mem_filterMap.mpr ⟨e, .tail _ he, hd⟩
  actions hshaped := h.actions fun e he => hshaped e (.tail _ he)

/-- The entries of a decision in a part are those in its piece. -/
theorem entriesOf_eq {d : DecisionId} (h : p.Contains own parts part q)
    (hown : own ≠ some d) (hnodup : (parts.filterMap Element.decision?).Nodup)
    (hd : d ∈ part.filterMap Element.decision?) : p.entriesOf d = q.entriesOf d := by
  obtain ⟨_, ⟨before, after, lower, upper, rfl, hentries, hin⟩, _⟩ := h
  rw [List.filterMap_append, List.filterMap_append] at hnodup
  have hout : d ∉ (before ++ after).filterMap Element.decision? := fun hmem => by
    rw [List.filterMap_append] at hmem
    grind
  have hnil {es : List (DecisionId × NodeId)} (hes : ∀ x ∈ es, x ∈ lower ++ upper) :
      (es.filter (·.1 == d)).map (·.2) = [] :=
    EntriesIn.entriesOf_eq_nil (p := ⟨0, [], es⟩) (fun x hx => hin x (hes x hx)) hown hout
  rw [Piece.entriesOf, hentries, List.filter_append, List.filter_append, List.map_append,
    List.map_append, hnil fun x hx => List.mem_append_left _ hx,
    hnil fun x hx => List.mem_append_right _ hx, List.append_nil, List.nil_append]
  rfl

end Piece.Contains
end

/-! ### The parts of sequences and blocks -/

theorem contains_head (source target next : Nat) (e : Element) (es : List Element) :
    (sequence source target next (e :: es)).Contains none (Element.partsOf (e :: es)) e.parts
      (element source next (next + 1) e) := by
  rw [sequence]
  exact (Piece.Contains.refl _ _ _).append_right (lies.2.2 _ _ _ es).entriesIn

theorem contains_tail (source target next : Nat) (e : Element) (es : List Element) :
    (sequence source target next (e :: es)).Contains none (Element.partsOf (e :: es))
      (Element.partsOf es) (sequence next target (element source next (next + 1) e).next es) := by
  rw [sequence]
  exact (Piece.Contains.refl _ _ _).append_left (lies.1 _ _ _ e).entriesIn
    (counts.1 source next (next + 1) e next (Nat.le_succ _) fun _ =>
      ⟨Nat.le_refl _, Nat.lt_succ_self _⟩)

/-- Where alternatives are entered that are laid from `next` on. -/
def branchNodes (target next : NodeId) : List (Alternative Element) → List NodeId
  | [] => []
  | a :: as => next :: branchNodes target (sequence next target (next + 1) a.elements).next as

@[simp] theorem length_branchNodes (target next : NodeId) (as : List (Alternative Element)) :
    (branchNodes target next as).length = as.length := by
  induction as generalizing next with
  | nil => rfl
  | cons a as ih => simp [branchNodes, ih]

theorem entriesIn_entry (d : Option DecisionId) (node : NodeId) :
    EntriesIn d [] (entry d node) := by
  intro x hx
  cases d with
  | none => exact nomatch hx
  | some d => exact .inl (congrArg (fun x => some x.1) (List.mem_singleton.mp hx).symm)

/-- The piece of one of several alternatives. -/
theorem contains_branches (d : Option DecisionId) (sources : List NodeId) (target next : Nat)
    {as : List (Alternative Element)} {i : Nat} {a : Alternative Element} (ha : as[i]? = some a) :
    ∃ node, (branchNodes target next as)[i]? = some node ∧
      (branches d sources target next as).Contains d (Element.partsOfEach as)
        (Element.partsOf a.elements) (sequence node target (node + 1) a.elements) ∧
      ∀ source ∈ sources, ⟨source, .silent node⟩ ∈ (branches d sources target next as).links := by
  induction as generalizing next i with
  | nil => simp at ha
  | cons b as ih =>
    have hentry : EntriesIn d [] (Piece.entries
        ⟨next + 1, sources.map fun source => ⟨source, .silent next⟩, entry d next⟩) :=
      entriesIn_entry d next
    rw [branches]
    cases i with
    | zero =>
      obtain rfl := Option.some.inj ha
      refine ⟨next, rfl, ?_, fun source hsource => ?_⟩
      · refine Piece.Contains.append_right ?_ (lies.2.1 d sources target _ as).entriesIn
        have hfirst := Piece.Contains.refl d (Element.partsOf b.elements)
          (sequence next target (next + 1) b.elements)
        exact hfirst.own_left hentry (actionNodes_enter ..)
      · refine List.mem_append_left _ (List.mem_append_left _ ?_)
        exact List.mem_map_of_mem hsource
    | succ i =>
      obtain ⟨node, hnode, hcontains, hlinks⟩ :=
        ih (sequence next target (next + 1) b.elements).next ha
      have hle := next_le_sequence next target (next + 1) b.elements
      have hcounts := (counts.2.2 next target (next + 1) b.elements).silent_append
        (actionNodes_enter sources next (next + 1) (entry d next)) (Nat.le_succ next)
      refine ⟨node, hnode, hcontains.append_left ?_ hcounts,
        fun source hsource => List.mem_append_right _ (hlinks source hsource)⟩
      intro x hx
      rcases List.mem_append.mp hx with hx | hx
      · exact (hentry x hx).imp_right fun h => absurd h List.not_mem_nil
      · exact (lies.2.2 _ _ _ b.elements).own_none.entriesIn x hx

theorem entriesOf_branches (d : DecisionId) (sources : List NodeId) (target next : Nat)
    {as : List (Alternative Element)}
    (hd : d ∉ (Element.partsOfEach as).filterMap Element.decision?) :
    (branches (some d) sources target next as).entriesOf d = branchNodes target next as := by
  induction as generalizing next with
  | nil => rfl
  | cons a as ih =>
    rw [Element.partsOfEach, List.filterMap_append, List.mem_append, not_or] at hd
    have ha : (sequence next target (next + 1) a.elements).entriesOf d = [] :=
      (lies.2.2 next target (next + 1) a.elements).entriesIn.entriesOf_eq_nil nofun hd.1
    rw [branches, Piece.entriesOf_append, Piece.entriesOf_append, ha, branchNodes, ← ih _ hd.2]
    simp [Piece.entriesOf, entry]

end Lookahead.Network
