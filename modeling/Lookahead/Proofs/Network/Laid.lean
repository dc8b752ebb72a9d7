import Lookahead.Proofs.Network.Contains

/-! Where the elements of a grammar lie in its network.

An element lies between two nodes, and what lies inside it lies along its ways. The entries
of a decision stand in the order of the alternatives, and each of them leads into the ways
of its alternative. -/
namespace Lookahead.Network

/-- The ways of an element lead from one node to another one. -/
def Lays (g : Grammar) (source target : NodeId) (e : Element) : Prop :=
  ∃ next, (pieceOf g).Contains none g.parts e.parts (element source target next e)

/-- The ways of a sequence lead from one node to another one. -/
def LaysAll (g : Grammar) (source target : NodeId) (es : List Element) : Prop :=
  ∃ next, (pieceOf g).Contains none g.parts (Element.partsOf es) (sequence source target next es)

/-- Each alternative of a decision is entered from each of `sources` and leads to `target`. -/
def LaysBranches (g : Grammar) (d : DecisionId) (sources : List NodeId) (target : NodeId)
    (as : List (Alternative Element)) : Prop :=
  ∀ (i : Nat) a, as[i]? = some a → ∃ node, ((ofGrammar g).entriesOf d)[i]? = some node ∧
    (∀ source ∈ sources, .silent node ∈ (ofGrammar g).edgesOf source) ∧
      LaysAll g node target a.elements

/-- The last alternative of a decision leads straight from `source` to `target`. -/
def LaysExit (g : Grammar) (d : DecisionId) (source target : NodeId) (count : Nat) : Prop :=
  ∃ node, ((ofGrammar g).entriesOf d)[count]? = some node ∧
    .silent node ∈ (ofGrammar g).edgesOf source ∧ .silent target ∈ (ofGrammar g).edgesOf node

variable {g : Grammar} {source target : NodeId} {e : Element} {es : List Element}

theorem entriesOf_ofGrammar (g : Grammar) (d : DecisionId) :
    (ofGrammar g).entriesOf d = (pieceOf g).entriesOf d := rfl

theorem Lays.mem_parts (h : Lays g source target e) : e ∈ g.parts := by
  obtain ⟨_, h⟩ := h
  exact h.subset (Element.mem_parts_self e)

/-! ### Sequences -/

theorem LaysAll.head (h : LaysAll g source target (e :: es)) :
    ∃ node, Lays g source node e ∧ LaysAll g node target es := by
  obtain ⟨next, hcontains⟩ := h
  exact ⟨next, ⟨_, hcontains.trans (contains_head source target next e es)⟩,
    ⟨_, hcontains.trans (contains_tail source target next e es)⟩⟩

theorem LaysAll.nil (h : LaysAll g source target []) :
    .silent target ∈ (ofGrammar g).edgesOf source := by
  obtain ⟨next, hcontains⟩ := h
  exact mem_edgesOf.mpr (hcontains.links _ (.head _))

/-! ### Elements that pass one thing -/

theorem Lays.symbols {set : SymbolSet} (h : Lays g source target (.symbols set)) :
    .symbols set target ∈ (ofGrammar g).edgesOf source := by
  obtain ⟨next, hcontains⟩ := h
  exact mem_edgesOf.mpr (hcontains.links _ (.head _))

theorem Lays.call {rule : RuleId} (h : Lays g source target (.call rule)) :
    .call rule target ∈ (ofGrammar g).edgesOf source := by
  obtain ⟨next, hcontains⟩ := h
  exact mem_edgesOf.mpr (hcontains.links _ (.head _))

theorem Lays.predicate {id : PredicateId} (h : Lays g source target (.predicate id)) :
    .predicate id target ∈ (ofGrammar g).edgesOf source := by
  obtain ⟨next, hcontains⟩ := h
  exact mem_edgesOf.mpr (hcontains.links _ (.head _))

theorem Lays.action {id : ActionId} (h : Lays g source target (.action id)) :
    .action target ∈ (ofGrammar g).edgesOf source := by
  obtain ⟨next, hcontains⟩ := h
  exact mem_edgesOf.mpr (hcontains.links _ (.head _))

/-- The edge of an action stands for it. -/
theorem Lays.actionAt (hwf : g.WellFormed) {id : ActionId}
    (h : Lays g source target (.action id)) : (ofGrammar g).actionAt target = id := by
  obtain ⟨next, hcontains⟩ := h
  obtain ⟨k, ⟨nodes, hnodes⟩, ids, hids⟩ := hcontains.actions hwf.shaped
  rw [hwf.actions] at hids
  have hnode : ((pieceOf g).actionNodes.drop k)[0]? = some target := by rw [← hnodes]; rfl
  have hid : ((List.range g.actions.length).drop k)[0]? = some id := by rw [← hids]; rfl
  rw [List.getElem?_drop] at hnode hid
  rw [actionAt_eq hnode]
  obtain ⟨_, hid⟩ := List.getElem?_eq_some_iff.mp hid
  rwa [List.getElem_range] at hid

/-! ### Blocks -/

variable {d : DecisionId} {as : List (Alternative Element)}

theorem Lays.alternative {a : Alternative Element}
    (h : Lays g source target (.block .single none [a])) : LaysAll g source target a.elements := by
  obtain ⟨next, hcontains⟩ := h
  refine ⟨next, hcontains.trans ?_⟩
  have hparts : Element.partsOfEach [a] = Element.partsOf a.elements ++ [] := rfl
  refine Piece.Contains.block ?_
  rw [hparts, List.append_nil]
  exact .refl none _ _

/-- Inside the block of a decision no other block has this decision. -/
theorem decision_not_mem {kind : BlockKind} (hwf : g.WellFormed) {p q : Piece}
    (h : p.Contains none g.parts (Element.block kind (some d) as).parts q) :
    d ∉ (Element.partsOfEach as).filterMap Element.decision? := by
  obtain ⟨before, after, _, _, hparts, _, _⟩ := h.split
  have hnodup : (g.parts.filterMap Element.decision?).Nodup := by
    rw [hwf.decisions]
    exact List.nodup_range
  rw [hparts, List.filterMap_append, List.filterMap_append] at hnodup
  have hblock : (Element.block kind (some d) as).parts.filterMap Element.decision? =
      d :: (Element.partsOfEach as).filterMap Element.decision? := rfl
  rw [hblock] at hnodup
  exact (List.nodup_cons.mp (List.nodup_append.mp (List.nodup_append.mp hnodup).1).2.1).1

/-- The entries of a decision are those in the piece of its block. -/
theorem entriesOf_block {kind : BlockKind} (hwf : g.WellFormed) {q : Piece}
    (h : (pieceOf g).Contains none g.parts (Element.block kind (some d) as).parts q) :
    (ofGrammar g).entriesOf d = q.entriesOf d := by
  rw [entriesOf_ofGrammar]
  refine h.entriesOf_eq nofun ?_ (List.mem_cons_self)
  rw [hwf.decisions]
  exact List.nodup_range

/-- Where the piece of a block is made around branches, its decision has their entries and
then those of the rest, and the alternatives lie along the branches. -/
theorem lays_of_branches {kind : BlockKind} (hwf : g.WellFormed) {q : Piece}
    (hq : (pieceOf g).Contains none g.parts (Element.block kind (some d) as).parts q)
    {sources : List NodeId} {next : NodeId}
    (hcontains : ∀ part q', (branches (some d) sources target next as).Contains (some d)
      (Element.partsOfEach as) part q' → q.Contains (some d) (Element.partsOfEach as) part q')
    {rest : List NodeId}
    (hentries : q.entriesOf d = (branches (some d) sources target next as).entriesOf d ++ rest) :
    LaysBranches g d sources target as ∧
      (ofGrammar g).entriesOf d = branchNodes target next as ++ rest := by
  have hall : (ofGrammar g).entriesOf d = branchNodes target next as ++ rest := by
    rw [entriesOf_block hwf hq, hentries, entriesOf_branches d _ _ _ (decision_not_mem hwf hq)]
  refine ⟨fun i a ha => ?_, hall⟩
  obtain ⟨node, hnode, hnodeContains, hlinks⟩ :=
    contains_branches (some d) sources target next ha
  have hlt : i < (branchNodes target next as).length := (List.getElem?_eq_some_iff.mp hnode).1
  refine ⟨node, ?_, fun source hsource => ?_, node + 1, ?_⟩
  · rw [hall, List.getElem?_append_left hlt, hnode]
  · have hself := hcontains _ _ (.refl (some d) (Element.partsOfEach as) _)
    exact mem_edgesOf.mpr (hq.links _ (hself.links _ (hlinks source hsource)))
  · exact hq.trans (hcontains _ _ hnodeContains).block

theorem Lays.single (hwf : g.WellFormed) (h : Lays g source target (.block .single (some d) as)) :
    LaysBranches g d [source] target as ∧ ((ofGrammar g).entriesOf d).length = as.length := by
  obtain ⟨next, hq⟩ := h
  rw [element] at hq
  obtain ⟨hbranches, hentries⟩ := lays_of_branches hwf hq (fun _ _ h => h)
    (List.append_nil _).symm
  exact ⟨hbranches, by rw [hentries]; simp⟩

/-- The exit of a block, given where its piece leaves it. -/
theorem laysExit_of_leave {kind : BlockKind} {q : Piece}
    (hq : (pieceOf g).Contains none g.parts (Element.block kind (some d) as).parts q)
    {next : NodeId} {nodes : List NodeId} (hlinks : ∀ l ∈ (leave (some d) source target next).links,
      l ∈ q.links) (hentries : (ofGrammar g).entriesOf d = nodes ++ [next]) :
    LaysExit g d source target nodes.length :=
  ⟨next, by rw [hentries]; exact List.getElem?_concat_length ..,
    mem_edgesOf.mpr (hq.links _ (hlinks _ (.head _))),
    mem_edgesOf.mpr (hq.links _ (hlinks _ (.tail _ (.head _))))⟩

theorem entriesOf_leave (d : DecisionId) (source target next : NodeId) :
    (leave (some d) source target next).entriesOf d = [next] := by
  simp [Piece.entriesOf, leave, entry]

theorem Lays.optional (hwf : g.WellFormed)
    (h : Lays g source target (.block .optional (some d) as)) :
    LaysBranches g d [source] target as ∧ LaysExit g d source target as.length ∧
      ((ofGrammar g).entriesOf d).length = as.length + 1 := by
  obtain ⟨next, hq⟩ := h
  rw [element] at hq
  obtain ⟨hbranches, hentries⟩ := lays_of_branches hwf hq
    (fun _ _ h => h.own_right (entriesIn_entry _ _))
    (by rw [Piece.entriesOf_append, entriesOf_leave])
  have hexit := laysExit_of_leave hq (fun l hl => List.mem_append_right _ hl) hentries
  rw [length_branchNodes] at hexit
  exact ⟨hbranches, hexit, by rw [hentries]; simp⟩

theorem Lays.star (hwf : g.WellFormed) (h : Lays g source target (.block .star (some d) as)) :
    ∃ loop, .silent loop ∈ (ofGrammar g).edgesOf source ∧ LaysBranches g d [loop] loop as ∧
      LaysExit g d loop target as.length ∧ ((ofGrammar g).entriesOf d).length = as.length + 1 := by
  obtain ⟨next, hq⟩ := h
  rw [element] at hq
  have henter : EntriesIn (some d) []
      (Piece.link (next + 1) [⟨source, .silent next⟩]).entries := by
    intro x hx
    cases hx
  obtain ⟨hbranches, hentries⟩ := lays_of_branches hwf hq
    (fun _ _ h => (h.own_left henter rfl).own_right (entriesIn_entry _ _))
    (by rw [Piece.entriesOf_append, Piece.entriesOf_append, entriesOf_leave]; rfl)
  have hexit := laysExit_of_leave hq (fun l hl => List.mem_append_right _ hl) hentries
  rw [length_branchNodes] at hexit
  exact ⟨next, mem_edgesOf.mpr (hq.links _ (.head _)), hbranches, hexit, by rw [hentries]; simp⟩

theorem Lays.plus (hwf : g.WellFormed) (h : Lays g source target (.block .plus (some d) as)) :
    ∃ loop, LaysBranches g d [source, loop] loop as ∧
      LaysExit g d loop target as.length ∧ ((ofGrammar g).entriesOf d).length = as.length + 1 := by
  obtain ⟨next, hq⟩ := h
  rw [element] at hq
  obtain ⟨hbranches, hentries⟩ := lays_of_branches hwf hq
    (fun _ _ h => h.own_right (entriesIn_entry _ _))
    (by rw [Piece.entriesOf_append, entriesOf_leave])
  have hexit := laysExit_of_leave hq (fun l hl => List.mem_append_right _ hl) hentries
  rw [length_branchNodes] at hexit
  exact ⟨next, hbranches, hexit, by rw [hentries]; simp⟩

/-! ### All elements of a grammar -/

/-- The part of an alternative of a block that has its usual shape. -/
theorem Lays.exists_alternative (hwf : g.WellFormed) {kind : BlockKind} {d : Option DecisionId}
    (h : Lays g source target (.block kind d as)) (hshaped : (Element.block kind d as).Shaped)
    {a : Alternative Element} (ha : a ∈ as) :
    ∃ source target, LaysAll g source target a.elements := by
  obtain ⟨i, hi⟩ := List.getElem?_of_mem ha
  have hbranch {d sources target} (h : LaysBranches g d sources target as) :
      ∃ source target, LaysAll g source target a.elements := by
    obtain ⟨node, _, _, hlays⟩ := h i a hi
    exact ⟨node, target, hlays⟩
  cases d with
  | none =>
    cases kind with
    | single =>
      obtain ⟨b, rfl⟩ := List.length_eq_one_iff.mp hshaped
      obtain rfl := List.mem_singleton.mp ha
      exact ⟨source, target, h.alternative⟩
    | optional | star | plus => exact nomatch hshaped.1
  | some d =>
    cases kind with
    | single => exact hbranch (h.single hwf).1
    | optional => exact hbranch (h.optional hwf).1
    | star =>
      obtain ⟨_, _, hbranches, _⟩ := h.star hwf
      exact hbranch hbranches
    | plus =>
      obtain ⟨_, hbranches, _⟩ := h.plus hwf
      exact hbranch hbranches

theorem contains_rules (id next : Nat) {rs : List Rule} {i : Nat} {r : Rule} (hr : rs[i]? = some r) :
    ∃ next', (rules id next rs).Contains none (rs.flatMap (·.block.element.parts))
      r.block.element.parts (element (start (id + i)) (stop (id + i)) next' r.block.element) := by
  induction rs generalizing id next i with
  | nil => exact nomatch hr
  | cons r' rs ih =>
    rw [rules, List.flatMap_cons]
    cases i with
    | zero =>
      obtain rfl := Option.some.inj hr
      exact ⟨next, (Piece.Contains.refl none r'.block.element.parts _).append_right
        (within_rules _ _ rs).entriesIn⟩
    | succ i =>
      obtain ⟨next', h⟩ := ih (id + 1) (block (start id) (stop id) next r'.block).next hr
      rw [Nat.add_right_comm] at h
      exact ⟨next', h.append_left (lies.1 _ _ _ r'.block.element).entriesIn (counts_block ..)⟩

/-- The ways of a rule lead from where it starts to where it stops. -/
theorem lays_rule {id : RuleId} {r : Rule} (hr : g.rule? id = some r) :
    Lays g (start id) (stop id) r.block.element := by
  obtain ⟨next, h⟩ := contains_rules 0 (2 * g.rules.length) hr
  rw [Nat.zero_add] at h
  exact ⟨next, h⟩

theorem lays_of_mem (hwf : g.WellFormed) (he : e ∈ g.parts) :
    ∃ source target, Lays g source target e := by
  have hinherited : Grammar.Inherited (· ∈ g.parts) (fun e => ∃ source target, Lays g source target e)
      (fun es => ∃ source target, LaysAll g source target es) := {
    alternative := fun kind d as hmem ⟨source, target, h⟩ a ha =>
      h.exists_alternative hwf (hwf.shaped _ hmem) ha
    head := fun e es ⟨source, target, h⟩ => by
      obtain ⟨node, hhead, _⟩ := h.head
      exact ⟨source, node, hhead⟩
    tail := fun e es ⟨source, target, h⟩ => by
      obtain ⟨node, _, htail⟩ := h.head
      exact ⟨node, target, htail⟩ }
  exact hinherited.forall_mem (fun r hr => ⟨_, _, lays_rule (hwf.rule?_id hr)⟩) e he

/-- A decision has as many entries as its block has alternatives. -/
theorem length_entriesOf (hwf : g.WellFormed) {kind : BlockKind}
    (h : .block kind (some d) as ∈ g.parts) :
    ((ofGrammar g).entriesOf d).length = kind.altCount as.length := by
  obtain ⟨source, target, hlays⟩ := lays_of_mem hwf h
  cases kind with
  | single => exact (hlays.single hwf).2
  | optional => exact (hlays.optional hwf).2.2
  | star =>
    obtain ⟨_, _, _, _, hlength⟩ := hlays.star hwf
    exact hlength
  | plus =>
    obtain ⟨_, _, _, hlength⟩ := hlays.plus hwf
    exact hlength

end Lookahead.Network
