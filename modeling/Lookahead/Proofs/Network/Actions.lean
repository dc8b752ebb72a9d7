import Lookahead.Proofs.Network.OfGrammar

/-! Which action an action edge stands for.

An action edge says that some action is performed and does not say which one, since lookahead
passes all of them alike. The network tells it all the same: the actions of a grammar are
numbered in the order in which they stand, and so are the nodes that action edges lead to, since
both are numbered as the rules are read (`counts_pieceOf`). So an edge stands for the action
whose number is that of such nodes before the one where it leads (`actionAt`). This is read off
the network alone, and each action of the grammar has one such node (`exists_unique_actionAt`). -/
namespace Lookahead

/-- The node that an action edge leads to. -/
def Edge.actionNode? : Edge → Option NodeId
  | action node => some node
  | _ => none

namespace Network

/-- An action edge leads to the node. -/
def performsAt (n : Network) (node : NodeId) : Bool := n.edges.any (·.contains (.action node))

/-- The action that an action edge to the node stands for. -/
def actionAt (n : Network) (node : NodeId) : ActionId :=
  ((List.range node).filter n.performsAt).length

/-- What an edge passes. -/
def passed? (n : Network) : Edge → Option Element
  | .action node => some (.action (n.actionAt node))
  | e => e.element?

/-- The nodes that the action edges of a piece lead to, in the order in which they are laid. -/
def Piece.actionNodes (p : Piece) : List NodeId := p.links.filterMap (·.edge.actionNode?)

@[simp] theorem Piece.actionNodes_append (p q : Piece) :
    (p.append q).actionNodes = p.actionNodes ++ q.actionNodes := List.filterMap_append

/-- The action edges of a piece lead to ever higher nodes, from `lo` on, and there is one for each
action among the parts. -/
structure Piece.Counts (lo : NodeId) (parts : List Element) (p : Piece) : Prop where
  ascending : p.actionNodes.Pairwise (· < ·)
  among : ∀ node ∈ p.actionNodes, lo ≤ node ∧ node < p.next
  count : (∀ e ∈ parts, e.Shaped) →
    p.actionNodes.length = (parts.filterMap Element.action?).length

namespace Piece.Counts
variable {lo lo' : NodeId} {parts parts' : List Element} {p q : Piece}

/-- A piece without action edges, for parts without actions. -/
theorem silent (hp : p.actionNodes = []) (hparts : parts.filterMap Element.action? = []) :
    p.Counts lo parts where
  ascending := hp ▸ .nil
  among := hp ▸ nofun
  count _ := by rw [hp, hparts]

theorem append (hp : p.Counts lo parts) (hq : q.Counts p.next parts') (hlo : lo ≤ p.next)
    (hnext : p.next ≤ q.next) : (p.append q).Counts lo (parts ++ parts') where
  ascending := by
    rw [actionNodes_append]
    exact List.pairwise_append.mpr ⟨hp.ascending, hq.ascending, fun a ha b hb =>
      Nat.lt_of_lt_of_le (hp.among a ha).2 (hq.among b hb).1⟩
  among node h := by
    rw [actionNodes_append] at h
    rcases List.mem_append.mp h with h | h
    · exact ⟨(hp.among node h).1, Nat.lt_of_lt_of_le (hp.among node h).2 hnext⟩
    · exact ⟨Nat.le_trans hlo (hq.among node h).1, (hq.among node h).2⟩
  count hshaped := by
    rw [actionNodes_append, List.length_append, List.filterMap_append, List.length_append,
      hp.count fun e he => hshaped e (List.mem_append_left _ he),
      hq.count fun e he => hshaped e (List.mem_append_right _ he)]

theorem mono (h : p.Counts lo parts) (hlo : lo' ≤ lo) : p.Counts lo' parts :=
  { h with among := fun node hnode =>
      ⟨Nat.le_trans hlo (h.among node hnode).1, (h.among node hnode).2⟩ }

/-- A piece behind without action edges. -/
theorem append_silent (hp : p.Counts lo parts) (hq : q.actionNodes = []) (hnext : p.next ≤ q.next) :
    (p.append q).Counts lo parts where
  ascending := by
    rw [actionNodes_append, hq, List.append_nil]
    exact hp.ascending
  among node h := by
    rw [actionNodes_append, hq, List.append_nil] at h
    exact ⟨(hp.among node h).1, Nat.lt_of_lt_of_le (hp.among node h).2 hnext⟩
  count hshaped := by
    rw [actionNodes_append, hq, List.append_nil, hp.count hshaped]

/-- A piece in front without action edges. -/
theorem silent_append (hp : p.actionNodes = []) (hq : q.Counts p.next parts) (hlo : lo ≤ p.next) :
    (p.append q).Counts lo parts := by
  have hnodes : (p.append q).actionNodes = q.actionNodes := by
    rw [actionNodes_append, hp, List.nil_append]
  exact {
    ascending := hnodes ▸ hq.ascending
    among := fun node h => by
      rw [hnodes] at h
      exact ⟨Nat.le_trans hlo (hq.among node h).1, (hq.among node h).2⟩
    count := fun hshaped => by rw [hnodes, hq.count hshaped] }

/-- A block is no action. -/
theorem block {kind : BlockKind} {d : Option DecisionId} {as : List (Alternative Element)}
    (h : p.Counts lo (Element.partsOfEach as)) : p.Counts lo (Element.block kind d as).parts :=
  { h with count := fun hshaped => h.count fun e he => hshaped e (.tail _ he) }

end Piece.Counts

theorem actionNodes_enter (sources : List NodeId) (node next : NodeId)
    (entries : List (DecisionId × NodeId)) :
    (⟨next, sources.map fun source => ⟨source, .silent node⟩, entries⟩ : Piece).actionNodes =
      [] := by
  simp [Piece.actionNodes, Edge.actionNode?]

/-- What is laid counts its actions. An action edge leads to the end of its element. -/
theorem counts :
    (∀ (source target next : Nat) e, ∀ lo ≤ next,
      (e.action? ≠ none → lo ≤ target ∧ target < next) →
      (element source target next e).Counts lo e.parts) ∧
    (∀ d sources (target next : Nat) as,
      (branches d sources target next as).Counts next (Element.partsOfEach as)) ∧
    ∀ (source target next : Nat) es,
      (sequence source target next es).Counts next (Element.partsOf es) := by
  apply element.mutual_induct
  case case1 | case2 | case3 =>
    intros
    exact .silent rfl rfl
  case case4 =>
    intro source target next id lo _ hlo
    exact ⟨List.pairwise_singleton .., List.forall_mem_singleton.mpr (hlo (Option.some_ne_none id)),
      fun _ => rfl⟩
  case case5 =>
    intros
    exact .silent rfl rfl
  case case6 =>
    intro source target next ordinal es tail ih lo hlo _
    refine { ih.mono hlo with count := fun hshaped => ?_ }
    -- A block without a decision lists no other alternative.
    obtain rfl : tail = [] := List.length_eq_zero_iff.mp (Nat.succ.inj (hshaped _ (.head _)))
    have hparts : Element.partsOfEach [⟨ordinal, es⟩] = Element.partsOf es := List.append_nil _
    rw [Element.parts, hparts] at hshaped ⊢
    exact ih.count fun e he => hshaped e (.tail _ he)
  case case7 =>
    intro source target next d as ih lo hlo _
    exact .block (ih.mono hlo)
  case case8 =>
    intro source target next d as ih lo hlo _
    exact .block ((ih.mono hlo).append_silent rfl (Nat.le_succ _))
  case case9 =>
    intro source target next d as ih lo hlo _
    have hentered := ih.silent_append (p := .link (next + 1) [⟨source, .silent next⟩]) rfl
      (Nat.le_succ_of_le hlo)
    exact .block (hentered.append_silent rfl (Nat.le_succ _))
  case case10 =>
    intro source target next d as ih lo hlo _
    exact .block ((ih.mono (Nat.le_succ_of_le hlo)).append_silent rfl (Nat.le_succ _))
  case case11 =>
    intros
    exact .silent rfl rfl
  case case12 =>
    intro d sources target next ordinal es as
    dsimp only
    intro ihes ihas
    have hle := next_le_sequence next target (next + 1) es
    have hle' := next_le_branches d sources target (sequence next target (next + 1) es).next as
    have hfirst := ihes.silent_append (actionNodes_enter sources next (next + 1) (entry d next))
      (Nat.le_succ _)
    rw [branches]
    exact hfirst.append ihas (Nat.le_of_succ_le hle) hle'
  case case13 =>
    intros
    exact .silent rfl rfl
  case case14 =>
    intro source target next e es
    dsimp only
    intro ihe ihes
    have hle := next_le_element source next (next + 1) e
    have hle' := next_le_sequence next target (element source next (next + 1) e).next es
    rw [sequence]
    exact (ihe next (Nat.le_succ _) fun _ => ⟨Nat.le_refl _, Nat.lt_succ_self _⟩).append ihes
      (Nat.le_of_succ_le hle) hle'

theorem counts_block (source target next : Nat) (b : Block) :
    (block source target next b).Counts next b.element.parts :=
  counts.1 source target next b.element next (Nat.le_refl _) (absurd rfl)

theorem counts_rules (id next : Nat) (rs : List Rule) :
    (rules id next rs).Counts next (rs.flatMap (·.block.element.parts)) := by
  induction rs generalizing id next with
  | nil => exact .silent rfl rfl
  | cons r rs ih =>
    rw [rules, List.flatMap_cons]
    exact (counts_block _ _ next r.block).append (ih _ _) (next_le_block ..) (next_le_rules ..)

theorem counts_pieceOf (g : Grammar) : (pieceOf g).Counts (2 * g.rules.length) g.parts :=
  counts_rules 0 _ g.rules

/-! ### The number of an action -/

/-- Among the members of an ascending list, an entry has as many below it as come before it. -/
theorem length_filter_range_of_ascending {ts : List Nat} (h : ts.Pairwise (· < ·)) {p : Nat → Bool}
    (hp : ∀ t, p t = true ↔ t ∈ ts) {k t : Nat} (hk : ts[k]? = some t) :
    ((List.range t).filter p).length = k := by
  obtain ⟨hlt, rfl⟩ := List.getElem?_eq_some_iff.mp hk
  have hperm : ((List.range ts[k]).filter p).Perm (ts.take k) := by
    refine (List.perm_ext_iff_of_nodup (List.nodup_range.filter _)
      ((h.imp Nat.ne_of_lt).sublist (List.take_sublist ..))).mpr fun t => ?_
    rw [List.mem_filter, List.mem_range, hp, List.mem_take_iff_getElem]
    constructor
    · rintro ⟨htk, ht⟩
      obtain ⟨i, hi, rfl⟩ := List.mem_iff_getElem.mp ht
      have hik : i < k := Nat.lt_of_not_le fun hki => by
        rcases Nat.lt_or_eq_of_le hki with hki | rfl
        · exact Nat.lt_asymm htk (List.pairwise_iff_getElem.mp h _ _ hlt hi hki)
        · exact Nat.lt_irrefl _ htk
      exact ⟨i, Nat.lt_min.mpr ⟨hik, hi⟩, rfl⟩
    · rintro ⟨i, hi, rfl⟩
      obtain ⟨hik, hi⟩ := Nat.lt_min.mp hi
      exact ⟨List.pairwise_iff_getElem.mp h _ _ hi hlt hik, List.getElem_mem hi⟩
  rw [hperm.length_eq, List.length_take, Nat.min_eq_left (Nat.le_of_lt hlt)]

variable {g : Grammar}

theorem mem_actionNodes {node : NodeId} :
    node ∈ (pieceOf g).actionNodes ↔ ∃ source, .action node ∈ (ofGrammar g).edgesOf source := by
  simp only [Piece.actionNodes, List.mem_filterMap, mem_edgesOf]
  constructor
  · rintro ⟨⟨source, edge⟩, hl, hnode⟩
    cases edge with
    | action node' => exact ⟨source, Option.some.inj hnode ▸ hl⟩
    | silent | symbols | predicate | call => exact nomatch hnode
  · rintro ⟨source, hl⟩
    exact ⟨_, hl, rfl⟩

theorem performsAt_iff {n : Network} {node : NodeId} :
    n.performsAt node = true ↔ ∃ source, .action node ∈ n.edgesOf source := by
  rw [performsAt, Array.any_eq_true']
  constructor
  · rintro ⟨es, hes, hnode⟩
    obtain ⟨source, hsource⟩ := Array.mem_iff_getElem?.mp hes
    exact ⟨source, by rw [edgesOf, hsource]; exact List.contains_iff_mem.mp hnode⟩
  · rintro ⟨source, hnode⟩
    rw [edgesOf] at hnode
    cases hsource : n.edges[source]? with
    | none =>
      rw [hsource] at hnode
      exact absurd hnode List.not_mem_nil
    | some es =>
      rw [hsource] at hnode
      exact ⟨es, Array.mem_of_getElem? hsource, List.contains_iff_mem.mpr hnode⟩

theorem performsAt_ofGrammar {node : NodeId} :
    (ofGrammar g).performsAt node = true ↔ node ∈ (pieceOf g).actionNodes :=
  performsAt_iff.trans mem_actionNodes.symm

/-- The action edge that is laid after `k` other ones stands for action `k`. -/
theorem actionAt_eq {k : Nat} {node : NodeId} (h : (pieceOf g).actionNodes[k]? = some node) :
    (ofGrammar g).actionAt node = k :=
  length_filter_range_of_ascending (counts_pieceOf g).ascending
    (fun _ => performsAt_ofGrammar) h

theorem length_actionNodes (hwf : g.WellFormed) :
    (pieceOf g).actionNodes.length = g.actions.length := by
  rw [(counts_pieceOf g).count hwf.shaped, hwf.actions, List.length_range]

/-- Each action of a grammar has one node that action edges lead to. -/
theorem exists_unique_actionAt (hwf : g.WellFormed) {id : ActionId} (hid : id < g.actions.length) :
    ∃ node, ∀ node', (ofGrammar g).performsAt node' = true ∧ (ofGrammar g).actionAt node' = id ↔
      node' = node := by
  have hlt : id < (pieceOf g).actionNodes.length := (length_actionNodes hwf).symm ▸ hid
  refine ⟨(pieceOf g).actionNodes[id], fun node => ⟨fun ⟨hnode, hsame⟩ => ?_, ?_⟩⟩
  · obtain ⟨k, hk⟩ := List.getElem?_of_mem (performsAt_ofGrammar.mp hnode)
    obtain rfl : k = id := (actionAt_eq hk).symm.trans hsame
    obtain ⟨_, hk⟩ := List.getElem?_eq_some_iff.mp hk
    exact hk.symm
  · rintro rfl
    exact ⟨performsAt_ofGrammar.mpr (List.getElem_mem hlt),
      actionAt_eq (List.getElem?_eq_getElem hlt)⟩

/-- An action edge stands for an action of the grammar. -/
theorem actionAt_lt (hwf : g.WellFormed) {source node : NodeId}
    (h : .action node ∈ (ofGrammar g).edgesOf source) :
    (ofGrammar g).actionAt node < g.actions.length := by
  obtain ⟨k, hk⟩ := List.getElem?_of_mem (mem_actionNodes.mpr ⟨source, h⟩)
  rw [actionAt_eq hk, ← length_actionNodes hwf]
  exact (List.getElem?_eq_some_iff.mp hk).1

end Network
end Lookahead
