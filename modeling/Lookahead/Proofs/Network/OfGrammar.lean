import Lookahead.Proofs.Network.Layout

/-! The network of a well-formed grammar.

Its edges are the links of the rules, laid one after the other. None of them leads out of
the network or calls a rule that does not exist, and where a rule stops no edge goes on
(`closed_ofGrammar`). -/
namespace Lookahead.Network

/-- The nodes where rules from `id` up to the one before `stop` start. -/
def Starts (id stop : RuleId) (n : NodeId) : Prop := ∃ k, id ≤ k ∧ k < stop ∧ n = Network.start k

/-- The nodes where these rules stop. -/
def Stops (id stop : RuleId) (n : NodeId) : Prop := ∃ k, id ≤ k ∧ k < stop ∧ n = Network.stop k

theorem next_le_block (source target next : Nat) (b : Block) :
    next ≤ (block source target next b).next := next_le_element source target next b.element

theorem next_le_rules (id next : Nat) (rs : List Rule) : next ≤ (rules id next rs).next := by
  induction rs generalizing id next with
  | nil => exact Nat.le_refl _
  | cons r rs ih => exact Nat.le_trans (next_le_block (start id) (stop id) next r.block) (ih _ _)

theorem within_rules (id next : Nat) (rs : List Rule) :
    (rules id next rs).Within
      (fun n : Nat => Starts id (id + rs.length) n ∨ next ≤ n ∧ n < (rules id next rs).next)
      (fun n : Nat => Stops id (id + rs.length) n ∨ next ≤ n ∧ n < (rules id next rs).next)
      none (rs.flatMap (·.block.element.parts)) := by
  induction rs generalizing id next with
  | nil => exact ⟨nofun, nofun, nofun, nofun⟩
  | cons r rs ih =>
    have hle := next_le_block (start id) (stop id) next r.block
    have hle' := next_le_rules (id + 1) (block (start id) (stop id) next r.block).next rs
    have hr := lies.1 (start id) (stop id) next r.block.element
    have hfirst : Starts id (id + (r :: rs).length) (start id) ∧
        Stops id (id + (r :: rs).length) (stop id) :=
      ⟨⟨id, Nat.le_refl _, by simp, rfl⟩, ⟨id, Nat.le_refl _, by simp, rfl⟩⟩
    have hlen : id + 1 + rs.length = id + (r :: rs).length := by
      rw [List.length_cons]
      omega
    refine .append (hr.mono (fun n hn => ?_) (fun n hn => ?_) fun e he => List.mem_append_left _ he)
      ((ih (id + 1) _).mono (fun n hn => ?_) (fun n hn => ?_) fun e he => List.mem_append_right _ he)
    · rcases hn with hn | hn
      · exact .inl (List.mem_singleton.mp hn ▸ hfirst.1)
      · exact .inr ⟨hn.1, Nat.lt_of_lt_of_le hn.2 hle'⟩
    · rcases hn with hn | hn
      · exact .inl (List.mem_singleton.mp hn ▸ hfirst.2)
      · exact .inr ⟨hn.1, Nat.lt_of_lt_of_le hn.2 hle'⟩
    · rcases hn with ⟨k, hk, hks, hn⟩ | hn
      · exact .inl ⟨k, Nat.le_of_succ_le hk, hlen ▸ hks, hn⟩
      · exact .inr ⟨Nat.le_trans hle hn.1, hn.2⟩
    · rcases hn with ⟨k, hk, hks, hn⟩ | hn
      · exact .inl ⟨k, Nat.le_of_succ_le hk, hlen ▸ hks, hn⟩
      · exact .inr ⟨Nat.le_trans hle hn.1, hn.2⟩

/-- The links and entries of a grammar's rules. -/
def pieceOf (g : Grammar) : Piece := rules 0 (2 * g.rules.length) g.rules

section
variable {g : Grammar}

theorem within_pieceOf (g : Grammar) :
    (pieceOf g).Within
      (fun n : Nat => Starts 0 g.rules.length n ∨ 2 * g.rules.length ≤ n ∧ n < (pieceOf g).next)
      (fun n : Nat => Stops 0 g.rules.length n ∨ 2 * g.rules.length ≤ n ∧ n < (pieceOf g).next)
      none g.parts := by
  have h := within_rules 0 (2 * g.rules.length) g.rules
  rwa [Nat.zero_add] at h

theorem size_ofGrammar (g : Grammar) : (ofGrammar g).size = (pieceOf g).next := by
  simp [size, ofGrammar, pieceOf]

theorem le_size (g : Grammar) : 2 * g.rules.length ≤ (ofGrammar g).size := by
  rw [size_ofGrammar]
  exact next_le_rules 0 _ g.rules

theorem lt_size_of_source {l : Link} (h : l ∈ (pieceOf g).links) : l.source < (pieceOf g).next := by
  rcases (within_pieceOf g).sources l h with ⟨k, _, hk, hn⟩ | hn
  · have := next_le_rules 0 (2 * g.rules.length) g.rules
    rw [hn]
    simp only [start, pieceOf]
    lia
  · exact hn.2

theorem lt_size_of_target {n : Nat}
    (h : Stops 0 g.rules.length n ∨ 2 * g.rules.length ≤ n ∧ n < (pieceOf g).next) :
    n < (ofGrammar g).size := by
  rw [size_ofGrammar]
  rcases h with ⟨k, _, hk, hn⟩ | hn
  · have := next_le_rules 0 (2 * g.rules.length) g.rules
    rw [hn]
    simp only [stop, pieceOf]
    lia
  · exact hn.2

theorem mem_edgesOf {e : Edge} {node : NodeId} :
    e ∈ (ofGrammar g).edgesOf node ↔ ⟨node, e⟩ ∈ (pieceOf g).links := by
  have hfrom : e ∈ edgesFrom (pieceOf g).links node ↔ ⟨node, e⟩ ∈ (pieceOf g).links := by
    simp only [edgesFrom, List.mem_map, List.mem_filter, beq_iff_eq]
    constructor
    · rintro ⟨l, ⟨hl, rfl⟩, rfl⟩
      exact hl
    · exact fun h => ⟨_, ⟨h, rfl⟩, rfl⟩
  by_cases hnode : node < (pieceOf g).next
  · rw [← hfrom]
    show e ∈ (((List.range (pieceOf g).next).map (edgesFrom (pieceOf g).links)).toArray[node]?).getD []
      ↔ _
    rw [List.getElem?_toArray, List.getElem?_map, List.getElem?_range hnode]
    rfl
  · refine ⟨fun h => ?_, fun h => absurd (lt_size_of_source h) hnode⟩
    simp only [edgesOf, ofGrammar] at h
    rw [List.getElem?_toArray, List.getElem?_eq_none (by simpa [pieceOf] using hnode)] at h
    exact nomatch h

theorem mem_followsOf {rule : RuleId} {follow : NodeId} :
    follow ∈ (ofGrammar g).followsOf rule ↔
      rule < g.rules.length ∧ ∃ node, ⟨node, .call rule follow⟩ ∈ (pieceOf g).links := by
  have hmem : follow ∈ (pieceOf g).links.filterMap (follow? rule) ↔
      ∃ node, ⟨node, .call rule follow⟩ ∈ (pieceOf g).links := by
    rw [List.mem_filterMap]
    constructor
    · rintro ⟨⟨node, edge⟩, hl, hf⟩
      unfold follow? at hf
      split at hf
      · next callee f hedge =>
        simp only at hedge
        split at hf
        · next hcallee =>
          subst hcallee hedge
          obtain rfl := Option.some.inj hf
          exact ⟨node, hl⟩
        · exact nomatch hf
      · exact nomatch hf
    · rintro ⟨node, hl⟩
      exact ⟨_, hl, by simp [follow?]⟩
  by_cases hrule : rule < g.rules.length
  · simp only [followsOf, ofGrammar, hrule, true_and]
    rw [List.getElem?_toArray, List.getElem?_map, List.getElem?_range hrule]
    exact hmem
  · refine ⟨fun h => ?_, fun h => absurd h.1 hrule⟩
    simp only [followsOf, ofGrammar] at h
    rw [List.getElem?_toArray, List.getElem?_eq_none (by simpa using hrule)] at h
    exact nomatch h

theorem stopOf?_eq_some {n : Network} {node : NodeId} {rule : RuleId} :
    n.stopOf? node = some rule ↔ rule < n.ruleCount ∧ node = stop rule := by
  unfold stopOf? stop
  split
  · rw [Option.some.injEq]
    lia
  · refine ⟨nofun, fun h => ?_⟩
    lia

end

/-- Nothing leads out of a network, and no edge leaves the stop of a rule. -/
structure Closed (n : Network) (predicateCount : Nat) : Prop where
  rules_le : 2 * n.ruleCount ≤ n.size
  target : ∀ node, ∀ e ∈ n.edgesOf node, e.target < n.size
  call : ∀ node rule follow, .call rule follow ∈ n.edgesOf node → rule < n.ruleCount
  predicate : ∀ node id target, .predicate id target ∈ n.edgesOf node → id < predicateCount
  follow : ∀ rule, ∀ f ∈ n.followsOf rule, f < n.size
  entry : ∀ d, ∀ node ∈ n.entriesOf d, node < n.size
  stop : ∀ node rule, n.stopOf? node = some rule → n.edgesOf node = []

theorem closed_ofGrammar {g : Grammar} (h : g.WellFormed) :
    (ofGrammar g).Closed g.predicates.length where
  rules_le := le_size g
  target node e he := lt_size_of_target ((within_pieceOf g).targets _ (mem_edgesOf.mp he))
  call node rule follow he :=
    h.calls rule ((within_pieceOf g).elements _ (mem_edgesOf.mp he) _ rfl)
  predicate node id target he := by
    have hmem := (within_pieceOf g).elements _ (mem_edgesOf.mp he) _ rfl
    have hid : id ∈ g.parts.filterMap Element.predicate? := List.mem_filterMap.mpr ⟨_, hmem, rfl⟩
    rw [h.predicates] at hid
    exact List.mem_range.mp hid
  follow rule f hf := by
    obtain ⟨_, node, hl⟩ := mem_followsOf.mp hf
    exact lt_size_of_target ((within_pieceOf g).targets _ hl)
  entry d node hnode := by
    obtain ⟨x, hx, rfl⟩ := List.mem_map.mp hnode
    exact lt_size_of_target ((within_pieceOf g).entries x (List.mem_filter.mp hx).1).1
  stop node rule hstop := by
    obtain ⟨hrule, rfl⟩ := stopOf?_eq_some.mp hstop
    refine List.eq_nil_iff_forall_not_mem.mpr fun e he => ?_
    have hsource := (within_pieceOf g).sources _ (mem_edgesOf.mp he)
    rcases hsource with ⟨k, _, _, hk⟩ | hn
    · simp only [stop, start] at hk
      lia
    · simp only [stop] at hn
      have hrule' : rule < g.rules.length := hrule
      lia

end Lookahead.Network
