import Lookahead.Proofs.Grammar.Trace
import Lookahead.Proofs.Network.Laid

/-! Which edges leave the nodes of an element.

The nodes of a piece are its own: a link that leaves one of them belongs to the piece. So
the edges of a node are known from the piece that it lies in. An edge passes a single
element, enters an alternative, or goes on. -/
namespace Lookahead.Network

/-- The links that leave certain nodes are all in the piece. -/
def Owns (links : List Link) (S : NodeId → Prop) (p : Piece) : Prop :=
  ∀ l ∈ links, S l.source → l ∈ p.links

section
variable {links : List Link} {S S' : NodeId → Prop} {p q : Piece}

theorem Owns.mono (h : Owns links S p) (hS : ∀ n, S' n → S n) : Owns links S' p :=
  fun l hl hs => h l hl (hS _ hs)

theorem Owns.left (h : Owns links S (p.append q)) (hq : ∀ l ∈ q.links, ¬ S l.source) :
    Owns links S p :=
  fun l hl hs => (List.mem_append.mp (h l hl hs)).resolve_right fun hl' => hq l hl' hs

theorem Owns.right (h : Owns links S (p.append q)) (hp : ∀ l ∈ p.links, ¬ S l.source) :
    Owns links S q :=
  fun l hl hs => (List.mem_append.mp (h l hl hs)).resolve_left fun hl' => hp l hl' hs

end

theorem among_singleton {node lo hi n : Nat} :
    Among [node] lo hi n ↔ n = node ∨ lo ≤ n ∧ n < hi := by
  simp [Among]

/-! ### Branches -/

section
variable {d : Option DecisionId} {sources : List NodeId} {target next : Nat}
  {as : List (Alternative Element)}

/-- What leaves the nodes in front of alternatives enters one of them. -/
theorem edge_of_mem_branches {l : Link} (hl : l ∈ (branches d sources target next as).links)
    (hlt : l.source < next) :
    ∃ (i : Nat) (node : NodeId), i < as.length ∧ (branchNodes target next as)[i]? = some node ∧
      l.edge = .silent node := by
  induction as generalizing next with
  | nil => exact nomatch hl
  | cons a as ih =>
    rw [branches] at hl
    rcases List.mem_append.mp hl with hl | hl
    · rcases List.mem_append.mp hl with hl | hl
      · obtain ⟨source, _, rfl⟩ := List.mem_map.mp hl
        exact ⟨0, next, Nat.succ_pos _, rfl, rfl⟩
      · have hsource := among_singleton.mp ((lies.2.2 _ _ _ a.elements).sources l hl)
        lia
    · have hle := next_le_sequence next target (next + 1) a.elements
      obtain ⟨i, node, hi, hnode, hedge⟩ := ih hl (by simp only [Piece.next_append]; lia)
      exact ⟨i + 1, node, Nat.succ_lt_succ hi, hnode, hedge⟩

/-- The nodes in front of alternatives lead into each of them. -/
theorem mem_links_branches {source : NodeId} (hsource : source ∈ sources) (hlt : source < next)
    {x : Edge} : ⟨source, x⟩ ∈ (branches d sources target next as).links ↔
      ∃ (i : Nat) (node : NodeId), i < as.length ∧ (branchNodes target next as)[i]? = some node ∧
        x = .silent node := by
  constructor
  · exact fun hl => edge_of_mem_branches hl hlt
  · rintro ⟨i, node, hi, hnode, rfl⟩
    obtain ⟨node', hnode', _, hlinks⟩ :=
      contains_branches d sources target next (List.getElem?_eq_getElem hi)
    obtain rfl := Option.some.inj (hnode.symm.trans hnode')
    exact hlinks source hsource

/-- Each alternative has its nodes for itself. -/
theorem owns_branches {links : List Link}
    (h : Owns links (fun n => next ≤ n ∧ n < (branches d sources target next as).next)
      (branches d sources target next as)) (hsources : ∀ n ∈ sources, n < next) {i : Nat}
    {a : Alternative Element} (ha : as[i]? = some a) {node : NodeId}
    (hnode : (branchNodes target next as)[i]? = some node) :
    next ≤ node ∧
      Owns links (Among [node] (node + 1) (sequence node target (node + 1) a.elements).next)
        (sequence node target (node + 1) a.elements) := by
  induction as generalizing next i with
  | nil => exact nomatch ha
  | cons b as ih =>
    have hle := next_le_sequence next target (next + 1) b.elements
    have hle' := next_le_branches d sources target
      (sequence next target (next + 1) b.elements).next as
    have henter : ∀ l ∈ (Piece.links
        ⟨next + 1, sources.map fun source => ⟨source, .silent next⟩, entry d next⟩),
        l.source < next := by
      intro l hl
      obtain ⟨n, hn, rfl⟩ := List.mem_map.mp hl
      exact hsources n hn
    rw [branches] at h
    simp only [Piece.next_append] at h
    cases i with
    | zero =>
      obtain rfl := Option.some.inj ha
      obtain rfl := Option.some.inj hnode
      refine ⟨Nat.le_refl _, ((h.mono fun n hn => ?_).left fun l hl hs => ?_).right fun l hl hs => ?_⟩
      · rcases among_singleton.mp hn with hn | hn <;> lia
      · have hrest := (lies.2.1 d sources target _ as).sources l hl
        rcases among_singleton.mp hs with hs | hs <;> rcases hrest with hrest | hrest <;>
          first | lia | have := hsources _ hrest; lia
      · have := henter l hl
        rcases among_singleton.mp hs with hs | hs <;> lia
    | succ i =>
      have hrest : Owns links (fun n => (sequence next target (next + 1) b.elements).next ≤ n ∧
          n < (branches d sources target (sequence next target (next + 1) b.elements).next as).next)
          (branches d sources target (sequence next target (next + 1) b.elements).next as) := by
        refine (h.mono fun n hn => ⟨by lia, hn.2⟩).right fun l hl hs => ?_
        rcases List.mem_append.mp hl with hl | hl
        · have := henter l hl
          lia
        · have := among_singleton.mp ((lies.2.2 _ _ _ b.elements).sources l hl)
          lia
      obtain ⟨hnode', howns⟩ := ih hrest (fun n hn => by have := hsources n hn; lia) ha hnode
      exact ⟨by lia, howns⟩

end

/-! ### Where phrases lie -/

/-- A piece of the network lies between two nodes and has its nodes for itself. They all `may`
be left but the last one. -/
structure Placed (g : Grammar) (may : NodeId → Prop) (source target next : NodeId)
    (parts : List Element) (p : Piece) : Prop where
  contains : (pieceOf g).Contains none g.parts parts p
  owns : Owns (pieceOf g).links (Among [source] next p.next) p
  source_ne : source ≠ target
  source_lt : source < next
  target_lt : target < next
  may_source : may source
  may_new : ∀ n, next ≤ n → may n

def SpansElement (g : Grammar) (may : NodeId → Prop) (source target : NodeId) (e : Element) :
    Prop :=
  ∃ next, Placed g may source target next e.parts (element source target next e)

def SpansSequence (g : Grammar) (may : NodeId → Prop) (source target : NodeId)
    (es : List Element) : Prop :=
  ∃ next, Placed g may source target next (Element.partsOf es) (sequence source target next es)

/-- The alternatives of a decision lead from where they are entered to `target`. -/
def SpansBranches (g : Grammar) (may : NodeId → Prop) (d : DecisionId) (target : NodeId)
    (as : List (Alternative Element)) : Prop :=
  ∀ (i : Nat) a, as[i]? = some a → ∃ node, ((ofGrammar g).entriesOf d)[i]? = some node ∧
    SpansSequence g may node target a.elements

/-- The last alternative of a decision leads to `target`. -/
def SpansExit (g : Grammar) (may : NodeId → Prop) (d : DecisionId) (target : NodeId)
    (count : Nat) : Prop :=
  ∃ node, ((ofGrammar g).entriesOf d)[count]? = some node ∧ SpansSequence g may node target []

/-- The edges of a node enter the first alternatives of a decision. -/
def Forks (g : Grammar) (d : DecisionId) (source : NodeId) (count : Nat) : Prop :=
  ∀ x, x ∈ (ofGrammar g).edgesOf source ↔
    ∃ (i : Nat) (node : NodeId), i < count ∧ ((ofGrammar g).entriesOf d)[i]? = some node ∧
      x = .silent node

/-- Each round of a loop starts from one node and ends there, and there the loop is left. -/
def SpansRounds (g : Grammar) (may : NodeId → Prop) (d : DecisionId) (loop target : NodeId)
    (as : List (Alternative Element)) : Prop :=
  may loop ∧ SpansBranches g may d loop as ∧ SpansExit g may d target as.length ∧
    Forks g d loop (as.length + 1)

/-- A phrase lies between two nodes. -/
def Spans (g : Grammar) (may : NodeId → Prop) (source target : NodeId) : Phrase → Prop
  | .element e => SpansElement g may source target e
  | .sequence es => SpansSequence g may source target es
  | .rounds as => ∃ d, SpansRounds g may d source target as

variable {g : Grammar} {may may' : NodeId → Prop} {source target : NodeId}

section
variable {next : NodeId} {parts : List Element} {p : Piece}

/-- The edges of the first node of a piece are those in its links. -/
theorem Placed.mem_edgesOf (h : Placed g may source target next parts p) {x : Edge} :
    x ∈ (ofGrammar g).edgesOf source ↔ ⟨source, x⟩ ∈ p.links :=
  Network.mem_edgesOf.trans ⟨fun hx => h.owns _ hx .self, h.contains.links _⟩

theorem Placed.mem_edgesOf_link {edge : Edge}
    (h : Placed g may source target next parts (.link next [⟨source, edge⟩])) {x : Edge} :
    x ∈ (ofGrammar g).edgesOf source ↔ x = edge := by
  rw [h.mem_edgesOf]
  simp [Piece.link]

/-- Other nodes may be left. -/
theorem Placed.change (h : Placed g may source target next parts p) (hsource : may' source)
    (hnew : ∀ n, next ≤ n → may' n) : Placed g may' source target next parts p :=
  { h with may_source := hsource, may_new := hnew }

end

/-! ### Sequences -/

section
variable {e : Element} {es : List Element}

theorem SpansElement.mem_edgesOf (hwf : g.WellFormed) (he : e.Leaf)
    (h : SpansElement g may source target e) :
    ∃ edge, (ofGrammar g).passed? edge = some e ∧ edge.target = target ∧
      ∀ x, x ∈ (ofGrammar g).edgesOf source ↔ x = edge := by
  obtain ⟨next, h⟩ := h
  cases e with
  | symbols set => exact ⟨.symbols set target, rfl, rfl, fun _ => h.mem_edgesOf_link⟩
  | call rule => exact ⟨.call rule target, rfl, rfl, fun _ => h.mem_edgesOf_link⟩
  | predicate id => exact ⟨.predicate id target, rfl, rfl, fun _ => h.mem_edgesOf_link⟩
  | action id =>
    have hlays : Lays g source target (.action id) := ⟨next, h.contains⟩
    exact ⟨.action target, by rw [passed?, hlays.actionAt hwf], rfl, fun _ => h.mem_edgesOf_link⟩
  | block => exact he.elim

theorem SpansSequence.mem_edgesOf (h : SpansSequence g may source target []) {x : Edge} :
    x ∈ (ofGrammar g).edgesOf source ↔ x = .silent target := by
  obtain ⟨next, h⟩ := h
  exact h.mem_edgesOf_link

theorem SpansSequence.cons (h : SpansSequence g may source target (e :: es)) :
    ∃ node, SpansElement g may source node e ∧ SpansSequence g may node target es := by
  obtain ⟨next, h⟩ := h
  have hle := next_le_element source next (next + 1) e
  have hle' := next_le_sequence next target (element source next (next + 1) e).next es
  have hlt := h.source_lt
  have howns := h.owns
  rw [sequence, Piece.next_append] at howns
  refine ⟨next, ⟨next + 1, ?_⟩, ⟨(element source next (next + 1) e).next, ?_⟩⟩
  · exact {
      contains := h.contains.trans (contains_head source target next e es)
      owns := by
        refine (howns.mono fun n hn => ?_).left fun l hl hs => ?_
        · exact hn.mono (fun _ hn => List.mem_singleton.mp hn ▸ .self) (Nat.le_succ _) hle'
        · have := among_singleton.mp ((lies.2.2 _ _ _ es).sources l hl)
          rcases among_singleton.mp hs with hs | hs <;> lia
      source_ne := Nat.ne_of_lt hlt
      source_lt := Nat.lt_succ_of_lt hlt
      target_lt := Nat.lt_succ_self _
      may_source := h.may_source
      may_new := fun n hn => h.may_new n (Nat.le_of_succ_le hn) }
  · exact {
      contains := h.contains.trans (contains_tail source target next e es)
      owns := by
        refine (howns.mono fun n hn => ?_).right fun l hl hs => ?_
        · rcases among_singleton.mp hn with hn | hn <;> exact .new (by lia) (by lia)
        · have := among_singleton.mp ((lies.1 _ _ _ e).sources l hl)
          rcases among_singleton.mp hs with hs | hs <;> lia
      source_ne := (Nat.ne_of_lt h.target_lt).symm
      source_lt := hle
      target_lt := Nat.lt_of_lt_of_le h.target_lt (Nat.le_of_succ_le hle)
      may_source := h.may_new next (Nat.le_refl _)
      may_new := fun n hn => h.may_new n (Nat.le_trans (Nat.le_of_succ_le hle) hn) }

end

/-! ### Blocks -/

section
variable {kind : BlockKind} {d : DecisionId} {as : List (Alternative Element)}

theorem SpansElement.alternative {a : Alternative Element}
    (h : SpansElement g may source target (.block .single none [a])) :
    SpansSequence g may source target a.elements := by
  obtain ⟨next, h⟩ := h
  rw [element] at h
  refine ⟨next, { h with contains := h.contains.trans (.block ?_) }⟩
  have hparts : Element.partsOfEach [a] = Element.partsOf a.elements := List.append_nil _
  rw [hparts]
  exact .refl none _ _

/-- Where the piece of a block is made around branches, its alternatives lie along them. -/
theorem spans_of_branches (hwf : g.WellFormed) {q : Piece}
    (hq : (pieceOf g).Contains none g.parts (Element.block kind (some d) as).parts q)
    {sources : List NodeId} {next : NodeId}
    (hcontains : ∀ part q', (branches (some d) sources target next as).Contains (some d)
      (Element.partsOfEach as) part q' → q.Contains (some d) (Element.partsOfEach as) part q')
    {rest : List NodeId}
    (hentries : q.entriesOf d = (branches (some d) sources target next as).entriesOf d ++ rest)
    (howns : Owns (pieceOf g).links
      (fun n => next ≤ n ∧ n < (branches (some d) sources target next as).next)
      (branches (some d) sources target next as))
    (hsources : ∀ n ∈ sources, n < next) (htarget : target < next)
    (hmay : ∀ n, next ≤ n → may n) :
    SpansBranches g may d target as ∧
      (ofGrammar g).entriesOf d = branchNodes target next as ++ rest := by
  obtain ⟨_, hall⟩ := lays_of_branches hwf hq hcontains hentries
  refine ⟨fun i a ha => ?_, hall⟩
  obtain ⟨node, hnode, hnodeContains, _⟩ := contains_branches (some d) sources target next ha
  obtain ⟨hle, howns⟩ := owns_branches howns hsources ha hnode
  have hlt : i < (branchNodes target next as).length := (List.getElem?_eq_some_iff.mp hnode).1
  refine ⟨node, by rw [hall, List.getElem?_append_left hlt, hnode], node + 1, ?_⟩
  exact {
    contains := hq.trans (hcontains _ _ hnodeContains).block
    owns := howns
    source_ne := by lia
    source_lt := Nat.lt_succ_self _
    target_lt := by lia
    may_source := hmay node hle
    may_new := fun n hn => hmay n (by lia) }

theorem mem_links_leave {own : Option DecisionId} {source node : NodeId} {next : NodeId}
    {x : Edge} : ⟨node, x⟩ ∈ (leave own source target next).links ↔
      node = source ∧ x = .silent next ∨ node = next ∧ x = .silent target := by
  simp [leave]

section
variable {p : Piece} {S : NodeId → Prop} {fork : NodeId}

/-- Where a block is left, nothing but the node that it leads to follows. -/
theorem spans_leave
    (hlinks : ∀ l ∈ (leave (some d) fork target p.next).links, l ∈ (pieceOf g).links)
    (howns : Owns (pieceOf g).links S (p.append (leave (some d) fork target p.next)))
    (hS : S p.next) (hp : ∀ l ∈ p.links, l.source < p.next) (hfork : fork < p.next)
    (htarget : target < p.next) (hmay : ∀ n, p.next ≤ n → may n) :
    SpansSequence g may p.next target [] := by
  refine ⟨p.next + 1, ?_⟩
  exact {
    contains := {
      links := fun l hl => by
        obtain rfl := List.mem_singleton.mp hl
        exact hlinks _ (.tail _ (.head _))
      split := ⟨g.parts, [], (pieceOf g).entries, [], by simp [Element.partsOf],
        by simp [sequence, Piece.link], by simpa using (within_pieceOf g).entriesIn⟩
      actions := fun _ => ⟨0, List.nil_prefix, List.nil_prefix⟩ }
    owns := fun ⟨n, x⟩ hl hs => by
      obtain rfl : n = p.next := by
        rcases among_singleton.mp hs with hs | hs
        · exact hs
        · simp only [sequence, Piece.next_link] at hs
          lia
      rcases List.mem_append.mp (howns _ hl hS) with hl | hl
      · exact absurd (hp _ hl) (Nat.lt_irrefl _)
      · rcases mem_links_leave.mp hl with ⟨hn, _⟩ | ⟨_, rfl⟩
        · exact absurd hn (Nat.ne_of_gt hfork)
        · exact .head _
    source_ne := Nat.ne_of_gt htarget
    source_lt := Nat.lt_succ_self _
    target_lt := Nat.lt_succ_of_lt htarget
    may_source := hmay _ (Nat.le_refl _)
    may_new := fun n hn => hmay n (Nat.le_of_succ_le hn) }

/-- Where a block can be left, that comes after what it lists. -/
theorem forks_of_entriesOf {nodes : List NodeId} {exit : NodeId}
    (hentries : (ofGrammar g).entriesOf d = nodes ++ [exit])
    (hedges : ∀ x, x ∈ (ofGrammar g).edgesOf fork ↔
      (∃ (i : Nat) (node : NodeId), i < nodes.length ∧ nodes[i]? = some node ∧ x = .silent node) ∨
        x = .silent exit) : Forks g d fork (nodes.length + 1) := by
  intro x
  rw [hedges, hentries]
  constructor
  · rintro (⟨i, node, hi, hnode, rfl⟩ | rfl)
    · exact ⟨i, node, Nat.lt_succ_of_lt hi, by rw [List.getElem?_append_left hi, hnode], rfl⟩
    · exact ⟨_, exit, Nat.lt_succ_self _, List.getElem?_concat_length .., rfl⟩
  · rintro ⟨i, node, hi, hnode, rfl⟩
    rcases Nat.lt_succ_iff_lt_or_eq.mp hi with hi | rfl
    · rw [List.getElem?_append_left hi] at hnode
      exact .inl ⟨i, node, hi, hnode, rfl⟩
    · rw [List.getElem?_concat_length] at hnode
      exact .inr (congrArg Edge.silent (Option.some.inj hnode).symm)

/-- What a block consists of whose piece is made around branches and ends with leaving it from
`fork`, one of the nodes in front of the branches. -/
theorem spans_of_leave (hwf : g.WellFormed)
    (hq : (pieceOf g).Contains none g.parts (Element.block kind (some d) as).parts
      (p.append (leave (some d) fork target p.next)))
    {sources : List NodeId} {loop next : NodeId}
    (hcontains : ∀ part q', (branches (some d) sources loop next as).Contains (some d)
      (Element.partsOfEach as) part q' → p.Contains (some d) (Element.partsOfEach as) part q')
    (hentries : p.entriesOf d = (branches (some d) sources loop next as).entriesOf d)
    (hnext : p.next = (branches (some d) sources loop next as).next)
    (hlinks : ∀ l ∈ p.links, l ∈ (branches (some d) sources loop next as).links ∨
      l.source < next ∧ l.source ≠ fork)
    (howns : Owns (pieceOf g).links S (p.append (leave (some d) fork target p.next)))
    (hS : ∀ n, next ≤ n → n ≤ p.next → S n) (hfork : fork ∈ sources) (hSfork : S fork)
    (hsources : ∀ n ∈ sources, n < next) (hloop : loop < next) (htarget : target < next)
    (hmay : ∀ n, next ≤ n → may n) :
    SpansBranches g may d loop as ∧ SpansExit g may d target as.length ∧
      Forks g d fork (as.length + 1) ∧
      (ofGrammar g).entriesOf d = branchNodes loop next as ++ [p.next] := by
  have hle : next ≤ p.next := hnext ▸ next_le_branches (some d) sources loop next as
  have hlt : fork < next := hsources fork hfork
  have hp : ∀ l ∈ p.links, l.source < p.next := fun l hl => by
    rcases hlinks l hl with hl | ⟨hl, _⟩
    · rcases (lies.2.1 (some d) sources loop next as).sources l hl with hl | hl
      · exact Nat.lt_of_lt_of_le (hsources _ hl) hle
      · exact hnext ▸ hl.2
    · exact Nat.lt_of_lt_of_le hl hle
  have hbody : Owns (pieceOf g).links
      (fun n => next ≤ n ∧ n < (branches (some d) sources loop next as).next)
      (branches (some d) sources loop next as) := fun l hl hs => by
    rw [← hnext] at hs
    rcases List.mem_append.mp (howns l hl (hS _ hs.1 (Nat.le_of_lt hs.2))) with hl | hl
    · exact (hlinks l hl).resolve_right fun h => Nat.not_lt.mpr hs.1 h.1
    · rcases mem_links_leave.mp hl with ⟨hn, _⟩ | ⟨hn, _⟩ <;> lia
  obtain ⟨hbranches, hall⟩ := spans_of_branches hwf hq
    (fun _ _ h => (hcontains _ _ h).own_right (entriesIn_entry _ _))
    (by rw [Piece.entriesOf_append, hentries, entriesOf_leave]) hbody hsources hloop hmay
  have hlength := length_branchNodes loop next as
  refine ⟨hbranches, ⟨p.next, ?_, ?_⟩, ?_, hall⟩
  · rw [hall, ← hlength]
    exact List.getElem?_concat_length ..
  · exact spans_leave (fun l hl => hq.links l (List.mem_append_right _ hl)) howns
      (hS _ hle (Nat.le_refl _)) hp (Nat.lt_of_lt_of_le hlt hle) (Nat.lt_of_lt_of_le htarget hle)
      fun n hn => hmay n (Nat.le_trans hle hn)
  · rw [← hlength]
    refine forks_of_entriesOf hall fun x => ?_
    rw [hlength, ← mem_links_branches hfork hlt, Network.mem_edgesOf]
    constructor
    · intro hl
      rcases List.mem_append.mp (howns _ hl hSfork) with hl | hl
      · exact .inl ((hlinks _ hl).resolve_right fun h => h.2 rfl)
      · exact .inr ((mem_links_leave.mp hl).resolve_right fun h => by lia).2
    · rintro (hl | rfl)
      · have hself := (hcontains _ _ (.refl _ _ _)).links _ hl
        exact hq.links _ (List.mem_append_left _ hself)
      · exact hq.links _ (List.mem_append_right _ (.head _))

end

theorem SpansElement.single (hwf : g.WellFormed)
    (h : SpansElement g may source target (.block .single (some d) as)) :
    SpansBranches g may d target as ∧ Forks g d source as.length := by
  obtain ⟨next, h⟩ := h
  rw [element] at h
  obtain ⟨hbranches, hentries⟩ := spans_of_branches hwf h.contains (fun _ _ h => h)
    (List.append_nil _).symm (h.owns.mono fun n hn => .inr hn)
    (List.forall_mem_singleton.mpr h.source_lt) h.target_lt h.may_new
  refine ⟨hbranches, fun x => ?_⟩
  rw [h.mem_edgesOf, mem_links_branches (.head _) h.source_lt, hentries, List.append_nil]

theorem SpansElement.optional (hwf : g.WellFormed)
    (h : SpansElement g may source target (.block .optional (some d) as)) :
    SpansBranches g may d target as ∧ SpansExit g may d target as.length ∧
      Forks g d source (as.length + 1) := by
  obtain ⟨next, h⟩ := h
  rw [element] at h
  have hle := next_le_branches (some d) [source] target next as
  obtain ⟨hbranches, hexit, hforks, _⟩ := spans_of_leave hwf h.contains (fun _ _ h => h) rfl rfl
    (fun l hl => .inl hl) h.owns (fun n hn hn' => .new hn (Nat.lt_succ_of_le hn')) (.head _) .self
    (List.forall_mem_singleton.mpr h.source_lt) h.target_lt h.target_lt h.may_new
  exact ⟨hbranches, hexit, hforks⟩

theorem SpansElement.star (hwf : g.WellFormed)
    (h : SpansElement g may source target (.block .star (some d) as)) :
    ∃ loop, SpansRounds g may d loop target as ∧
      ∀ x, x ∈ (ofGrammar g).edgesOf source ↔ x = .silent loop := by
  obtain ⟨next, h⟩ := h
  rw [element] at h
  have hle := next_le_branches (some d) [next] next (next + 1) as
  have hlies := (lies.2.1 (some d) [next] next (next + 1) as).sources
  have hlt := h.source_lt
  have henter : EntriesIn (some d) []
      (Piece.link (next + 1) [⟨source, .silent next⟩]).entries := by
    intro x hx
    cases hx
  obtain ⟨hbranches, hexit, hforks, _⟩ := spans_of_leave hwf h.contains
    (fun _ _ h => h.own_left henter rfl) (Piece.entriesOf_append ..) rfl
    (fun l hl => by
      refine (List.mem_append.mp hl).symm.imp_right fun hl => ?_
      obtain rfl := List.mem_singleton.mp hl
      exact ⟨Nat.lt_succ_of_lt hlt, Nat.ne_of_lt hlt⟩)
    h.owns (fun n hn hn' => .new (Nat.le_of_succ_le hn) (Nat.lt_succ_of_le hn')) (.head _)
    (.new (Nat.le_refl _) (Nat.lt_succ_of_lt hle))
    (List.forall_mem_singleton.mpr (Nat.lt_succ_self _)) (Nat.lt_succ_self _)
    (Nat.lt_succ_of_lt h.target_lt) fun n hn => h.may_new n (Nat.le_of_succ_le hn)
  refine ⟨next, ⟨h.may_new next (Nat.le_refl _), hbranches, hexit, hforks⟩, fun x => ?_⟩
  rw [h.mem_edgesOf]
  constructor
  · intro hl
    rcases List.mem_append.mp hl with hl | hl
    · rcases List.mem_append.mp hl with hl | hl
      · exact congrArg Link.edge (List.mem_singleton.mp hl)
      · rcases among_singleton.mp (hlies _ hl) with hn | hn <;> lia
    · rcases mem_links_leave.mp hl with ⟨hn, _⟩ | ⟨hn, _⟩ <;> lia
  · rintro rfl
    exact .head _

theorem SpansElement.plus (hwf : g.WellFormed)
    (h : SpansElement g may source target (.block .plus (some d) as)) :
    ∃ loop, SpansRounds g may d loop target as ∧ Forks g d source as.length := by
  obtain ⟨next, h⟩ := h
  rw [element] at h
  have hle := next_le_branches (some d) [source, next] next (next + 1) as
  have hlt := h.source_lt
  obtain ⟨hbranches, hexit, hforks, hall⟩ := spans_of_leave hwf h.contains (fun _ _ h => h) rfl rfl
    (fun l hl => .inl hl) h.owns
    (fun n hn hn' => .new (Nat.le_of_succ_le hn) (Nat.lt_succ_of_le hn')) (.tail _ (.head _))
    (.new (Nat.le_refl _) (Nat.lt_succ_of_lt hle))
    (List.forall_mem_cons.mpr ⟨Nat.lt_succ_of_lt hlt,
      List.forall_mem_singleton.mpr (Nat.lt_succ_self _)⟩)
    (Nat.lt_succ_self _) (Nat.lt_succ_of_lt h.target_lt) fun n hn => h.may_new n (Nat.le_of_succ_le hn)
  refine ⟨next, ⟨h.may_new next (Nat.le_refl _), hbranches, hexit, hforks⟩, fun x => ?_⟩
  have hlength := length_branchNodes next (next + 1) as
  have hedge : ⟨source, x⟩ ∈ ((branches (some d) [source, next] next (next + 1) as).append
      (leave (some d) next target
        (branches (some d) [source, next] next (next + 1) as).next)).links ↔
      ⟨source, x⟩ ∈ (branches (some d) [source, next] next (next + 1) as).links := by
    refine ⟨fun hl => (List.mem_append.mp hl).resolve_right fun hl => ?_, List.mem_append_left _⟩
    rcases mem_links_leave.mp hl with ⟨hn, _⟩ | ⟨hn, _⟩ <;> lia
  rw [h.mem_edgesOf, hedge, mem_links_branches (.head _) (Nat.lt_succ_of_lt hlt), hall]
  constructor
  all_goals
    rintro ⟨i, node, hi, hnode, rfl⟩
    refine ⟨i, node, hi, ?_, rfl⟩
    rw [List.getElem?_append_left (hlength ▸ hi)] at *
    exact hnode

end

/-! ### All elements of a grammar -/

theorem block_eq (source target next : NodeId) (b : Block) :
    block source target next b = element source target next b.element := rfl

theorem placed_rules (id next : Nat) {links : List Link} {rs : List Rule} {i : Nat} {r : Rule}
    (hr : rs[i]? = some r) (hlt : 2 * (id + rs.length) ≤ next)
    (h : Owns links
      (fun n : Nat => Starts id (id + rs.length) n ∨ next ≤ n ∧ n < (rules id next rs).next)
      (rules id next rs)) :
    ∃ next', next ≤ next' ∧ (rules id next rs).Contains none (rs.flatMap (·.block.element.parts))
        r.block.element.parts (element (start (id + i)) (stop (id + i)) next' r.block.element) ∧
      Owns links (Among [start (id + i)] next'
          (element (start (id + i)) (stop (id + i)) next' r.block.element).next)
        (element (start (id + i)) (stop (id + i)) next' r.block.element) := by
  induction rs generalizing id next i with
  | nil => simp at hr
  | cons r' rs ih =>
    have hle := next_le_element (start id) (stop id) next r'.block.element
    have hle' := next_le_rules (id + 1)
      (element (start id) (stop id) next r'.block.element).next rs
    have hfirst := (lies.1 (start id) (stop id) next r'.block.element).sources
    have hrest := (within_rules (id + 1)
      (element (start id) (stop id) next r'.block.element).next rs).sources
    have hlength : id + (r' :: rs).length = id + 1 + rs.length := by
      rw [List.length_cons]
      lia
    rw [hlength] at h hlt
    rw [rules, block_eq] at h ⊢
    cases i with
    | zero =>
      obtain rfl := Option.some.inj hr
      refine ⟨next, Nat.le_refl _, ?_, (h.mono fun n hn => ?_).left fun l hl hs => ?_⟩
      · rw [List.flatMap_cons]
        exact (Piece.Contains.refl none r'.block.element.parts _).append_right
          (within_rules _ _ rs).entriesIn
      · rcases among_singleton.mp hn with rfl | hn
        · exact .inl ⟨id, Nat.le_refl _, by lia, rfl⟩
        · exact .inr ⟨hn.1, Nat.lt_of_lt_of_le hn.2 hle'⟩
      · rcases hrest l hl with ⟨k, hk, hks, hn⟩ | hn <;>
          rcases among_singleton.mp hs with hs | hs <;>
          simp only [start, Nat.add_zero] at * <;> lia
    | succ i =>
      rw [List.flatMap_cons, ← Nat.succ_add_eq_add_succ id i]
      obtain ⟨next', hnext', hcontains, howns⟩ :=
        ih (id + 1) (element (start id) (stop id) next r'.block.element).next hr
          (Nat.le_trans hlt hle)
          ((h.mono fun n hn => hn.imp
            (fun hs => hs.imp fun k hk => ⟨Nat.le_of_succ_le hk.1, hk.2⟩)
            fun hn => ⟨Nat.le_trans hle hn.1, hn.2⟩).right fun l hl hs => by
              have hl := among_singleton.mp (hfirst l hl)
              rcases hs with ⟨k, hk, hks, hn⟩ | hn <;> rcases hl with hl | hl <;>
                simp only [start] at * <;> lia)
      exact ⟨next', Nat.le_trans hle hnext',
        hcontains.append_left (lies.1 _ _ _ r'.block.element).entriesIn
          (counts_block _ _ next r'.block), howns⟩

/-- A rule lies between the nodes where it starts and where it stops. Its other nodes come after
those of all rules. -/
theorem spans_rule_inside {id : RuleId} {r : Rule} (hr : g.rule? id = some r)
    (hmay : ∀ n, n = start id ∨ 2 * g.rules.length ≤ n → may n) :
    SpansElement g may (start id) (stop id) r.block.element := by
  have hid : id < g.rules.length := (List.getElem?_eq_some_iff.mp hr).1
  obtain ⟨next, hle, hcontains, howns⟩ :=
    placed_rules 0 (2 * g.rules.length) hr (Nat.le_of_eq (by rw [Nat.zero_add]))
      fun l (hl : l ∈ (pieceOf g).links) _ => hl
  rw [Nat.zero_add] at hcontains howns
  have hstop : stop id < next := by
    simp only [stop]
    lia
  exact ⟨next, {
    contains := hcontains
    owns := howns
    source_ne := by simp [start, stop]
    source_lt := Nat.lt_trans (Nat.lt_succ_self _) hstop
    target_lt := hstop
    may_source := hmay _ (.inl rfl)
    may_new := fun n hn => hmay n (.inr (Nat.le_trans hle hn)) }⟩

/-- The ways of a rule leave all nodes but the one where it stops. -/
theorem spans_rule {id : RuleId} {r : Rule} (hr : g.rule? id = some r)
    (hmay : ∀ n, n ≠ stop id → may n) :
    SpansElement g may (start id) (stop id) r.block.element := by
  have hid : id < g.rules.length := (List.getElem?_eq_some_iff.mp hr).1
  refine spans_rule_inside hr fun n hn => hmay n ?_
  rcases hn with rfl | hn
  · simp [start, stop]
  · simp only [stop]
    lia

/-- An alternative of a block that has its usual shape lies somewhere. -/
theorem SpansElement.exists_alternative (hwf : g.WellFormed) {kind : BlockKind}
    {d : Option DecisionId} {as : List (Alternative Element)}
    (h : SpansElement g may source target (.block kind d as))
    (hshaped : (Element.block kind d as).Shaped) {a : Alternative Element} (ha : a ∈ as) :
    ∃ source target, SpansSequence g may source target a.elements := by
  obtain ⟨i, hi⟩ := List.getElem?_of_mem ha
  have hbranch {d target} (h : SpansBranches g may d target as) :
      ∃ source target, SpansSequence g may source target a.elements := by
    obtain ⟨node, _, hspans⟩ := h i a hi
    exact ⟨node, target, hspans⟩
  cases d with
  | none =>
    cases kind with
    | single =>
      obtain ⟨b, rfl⟩ := List.length_eq_one_iff.mp hshaped
      obtain rfl := List.mem_singleton.mp ha
      exact ⟨source, target, h.alternative⟩
    | optional | star | plus => exact nomatch hshaped.1
  | some d =>
    cases kind with
    | single => exact hbranch (h.single hwf).1
    | optional => exact hbranch (h.optional hwf).1
    | star =>
      obtain ⟨_, hrounds, _⟩ := h.star hwf
      exact hbranch hrounds.2.1
    | plus =>
      obtain ⟨_, hrounds, _⟩ := h.plus hwf
      exact hbranch hrounds.2.1

/-- Each element lies between two nodes, and the ways through it leave all nodes but the last
one. -/
theorem exists_spans (hwf : g.WellFormed) {e : Element} (he : e ∈ g.parts) :
    ∃ source target, SpansElement g (· ≠ target) source target e := by
  have hinherited : Grammar.Inherited (· ∈ g.parts)
      (fun e => ∃ source target, SpansElement g (fun _ => True) source target e)
      (fun es => ∃ source target, SpansSequence g (fun _ => True) source target es) := {
    alternative := fun kind d as hmem ⟨source, target, h⟩ a ha =>
      h.exists_alternative hwf (hwf.shaped _ hmem) ha
    head := fun e es ⟨source, target, h⟩ => by
      obtain ⟨node, hhead, _⟩ := h.cons
      exact ⟨source, node, hhead⟩
    tail := fun e es ⟨source, target, h⟩ => by
      obtain ⟨node, _, htail⟩ := h.cons
      exact ⟨node, target, htail⟩ }
  obtain ⟨source, target, next, h⟩ := hinherited.forall_mem
    (fun r hr => ⟨_, _, spans_rule (hwf.rule?_id hr) fun _ _ => trivial⟩) e he
  exact ⟨source, target, next, h.change h.source_ne fun n hn =>
    Nat.ne_of_gt (Nat.lt_of_lt_of_le h.target_lt hn)⟩

end Lookahead.Network
