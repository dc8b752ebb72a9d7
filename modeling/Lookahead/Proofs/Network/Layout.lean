import Lookahead.Network
import Lookahead.Proofs.Grammar.WellFormed

/-! Where the parts of a network lie.

A piece is laid between given nodes and on new ones, which are numbered from `next` on
(`next_le`, `within_element`). It passes nothing but what its elements say, and enters
nothing but their decisions. So a network has no edge that leads out of it, and no edge
leaves a node where a rule stops (`closed_ofGrammar`). -/
namespace Lookahead

/-- Where an edge leads on the level of its own rule. -/
def Edge.target : Edge → NodeId
  | silent target | action target | symbols _ target | predicate _ target => target
  | call _ follow => follow

/-- What an edge says that it passes. It does not say which action. -/
def Edge.element? : Edge → Option Element
  | silent _ | action _ => none
  | symbols set _ => some (.symbols set)
  | predicate id _ => some (.predicate id)
  | call rule _ => some (.call rule)

namespace Network

@[simp] theorem Piece.links_append (p q : Piece) : (p.append q).links = p.links ++ q.links := rfl

@[simp] theorem Piece.entries_append (p q : Piece) :
    (p.append q).entries = p.entries ++ q.entries := rfl

@[simp] theorem Piece.next_append (p q : Piece) : (p.append q).next = q.next := rfl

@[simp] theorem Piece.next_link (next : NodeId) (links : List Link) :
    (Piece.link next links).next = next := rfl

@[simp] theorem next_leave (d : Option DecisionId) (source target next : NodeId) :
    (leave d source target next).next = next + 1 := rfl

theorem next_le :
    (∀ (source target next : Nat) e, next ≤ (element source target next e).next) ∧
    (∀ d sources (target next : Nat) as, next ≤ (branches d sources target next as).next) ∧
    ∀ (source target next : Nat) es, next ≤ (sequence source target next es).next := by
  apply element.mutual_induct
  case case12 =>
    intro d sources target next a as
    dsimp only
    intro iha ihas
    rw [branches]
    simp only [Piece.next_append] at *
    omega
  case case14 =>
    intro source target next e es
    dsimp only
    intro ihe ihes
    rw [sequence]
    simp only [Piece.next_append] at *
    omega
  all_goals
    intros
    simp only [element, branches, sequence, Piece.next_append, Piece.next_link, next_leave] at *
    omega

theorem next_le_element (source target next : Nat) (e : Element) :
    next ≤ (element source target next e).next := next_le.1 source target next e

theorem next_le_branches (d : Option DecisionId) (sources : List NodeId) (target next : Nat)
    (as : List (Alternative Element)) : next ≤ (branches d sources target next as).next :=
  next_le.2.1 d sources target next as

theorem next_le_sequence (source target next : Nat) (es : List Element) :
    next ≤ (sequence source target next es).next := next_le.2.2 source target next es

/-! ### What a piece consists of -/

/-- All links of a piece lead from nodes of `S` to nodes of `T` and pass elements of
`parts`; its entries are nodes of `T` and belong to `own` or to decisions of `parts`. -/
structure Piece.Within (S T : NodeId → Prop) (own : Option DecisionId) (parts : List Element)
    (p : Piece) : Prop where
  sources : ∀ l ∈ p.links, S l.source
  targets : ∀ l ∈ p.links, T l.edge.target
  elements : ∀ l ∈ p.links, ∀ e, l.edge.element? = some e → e ∈ parts
  entries : ∀ x ∈ p.entries, T x.2 ∧ (own = some x.1 ∨ x.1 ∈ parts.filterMap Element.decision?)

namespace Piece.Within
variable {S T S' T' : NodeId → Prop} {own : Option DecisionId} {parts parts' : List Element}
  {p q : Piece}

theorem append (hp : p.Within S T own parts) (hq : q.Within S T own parts) :
    (p.append q).Within S T own parts where
  sources l h := (List.mem_append.mp h).elim (hp.sources l) (hq.sources l)
  targets l h := (List.mem_append.mp h).elim (hp.targets l) (hq.targets l)
  elements l h := (List.mem_append.mp h).elim (hp.elements l) (hq.elements l)
  entries x h := (List.mem_append.mp h).elim (hp.entries x) (hq.entries x)

theorem mono (h : p.Within S T own parts) (hS : ∀ n, S n → S' n) (hT : ∀ n, T n → T' n)
    (hparts : ∀ e ∈ parts, e ∈ parts') : p.Within S' T' own parts' where
  sources l hl := hS _ (h.sources l hl)
  targets l hl := hT _ (h.targets l hl)
  elements l hl e he := hparts _ (h.elements l hl e he)
  entries x hx := by
    refine ⟨hT _ (h.entries x hx).1, (h.entries x hx).2.imp_right fun hd => ?_⟩
    obtain ⟨e, he, hed⟩ := List.mem_filterMap.mp hd
    exact List.mem_filterMap.mpr ⟨e, hparts e he, hed⟩

theorem own_none (h : p.Within S T none parts) : p.Within S T own parts :=
  { h with entries := fun x hx => ⟨(h.entries x hx).1, .inr ((h.entries x hx).2.resolve_left nofun)⟩ }

/-- The decision of a block is one of its parts. -/
theorem block {kind : BlockKind} {as : List (Alternative Element)}
    (h : p.Within S T own (Element.partsOfEach as)) :
    p.Within S T none (Element.block kind own as).parts where
  sources := h.sources
  targets := h.targets
  elements l hl e he := .tail _ (h.elements l hl e he)
  entries x hx := by
    refine ⟨(h.entries x hx).1, .inr ?_⟩
    rcases (h.entries x hx).2 with rfl | hd
    · exact List.mem_filterMap.mpr ⟨_, .head _, rfl⟩
    · obtain ⟨e, he, hed⟩ := List.mem_filterMap.mp hd
      exact List.mem_filterMap.mpr ⟨e, .tail _ he, hed⟩

theorem link {source next : NodeId} {edge : Edge} (hS : S source) (hT : T edge.target)
    (hparts : ∀ e, edge.element? = some e → e ∈ parts) :
    (Piece.link next [⟨source, edge⟩]).Within S T own parts where
  sources l hl := by
    obtain rfl := List.mem_singleton.mp hl
    exact hS
  targets l hl := by
    obtain rfl := List.mem_singleton.mp hl
    exact hT
  elements l hl := by
    obtain rfl := List.mem_singleton.mp hl
    exact hparts
  entries _ hx := nomatch hx

/-- Silent links from some nodes to the entry of an alternative. -/
theorem enter {sources : List NodeId} {node next : NodeId} (hS : ∀ n ∈ sources, S n)
    (hT : T node) :
    (⟨next, sources.map fun source => ⟨source, .silent node⟩, entry own node⟩ : Piece).Within
      S T own parts where
  sources l hl := by
    obtain ⟨n, hn, rfl⟩ := List.mem_map.mp hl
    exact hS n hn
  targets l hl := by
    obtain ⟨n, hn, rfl⟩ := List.mem_map.mp hl
    exact hT
  elements l hl e he := by
    obtain ⟨n, hn, rfl⟩ := List.mem_map.mp hl
    exact nomatch he
  entries x hx := by
    cases own with
    | none => exact nomatch hx
    | some id =>
      obtain rfl := List.mem_singleton.mp hx
      exact ⟨hT, .inl rfl⟩

theorem leave {source target next : NodeId} (hS : S source) (hnext : S next) (hT : T target)
    (hTnext : T next) : (Network.leave own source target next).Within S T own parts where
  sources l hl := by
    rcases List.mem_cons.mp hl with rfl | hl
    · exact hS
    · obtain rfl := List.mem_singleton.mp hl
      exact hnext
  targets l hl := by
    rcases List.mem_cons.mp hl with rfl | hl
    · exact hTnext
    · obtain rfl := List.mem_singleton.mp hl
      exact hT
  elements l hl e he := by
    rcases List.mem_cons.mp hl with rfl | hl
    · exact nomatch he
    · obtain rfl := List.mem_singleton.mp hl
      exact nomatch he
  entries x hx := by
    have henter : Piece.Within S T own parts
        ⟨next + 1, [source].map fun source => ⟨source, .silent next⟩, entry own next⟩ :=
      enter (fun n hn => List.mem_singleton.mp hn ▸ hS) hTnext
    exact henter.entries x hx

end Piece.Within

/-- Some given nodes, and the new ones from `lo` up to the one before `hi`. -/
def Among (ends : List NodeId) (lo hi n : Nat) : Prop := n ∈ ends ∨ lo ≤ n ∧ n < hi

theorem Among.mono {ends ends' : List NodeId} {lo lo' hi hi' n : Nat} (h : Among ends lo hi n)
    (hends : ∀ e ∈ ends, Among ends' lo' hi' e) (hlo : lo' ≤ lo) (hhi : hi ≤ hi') :
    Among ends' lo' hi' n := by
  rcases h with h | h
  · exact hends n h
  · exact .inr (by omega)

theorem Among.self {lo hi n : Nat} : Among [n] lo hi n := .inl (.head _)

theorem Among.new {ends : List NodeId} {lo hi n : Nat} (hlo : lo ≤ n) (hhi : n < hi) :
    Among ends lo hi n := .inr ⟨hlo, hhi⟩

/-- What a piece for some elements consists of, with its nodes. -/
def Lies (sources : List NodeId) (target next : Nat) (own : Option DecisionId)
    (parts : List Element) (p : Piece) : Prop :=
  p.Within (Among sources next p.next) (Among [target] next p.next) own parts

theorem Lies.own_none {sources : List NodeId} {target next : Nat} {own : Option DecisionId}
    {parts : List Element} {p : Piece} (h : Lies sources target next none parts p) :
    Lies sources target next own parts p := Piece.Within.own_none h

/-- A piece is part of a wider one. -/
theorem Lies.widen {sources sources' : List NodeId} {target target' next next' hi : Nat}
    {own : Option DecisionId} {parts parts' : List Element} {p : Piece}
    (h : Lies sources target next own parts p)
    (hsources : ∀ n ∈ sources, Among sources' next' hi n) (htarget : Among [target'] next' hi target)
    (hlo : next' ≤ next) (hhi : p.next ≤ hi) (hparts : ∀ e ∈ parts, e ∈ parts') :
    p.Within (Among sources' next' hi) (Among [target'] next' hi) own parts' :=
  h.mono (fun _ hn => hn.mono hsources hlo hhi)
    (fun _ hn => hn.mono (fun _ he => List.mem_singleton.mp he ▸ htarget) hlo hhi) hparts

theorem lies_link {source target next : Nat} {edge : Edge} (ht : edge.target = target)
    {parts : List Element} (hparts : ∀ e, edge.element? = some e → e ∈ parts) :
    Lies [source] target next none parts (.link next [⟨source, edge⟩]) :=
  .link .self (ht ▸ .self) hparts

theorem lies :
    (∀ (source target next : Nat) e,
      Lies [source] target next none e.parts (element source target next e)) ∧
    (∀ d sources (target next : Nat) as,
      Lies sources target next d (Element.partsOfEach as) (branches d sources target next as)) ∧
    ∀ (source target next : Nat) es,
      Lies [source] target next none (Element.partsOf es) (sequence source target next es) := by
  apply element.mutual_induct
  case case1 =>
    intro source target next set
    exact lies_link rfl fun e he => Option.some.inj he ▸ .head _
  case case2 =>
    intro source target next rule
    exact lies_link rfl fun e he => Option.some.inj he ▸ .head _
  case case3 =>
    intro source target next id
    exact lies_link rfl fun e he => Option.some.inj he ▸ .head _
  case case4 =>
    intro source target next _
    exact lies_link rfl nofun
  case case5 =>
    intro source target next
    exact lies_link rfl nofun
  case case6 =>
    intro source target next ordinal es tail ih
    exact ih.mono (fun _ h => h) (fun _ h => h) fun e he =>
      .tail _ (List.mem_append_left _ he)
  case case7 =>
    intro source target next d alternatives ih
    exact ih.block
  case case8 =>
    intro source target next d alternatives ih
    have hle := next_le_branches d [source] target next alternatives
    have hhi := Nat.lt_succ_self (branches d [source] target next alternatives).next
    exact .block (.append (ih.widen (fun _ he => .inl he) .self (Nat.le_refl _) (Nat.le_of_lt hhi)
      fun _ he => he) (.leave .self (.new hle hhi) .self (.new hle hhi)))
  case case9 =>
    intro source target next d alternatives ih
    have hle := next_le_branches d [next] next (next + 1) alternatives
    have hhi := Nat.lt_succ_self (branches d [next] next (next + 1) alternatives).next
    have hnext : Among [source] next ((branches d [next] next (next + 1) alternatives).next + 1) next ∧
        Among [target] next ((branches d [next] next (next + 1) alternatives).next + 1) next :=
      ⟨.new (Nat.le_refl _) (by omega), .new (Nat.le_refl _) (by omega)⟩
    exact .block (.append (.append (.link .self hnext.2 nofun) (ih.widen
      (List.forall_mem_singleton.mpr hnext.1) hnext.2 (Nat.le_succ _) (Nat.le_of_lt hhi)
      fun _ he => he)) (.leave hnext.1 (.new (by omega) hhi) .self (.new (by omega) hhi)))
  case case10 =>
    intro source target next d alternatives ih
    have hle := next_le_branches d [source, next] next (next + 1) alternatives
    have hhi := Nat.lt_succ_self (branches d [source, next] next (next + 1) alternatives).next
    have hnext :
        Among [source] next ((branches d [source, next] next (next + 1) alternatives).next + 1) next ∧
        Among [target] next ((branches d [source, next] next (next + 1) alternatives).next + 1) next :=
      ⟨.new (Nat.le_refl _) (by omega), .new (Nat.le_refl _) (by omega)⟩
    exact .block (.append (ih.widen
      (List.forall_mem_cons.mpr ⟨.self, List.forall_mem_singleton.mpr hnext.1⟩) hnext.2 (Nat.le_succ _)
      (Nat.le_of_lt hhi) fun _ he => he)
      (.leave hnext.1 (.new (by omega) hhi) .self (.new (by omega) hhi)))
  case case11 =>
    intro d sources target next
    exact ⟨nofun, nofun, nofun, nofun⟩
  case case12 =>
    intro d sources target next ordinal es as
    dsimp only
    intro ihes ihas
    have hle := next_le_sequence next target (next + 1) es
    have hle' := next_le_branches d sources target (sequence next target (next + 1) es).next as
    have hnext :
        next < (branches d sources target (sequence next target (next + 1) es).next as).next :=
      Nat.lt_of_lt_of_le (Nat.lt_of_succ_le hle) hle'
    rw [branches]
    exact .append (.append (.enter (fun n hn => .inl hn) (.new (Nat.le_refl _) hnext))
      (ihes.own_none.widen (List.forall_mem_singleton.mpr (.new (Nat.le_refl _) hnext)) .self
        (Nat.le_succ _) hle' fun e he => List.mem_append_left _ he))
      (ihas.widen (fun n hn => .inl hn) .self (by simp only [Piece.next_append]; omega)
        (Nat.le_refl _) fun e he => List.mem_append_right _ he)
  case case13 =>
    intro source target next
    exact lies_link rfl nofun
  case case14 =>
    intro source target next e es
    dsimp only
    intro ihe ihes
    have hle := next_le_element source next (next + 1) e
    have hle' := next_le_sequence next target (element source next (next + 1) e).next es
    have hnext : next < (sequence next target (element source next (next + 1) e).next es).next :=
      Nat.lt_of_lt_of_le (Nat.lt_of_succ_le hle) hle'
    rw [sequence]
    exact .append (ihe.widen (fun n hn => .inl hn) (.new (Nat.le_refl _) hnext) (Nat.le_succ _) hle'
      fun e he => List.mem_append_left _ he) (ihes.widen
      (List.forall_mem_singleton.mpr (.new (Nat.le_refl _) hnext)) .self (by omega) (Nat.le_refl _)
      fun e he => List.mem_append_right _ he)

end Network
end Lookahead
