import Lookahead.Proofs.Grammar.Definition
import Lookahead.Proofs.Network.Placed

/-! The paths of a network spell what its grammar spells.

While a path is under way, the phrases that lie between its node and the one where it ends
wait to be spelled. Each edge takes a step through the first of them (`SpansAll.advance`), so
the labels of the path are a trace of them all (`Path.spells`). The other way round, the trace
of a phrase is found along its ways (`Spells.path`).

The edges of a network hold the sets and the predicates that a path passes. They do not hold the
actions. Which action an edge stands for, its place among the other action edges tells
(`Network.actionAt`), and so the labels of a path are those of a trace, one by one. -/
namespace Lookahead
namespace Network

/-- A path passes labels. Each call that it enters returns, and on the level where it begins it
leaves only nodes that `may` be left. An action edge passes the action that it stands for, which
the network tells by the order of such edges. -/
inductive Path (n : Network) : (NodeId → Prop) → NodeId → NodeId → List Label → Prop where
  | nil {may} (node) : Path n may node node []
  | silent {may source node target ls} (hmay : may source)
    (he : .silent node ∈ n.edgesOf source) (rest : Path n may node target ls) :
    Path n may source target ls
  | symbols {may source set node target ls} (hmay : may source)
    (he : .symbols set node ∈ n.edgesOf source) (rest : Path n may node target ls) :
    Path n may source target (.symbols set :: ls)
  | predicate {may source id node target ls} (hmay : may source)
    (he : .predicate id node ∈ n.edgesOf source) (rest : Path n may node target ls) :
    Path n may source target (.predicate id :: ls)
  | action {may source node target ls} (hmay : may source)
    (he : .action node ∈ n.edgesOf source) (rest : Path n may node target ls) :
    Path n may source target (.action (n.actionAt node) :: ls)
  | call {may source rule follow target ls ms} (hmay : may source)
    (he : .call rule follow ∈ n.edgesOf source)
    (inside : Path n (fun _ => True) (start rule) (stop rule) ls)
    (rest : Path n may follow target ms) : Path n may source target (ls ++ ms)

/-- Phrases lie one after the other between two nodes. -/
def SpansAll (g : Grammar) (may : NodeId → Prop) (target : NodeId) :
    NodeId → List Phrase → Prop
  | source, [] => source = target
  | source, p :: ps => ∃ node, Spans g may source node p ∧ SpansAll g may target node ps

variable {g : Grammar} {may may' : NodeId → Prop} {source target : NodeId} {x : Edge}

theorem SpansAll.singleton {p : Phrase} (h : Spans g may source target p) :
    SpansAll g may target source [p] := ⟨target, h, rfl⟩

theorem SpansAll.append {node : NodeId} {ps qs : List Phrase} (hps : SpansAll g may node source ps)
    (hqs : SpansAll g may target node qs) : SpansAll g may target source (ps ++ qs) := by
  induction ps generalizing source with
  | nil =>
    obtain rfl := hps
    exact hqs
  | cons p ps ih =>
    obtain ⟨node, hp, hps⟩ := hps
    exact ⟨node, hp, ih hps⟩

/-! ### What an edge does to the phrases that wait -/

theorem Spans.may_source {p : Phrase} (h : Spans g may source target p) : may source := by
  cases p with
  | element e =>
    obtain ⟨_, h⟩ := h
    exact h.may_source
  | sequence es =>
    obtain ⟨_, h⟩ := h
    exact h.may_source
  | rounds as =>
    obtain ⟨_, h, _⟩ := h
    exact h

/-- An edge takes a step through a phrase and leaves phrases that lie behind it. -/
def Advances (g : Grammar) (may : NodeId → Prop) (target : NodeId) (x : Edge) (p : Phrase) : Prop :=
  ∃ ps, SpansAll g may target x.target ps ∧ Advance p ((ofGrammar g).passed? x) ps

theorem SpansElement.advances_leaf (hwf : g.WellFormed) {e : Element} (he : e.Leaf)
    (h : SpansElement g may source target e) (hx : x ∈ (ofGrammar g).edgesOf source) :
    Advances g may target x (.element e) := by
  obtain ⟨edge, helement, rfl, hedges⟩ := h.mem_edgesOf hwf he
  obtain rfl := (hedges x).mp hx
  exact ⟨[], rfl, helement ▸ .leaf he⟩

theorem SpansElement.lays {e : Element} (h : SpansElement g may source target e) :
    Lays g source target e := by
  obtain ⟨next, h⟩ := h
  exact ⟨next, h.contains⟩

section
variable {d : DecisionId} {as : List (Alternative Element)} {count : Nat}

/-- The alternative that an edge enters. -/
theorem Forks.enters (h : Forks g d source count) (hx : x ∈ (ofGrammar g).edgesOf source) :
    ∃ i, i < count ∧ ((ofGrammar g).entriesOf d)[i]? = some x.target ∧
      (ofGrammar g).passed? x = none := by
  obtain ⟨i, node, hi, hnode, rfl⟩ := (h x).mp hx
  exact ⟨i, hi, hnode, rfl⟩

theorem SpansBranches.enters (h : SpansBranches g may d target as) {i : Nat} {node : NodeId}
    (hi : i < as.length) (hnode : ((ofGrammar g).entriesOf d)[i]? = some node) :
    ∃ a ∈ as, SpansSequence g may node target a.elements := by
  obtain ⟨node', hnode', hspans⟩ := h i _ (List.getElem?_eq_getElem hi)
  obtain rfl := Option.some.inj (hnode.symm.trans hnode')
  exact ⟨_, List.getElem_mem hi, hspans⟩

theorem SpansExit.enters (h : SpansExit g may d target count) {node : NodeId}
    (hnode : ((ofGrammar g).entriesOf d)[count]? = some node) :
    SpansSequence g may node target [] := by
  obtain ⟨node', hnode', hspans⟩ := h
  obtain rfl := Option.some.inj (hnode.symm.trans hnode')
  exact hspans

theorem SpansRounds.advances (h : SpansRounds g may d source target as)
    (hx : x ∈ (ofGrammar g).edgesOf source) : Advances g may target x (.rounds as) := by
  have hrounds : Spans g may source target (.rounds as) := ⟨d, h⟩
  obtain ⟨_, hbranches, hexit, hforks⟩ := h
  obtain ⟨i, hi, hnode, helement⟩ := hforks.enters hx
  rw [Advances, helement]
  rcases Nat.lt_succ_iff_lt_or_eq.mp hi with hi | rfl
  · obtain ⟨a, ha, hspans⟩ := hbranches.enters hi hnode
    exact ⟨[.sequence a.elements, .rounds as], ⟨source, hspans, .singleton hrounds⟩, .round ha⟩
  · exact ⟨[.sequence []], .singleton (hexit.enters hnode), .leave⟩

end

mutual
theorem SpansElement.advances (hwf : g.WellFormed) : (e : Element) → {source target : NodeId} →
    SpansElement g may source target e → {x : Edge} → x ∈ (ofGrammar g).edgesOf source →
    Advances g may target x (.element e)
  | .block .single none [a], _, _, h, _, hx => by
    obtain ⟨ps, hps, hadvance⟩ := SpansSequence.advances hwf a.elements h.alternative hx
    exact ⟨ps, hps, .alternative hadvance⟩
  | .block .single none [], _, _, h, _, _ => by
    obtain ⟨_, ha⟩ := hwf.exists_alternative h.lays.mem_parts
    exact nomatch ha
  | .block .single none (_ :: _ :: _), _, _, h, _, _ => by
    obtain ⟨_, ha⟩ := hwf.exists_alternative h.lays.mem_parts
    exact nomatch ha
  | .block .single (some d) as, source, target, h, x, hx => by
    obtain ⟨hbranches, hforks⟩ := h.single hwf
    obtain ⟨i, hi, hnode, helement⟩ := hforks.enters hx
    obtain ⟨a, ha, hspans⟩ := hbranches.enters hi hnode
    rw [Advances, helement]
    exact ⟨[.sequence a.elements], .singleton hspans, .single ha⟩
  | .block .optional (some d) as, source, target, h, x, hx => by
    obtain ⟨hbranches, hexit, hforks⟩ := h.optional hwf
    obtain ⟨i, hi, hnode, helement⟩ := hforks.enters hx
    rw [Advances, helement]
    rcases Nat.lt_succ_iff_lt_or_eq.mp hi with hi | rfl
    · obtain ⟨a, ha, hspans⟩ := hbranches.enters hi hnode
      exact ⟨[.sequence a.elements], .singleton hspans, .optional ha⟩
    · exact ⟨[.sequence []], .singleton (hexit.enters hnode), .skip⟩
  | .block .star (some d) as, source, target, h, x, hx => by
    obtain ⟨loop, hrounds, hedges⟩ := h.star hwf
    obtain rfl := (hedges x).mp hx
    exact ⟨[.rounds as], .singleton ⟨d, hrounds⟩, .star⟩
  | .block .plus (some d) as, source, target, h, x, hx => by
    obtain ⟨loop, hrounds, hforks⟩ := h.plus hwf
    obtain ⟨i, hi, hnode, helement⟩ := hforks.enters hx
    obtain ⟨a, ha, hspans⟩ := hrounds.2.1.enters hi hnode
    rw [Advances, helement]
    exact ⟨[.sequence a.elements, .rounds as], ⟨loop, hspans, .singleton ⟨d, hrounds⟩⟩, .plus ha⟩
  | .block .optional none _, _, _, h, _, _ | .block .star none _, _, _, h, _, _
  | .block .plus none _, _, _, h, _, _ => by
    obtain ⟨_, hd⟩ := hwf.exists_decision h.lays.mem_parts nofun
    exact nomatch hd
  | .symbols _, _, _, h, _, hx | .call _, _, _, h, _, hx | .predicate _, _, _, h, _, hx
  | .action _, _, _, h, _, hx => SpansElement.advances_leaf hwf trivial h hx

theorem SpansSequence.advances (hwf : g.WellFormed) : (es : List Element) →
    {source target : NodeId} → SpansSequence g may source target es → {x : Edge} →
    x ∈ (ofGrammar g).edgesOf source → Advances g may target x (.sequence es)
  | [], _, _, h, _, hx => by
    obtain rfl := h.mem_edgesOf.mp hx
    exact ⟨[], rfl, .nil⟩
  | e :: es, _, _, h, _, hx => by
    obtain ⟨node, he, hes⟩ := h.cons
    obtain ⟨ps, hps, hadvance⟩ := SpansElement.advances hwf e he hx
    exact ⟨_, hps.append (.singleton (p := .sequence es) hes), .cons hadvance⟩
end

theorem Spans.advances (hwf : g.WellFormed) {p : Phrase} (h : Spans g may source target p)
    (hx : x ∈ (ofGrammar g).edgesOf source) : Advances g may target x p := by
  cases p with
  | element e => exact SpansElement.advances hwf e h hx
  | sequence es => exact SpansSequence.advances hwf es h hx
  | rounds as =>
    obtain ⟨d, h⟩ := h
    exact h.advances hx

/-! ### Labels of paths -/

/-- On its way an edge takes a step through the phrases that lie between its node and the one
where the path ends. -/
theorem SpansAll.spells (hwf : g.WellFormed) {ps : List Phrase} {ls ms : List Label}
    (h : SpansAll g may target source ps) (hne : source ≠ target)
    (hx : x ∈ (ofGrammar g).edgesOf source) (hls : g.SpellsStep ((ofGrammar g).passed? x) ls)
    (hrest : ∀ qs, SpansAll g may target x.target qs → g.SpellsAll qs ms) :
    g.SpellsAll ps (ls ++ ms) := by
  cases ps with
  | nil => exact absurd h hne
  | cons p ps =>
    obtain ⟨node, hp, hps⟩ := h
    obtain ⟨qs, hqs, hadvance⟩ := hp.advances hwf hx
    obtain ⟨ms₁, ms₂, rfl, hms₁, hms₂⟩ := (hrest _ (hqs.append hps)).split
    exact ⟨ls ++ ms₁, ms₂, (List.append_assoc ..).symm, hadvance.spells hls hms₁, hms₂⟩

/-- The labels of a path are a trace of the phrases along its way. -/
theorem Path.spells (hwf : g.WellFormed) {ls : List Label}
    (h : Path (ofGrammar g) may source target ls)
    (hmay : ∀ n x, may n → x ∈ (ofGrammar g).edgesOf n → n ≠ target) {ps : List Phrase}
    (hps : SpansAll g (· ≠ target) target source ps) : g.SpellsAll ps ls := by
  induction h generalizing ps with
  | nil node =>
    cases ps with
    | nil => rfl
    | cons p ps =>
      obtain ⟨_, hp, _⟩ := hps
      exact absurd rfl hp.may_source
  | silent hn he _ ih =>
    have hnone : g.SpellsStep none [] := rfl
    exact hps.spells hwf (hmay _ _ hn he) he hnone fun _ hqs => ih hmay hqs
  | @symbols _ _ set _ _ _ hn he _ ih =>
    exact hps.spells hwf (hmay _ _ hn he) he (.symbols set) fun _ hqs => ih hmay hqs
  | @predicate _ _ id _ _ _ hn he _ ih =>
    exact hps.spells hwf (hmay _ _ hn he) he (.predicate id) fun _ hqs => ih hmay hqs
  | action hn he _ ih =>
    exact hps.spells hwf (hmay _ _ hn he) he (.action _) fun _ hqs => ih hmay hqs
  | @call _ _ rule _ _ _ _ hn he _ _ ih ih' =>
    have hlt : rule < g.rules.length := (closed_ofGrammar hwf).call _ _ _ he
    obtain ⟨r, hr⟩ : ∃ r, g.rule? rule = some r := ⟨_, List.getElem?_eq_getElem hlt⟩
    have hstop : (ofGrammar g).edgesOf (stop rule) = [] :=
      (closed_ofGrammar hwf).stop _ rule (stopOf?_eq_some.mpr ⟨hlt, rfl⟩)
    have hinside := ih (fun n x _ hx hn => by
        rw [hn, hstop] at hx
        exact nomatch hx)
      (.singleton (p := .element r.block.element) (spans_rule hr fun _ h => h))
    exact hps.spells hwf (hmay _ _ hn he) he (.call hr (Grammar.spellsAll_singleton.mp hinside))
      fun _ hqs => ih' hmay hqs

end Network

open Network

section
variable {g : Grammar} {may : NodeId → Prop} {source target : NodeId}

/-- The labels of the way through an alternative, from where it is entered. -/
theorem Network.Forks.path {d : DecisionId} {as : List (Alternative Element)} {count : Nat}
    (h : Forks g d source count) (hcount : as.length ≤ count) (hsource : may source)
    (hbranches : SpansBranches g may d target as) {a : Alternative Element} (ha : a ∈ as)
    {node : NodeId} {ls : List Label}
    (hpath : ∀ entry, SpansSequence g may entry target a.elements →
      Path (ofGrammar g) may entry node ls) :
    Path (ofGrammar g) may source node ls := by
  obtain ⟨i, hi⟩ := List.getElem?_of_mem ha
  have hlt : i < as.length := (List.getElem?_eq_some_iff.mp hi).1
  obtain ⟨entry, hentry, hspans⟩ := hbranches i a hi
  exact .silent hsource ((h _).mpr ⟨i, entry, Nat.lt_of_lt_of_le hlt hcount, hentry, rfl⟩)
    (hpath entry hspans)

theorem Network.Forks.path_exit {d : DecisionId} {count : Nat} (h : Forks g d source (count + 1))
    (hsource : may source) (hexit : SpansExit g may d target count) {node : NodeId}
    {ls : List Label} (hpath : Path (ofGrammar g) may target node ls) :
    Path (ofGrammar g) may source node ls := by
  obtain ⟨exit, hnode, hspans⟩ := hexit
  have hmay : may exit := Spans.may_source (p := .sequence []) hspans
  exact .silent hsource ((h _).mpr ⟨count, exit, Nat.lt_succ_self _, hnode, rfl⟩)
    (.silent hmay (hspans.mem_edgesOf.mpr rfl) hpath)

/-- A trace of a phrase is found on its ways, in front of what follows. -/
theorem Grammar.Spells.path (hwf : g.WellFormed) {p : Phrase} {ls : List Label}
    (h : g.Spells p ls) (hspans : Spans g may source target p) {node : NodeId} {ms : List Label}
    (hrest : Path (ofGrammar g) may target node ms) :
    Path (ofGrammar g) may source node (ls ++ ms) := by
  induction h generalizing may source target node ms with
  | symbols set =>
    exact .symbols hspans.may_source (SpansElement.lays hspans).symbols hrest
  | predicate id =>
    exact .predicate hspans.may_source (SpansElement.lays hspans).predicate hrest
  | action id =>
    have hlays := SpansElement.lays hspans
    have hpath := Path.action hspans.may_source hlays.action hrest
    rwa [hlays.actionAt hwf] at hpath
  | @call rule r ls hr _ ih =>
    have hrule : SpansElement g (fun _ => True) (start rule) (stop rule) r.block.element :=
      spans_rule hr fun _ _ => trivial
    have hinside := ih hrule (.nil _)
    rw [List.append_nil] at hinside
    exact .call hspans.may_source (SpansElement.lays hspans).call hinside hrest
  | @single d as a ls ha _ ih =>
    cases d with
    | some d =>
      obtain ⟨hbranches, hforks⟩ := SpansElement.single hwf hspans
      exact hforks.path (Nat.le_refl _) hspans.may_source hbranches ha fun _ hspans =>
        ih hspans hrest
    | none =>
      obtain ⟨b, rfl⟩ := hwf.exists_alternative (SpansElement.lays hspans).mem_parts
      obtain rfl := List.mem_singleton.mp ha
      exact ih (SpansElement.alternative hspans) hrest
  | @optional d as a ls ha _ ih =>
    obtain ⟨d, rfl⟩ := hwf.exists_decision (SpansElement.lays hspans).mem_parts nofun
    obtain ⟨hbranches, _, hforks⟩ := SpansElement.optional hwf hspans
    exact hforks.path (Nat.le_succ _) hspans.may_source hbranches ha fun _ hspans =>
      ih hspans hrest
  | @skip d as =>
    obtain ⟨d, rfl⟩ := hwf.exists_decision (SpansElement.lays hspans).mem_parts nofun
    obtain ⟨_, hexit, hforks⟩ := SpansElement.optional hwf hspans
    exact hforks.path_exit hspans.may_source hexit hrest
  | @star d as ls _ ih =>
    obtain ⟨d, rfl⟩ := hwf.exists_decision (SpansElement.lays hspans).mem_parts nofun
    obtain ⟨loop, hrounds, hedges⟩ := SpansElement.star hwf hspans
    exact .silent hspans.may_source ((hedges _).mpr rfl) (ih ⟨d, hrounds⟩ hrest)
  | @plus d as a ls ls' ha _ _ ih ih' =>
    obtain ⟨d, rfl⟩ := hwf.exists_decision (SpansElement.lays hspans).mem_parts nofun
    obtain ⟨loop, hrounds, hforks⟩ := SpansElement.plus hwf hspans
    rw [List.append_assoc]
    exact hforks.path (Nat.le_refl _) hspans.may_source hrounds.2.1 ha fun _ hspans =>
      ih hspans (ih' ⟨d, hrounds⟩ hrest)
  | nil => exact .silent hspans.may_source ((SpansSequence.mem_edgesOf hspans).mpr rfl) hrest
  | @cons e es ls ls' _ _ ih ih' =>
    obtain ⟨middle, he, hes⟩ := SpansSequence.cons hspans
    rw [List.append_assoc]
    exact ih he (ih' hes hrest)
  | leave =>
    obtain ⟨d, hmay, _, hexit, hforks⟩ := hspans
    exact hforks.path_exit hmay hexit hrest
  | @round as a ls ls' ha _ _ ih ih' =>
    have hloop := hspans
    obtain ⟨d, hmay, hbranches, _, hforks⟩ := hspans
    rw [List.append_assoc]
    exact hforks.path (Nat.le_succ _) hmay hbranches ha fun _ hspans =>
      ih hspans (ih' hloop hrest)

/-- The same for phrases one after the other. -/
theorem Grammar.SpellsAll.path (hwf : g.WellFormed) {ps : List Phrase} {ls : List Label}
    (h : g.SpellsAll ps ls) (hspans : SpansAll g may target source ps) :
    Path (ofGrammar g) may source target ls := by
  induction ps generalizing source ls with
  | nil =>
    obtain rfl := h
    obtain rfl := hspans
    exact .nil _
  | cons p ps ih =>
    obtain ⟨ls, ms, rfl, hp, hps⟩ := h
    obtain ⟨node, hspan, hspans⟩ := hspans
    exact hp.path hwf hspan (ih hps hspans)

/-- The paths along phrases, up to where they first end, spell their traces. -/
theorem Network.SpansAll.path_iff (hwf : g.WellFormed) {ps : List Phrase} {ls : List Label}
    (h : SpansAll g (· ≠ target) target source ps) :
    Path (ofGrammar g) (· ≠ target) source target ls ↔ g.SpellsAll ps ls :=
  ⟨fun hpath => hpath.spells hwf (fun _ _ hn _ => hn) h, fun hls => hls.path hwf h⟩

end

/-! ### Rules and decisions -/

/-- What follows an alternative of a block. -/
def BlockKind.rest (kind : BlockKind) (as : List (Alternative Element)) : List Phrase :=
  match kind with
  | single | optional => []
  | star | plus => [.rounds as]

/-- The entries of a decision are those of the alternatives of its block, in order. The ways from
an entry to the end of the block spell the alternative and the rounds that may follow it. The
entry of the alternative that leaves the block leads nowhere but there. -/
structure Network.EntersBlock (g : Grammar) (d : Decision) : Prop where
  count : ((ofGrammar g).entriesOf d.id).length = d.altCount
  block : ∃ kind as source target, .block kind (some d.id) as ∈ g.parts ∧
    kind = d.kind.blockKind ∧ d.altCount = kind.altCount as.length ∧
    (∀ ls, Path (ofGrammar g) (· ≠ target) source target ls ↔
      g.Spells (.element (.block kind (some d.id) as)) ls) ∧
    (∀ (i : Nat) a, as[i]? = some a → ∃ entry, ((ofGrammar g).entriesOf d.id)[i]? = some entry ∧
      ∀ ls, Path (ofGrammar g) (· ≠ target) entry target ls ↔
        g.SpellsAll (.sequence a.elements :: kind.rest as) ls) ∧
    (kind ≠ .single → ∃ entry, ((ofGrammar g).entriesOf d.id)[as.length]? = some entry ∧
      ∀ x, x ∈ (ofGrammar g).edgesOf entry ↔ x = .silent target)

/-- Where the alternatives of a block are entered, and what lies behind them. -/
theorem Network.SpansElement.entries {g : Grammar} (hwf : g.WellFormed) {kind : BlockKind}
    {d : DecisionId} {as : List (Alternative Element)} {may : NodeId → Prop}
    {source target : NodeId} (h : SpansElement g may source target (.block kind (some d) as)) :
    (∀ (i : Nat) a, as[i]? = some a → ∃ entry, ((ofGrammar g).entriesOf d)[i]? = some entry ∧
      SpansAll g may target entry (.sequence a.elements :: kind.rest as)) ∧
    (kind ≠ .single → SpansExit g may d target as.length) := by
  cases kind with
  | single =>
    refine ⟨fun i a ha => ?_, fun hne => absurd rfl hne⟩
    obtain ⟨entry, hentry, hspans⟩ := (h.single hwf).1 i a ha
    exact ⟨entry, hentry, .singleton hspans⟩
  | optional =>
    obtain ⟨hbranches, hexit, _⟩ := h.optional hwf
    refine ⟨fun i a ha => ?_, fun _ => hexit⟩
    obtain ⟨entry, hentry, hspans⟩ := hbranches i a ha
    exact ⟨entry, hentry, .singleton hspans⟩
  | star =>
    obtain ⟨loop, hrounds, _⟩ := h.star hwf
    refine ⟨fun i a ha => ?_, fun _ => hrounds.2.2.1⟩
    obtain ⟨entry, hentry, hspans⟩ := hrounds.2.1 i a ha
    exact ⟨entry, hentry, loop, hspans, .singleton ⟨d, hrounds⟩⟩
  | plus =>
    obtain ⟨loop, hrounds, _⟩ := h.plus hwf
    refine ⟨fun i a ha => ?_, fun _ => hrounds.2.2.1⟩
    obtain ⟨entry, hentry, hspans⟩ := hrounds.2.1 i a ha
    exact ⟨entry, hentry, loop, hspans, .singleton ⟨d, hrounds⟩⟩

theorem Network.entersBlock {g : Grammar} (hwf : g.WellFormed) {d : Decision}
    (hd : d ∈ g.decisions) : EntersBlock g d := by
  obtain ⟨kind, as, hmem, hkind, hcount⟩ := hwf.exists_block hd
  obtain ⟨source, target, hspans⟩ := exists_spans hwf hmem
  obtain ⟨hentries, hexit⟩ := hspans.entries hwf
  refine ⟨(length_entriesOf hwf hmem).trans hcount.symm, kind, as, source, target, hmem,
    hkind.symm, hcount, fun ls => ?_, fun i a ha => ?_, fun hne => ?_⟩
  · rw [(SpansAll.singleton (p := .element _) hspans).path_iff hwf, Grammar.spellsAll_singleton]
  · obtain ⟨entry, hentry, hspans⟩ := hentries i a ha
    exact ⟨entry, hentry, fun ls => hspans.path_iff hwf⟩
  · obtain ⟨entry, hentry, hspans⟩ := hexit hne
    exact ⟨entry, hentry, fun x => hspans.mem_edgesOf⟩

/-- The paths through a rule spell its traces. -/
theorem Network.path_rule_iff {g : Grammar} (hwf : g.WellFormed) {id : RuleId} {r : Rule}
    (hr : g.rule? id = some r) {ls : List Label} :
    Path (ofGrammar g) (fun _ => True) (start id) (stop id) ls ↔
      g.Spells (.element r.block.element) ls := by
  have hlt : id < g.rules.length := (List.getElem?_eq_some_iff.mp hr).1
  have hstop : (ofGrammar g).edgesOf (stop id) = [] :=
    (closed_ofGrammar hwf).stop _ id (stopOf?_eq_some.mpr ⟨hlt, rfl⟩)
  have hspans {may : NodeId → Prop} (hmay : ∀ n, n ≠ stop id → may n) :
      SpansAll g may (stop id) (start id) [.element r.block.element] :=
    .singleton (p := .element r.block.element) (spans_rule hr hmay)
  constructor
  · refine fun h => Grammar.spellsAll_singleton.mp (h.spells hwf (fun n x _ hx hn => ?_)
      (hspans fun _ hn => hn))
    rw [hn, hstop] at hx
    exact nomatch hx
  · exact fun h => (Grammar.spellsAll_singleton.mpr h).path hwf (hspans fun _ _ => trivial)

/-- **The network has the language of the grammar.** The paths from where a rule starts to where
it stops spell the traces of its block, and each decision is entered at its alternatives. The
sets and predicates of a path are those on its edges, and an action is known by the place of its
edge among all action edges, as the edge only says that there is one. -/
theorem Network.ofGrammar_exact {definition : GrammarDefinition} {g : Grammar}
    (h : definition.build = .ok g) :
    (∀ id r, g.rule? id = some r → ∀ ls,
      Path (ofGrammar g) (fun _ => True) (start id) (stop id) ls ↔
        g.Spells (.element r.block.element) ls) ∧
    ∀ d ∈ g.decisions, EntersBlock g d :=
  have hwf := definition.wellFormed_of_build h
  ⟨fun _ _ hr _ => path_rule_iff hwf hr, fun _ hd => entersBlock hwf hd⟩

/-- A loop in a loop, and a rule that calls itself in between. -/
def nestedLoops : GrammarDefinition where
  name := "NestedLoops"
  kind := .parser
  rules := [⟨"s", .repeated .star (.choice [.repeated .plus (.ref "A"),
    .seq [.ref "B", .ref "s", .ref "C"]]), false⟩]
  tokens := []

/-- The alternatives of the outer loop. -/
def nestedLoopsBody : List (Alternative Element) :=
  [⟨1, [.block .plus (some 1) [⟨1, [.symbols (.single 4)]⟩]]⟩,
    ⟨2, [.symbols (.single 5), .call 0, .symbols (.single 6)]⟩]

/-- `s` spells what its outer loop does in one round. -/
theorem nestedLoops_spells {a : Alternative Element} {ls : List Label} (ha : a ∈ nestedLoopsBody)
    (h : nestedLoops.grammar.Spells (.sequence a.elements) ls) : nestedLoops.grammar.Spells
      (.element (.block .single none [⟨1, [.block .star (some 0) nestedLoopsBody]⟩])) ls := by
  have hloop : nestedLoops.grammar.Spells
      (.sequence [.block .star (some 0) nestedLoopsBody]) ((ls ++ []) ++ []) :=
    .cons (.star (.round ha h .leave)) .nil
  rw [List.append_nil, List.append_nil] at hloop
  exact .single (.head _) hloop

/-- `s` spells `A A`, in one round of the outer loop. -/
theorem nestedLoops_spells_inner : nestedLoops.grammar.Spells
    (.element (.block .single none [⟨1, [.block .star (some 0) nestedLoopsBody]⟩]))
    [.symbols (.single 4), .symbols (.single 4)] := by
  have hA : nestedLoops.grammar.Spells (.sequence [.symbols (.single 4)]) [.symbols (.single 4)] :=
    .cons (.symbols _) .nil
  have hround : nestedLoops.grammar.Spells
      (.sequence [.block .plus (some 1) [⟨1, [.symbols (.single 4)]⟩]]) _ :=
    .cons (.plus (.head _) hA (.round (.head _) hA .leave)) .nil
  exact nestedLoops_spells (.head _) hround

/-- The path calls `s` between `B` and `C`, and goes twice round the inner loop there. -/
theorem Network.ofGrammar_exact_nestedLoops :
    nestedLoops.build = .ok nestedLoops.grammar ∧
      Path (ofGrammar nestedLoops.grammar) (fun _ => True) (start 0) (stop 0)
        [.symbols (.single 5), .symbols (.single 4), .symbols (.single 4), .symbols (.single 6)] ∧
      ((ofGrammar nestedLoops.grammar).entriesOf 0).length = 3 := by
  have hbuild : nestedLoops.build = .ok nestedLoops.grammar :=
    GrammarDefinition.build_eq_ok (by decide +kernel)
  have hs : nestedLoops.grammar.rule? 0 = some ⟨0, "s", .parser, false, false, none,
      ⟨.single, none, [⟨1, [.block .star (some 0) nestedLoopsBody]⟩]⟩⟩ := rfl
  obtain ⟨hrules, hdecisions⟩ := ofGrammar_exact hbuild
  have hround : nestedLoops.grammar.Spells
      (.sequence [.symbols (.single 5), .call 0, .symbols (.single 6)]) _ :=
    .cons (.symbols _) (.cons (.call hs nestedLoops_spells_inner) (.cons (.symbols _) .nil))
  refine ⟨hbuild, (hrules 0 _ hs _).mpr ?_, (hdecisions ⟨0, 0, .star, 3⟩ (.head _)).count⟩
  exact nestedLoops_spells (.tail _ (.head _)) hround

end Lookahead
