import Lookahead.Proofs.Analysis
import Lookahead.Proofs.Construction.Unambiguous
import Lookahead.Proofs.Grammar.Nesting
import Lookahead.Proofs.Network.Traversal
import Lookahead.Proofs.Recognition.Follows

/-! What a rule derives is recognized.

In a grammar without predicates and ambiguities, the alternative of a derivation is predicted
wherever a run from it reads all that is ahead. Such a run goes through what is left of the
derivation, at every depth: where a called rule stops, it goes on after the call. So a
recognizer follows any derivation whose rounds read something, and each word has one. -/
namespace Lookahead
open Network

/-- From the node on a run reads the symbols, up to where the input may end. -/
def Accepts (t : Terrain) (node : NodeId) (w : List Symbol) : Prop :=
  ∃ ps q, Run t ⟨node, []⟩ ps q ∧ Passage.symbols ps = w ∧ q.Accepting t

theorem Accepts.of_run {t : Terrain} {source target : NodeId} {ps : List Passage}
    (hrun : Run t ⟨source, []⟩ ps ⟨target, []⟩) {w : List Symbol} (h : Accepts t target w) :
    Accepts t source (Passage.symbols ps ++ w) := by
  obtain ⟨qs, q, hqs, rfl, haccepting⟩ := h
  exact ⟨ps ++ qs, q, hrun.trans hqs, Passage.symbols_append ps qs, haccepting⟩

namespace Recognizer
variable {α σ : Type} [Symbolic α] {r : Recognizer σ} {t : Terrain} {p q : Progress α σ}

/-- The grammar is well-formed, there are no predicates, and an alternative whose run reads
all that is ahead is predicted. -/
structure Decisive (α : Type) [Symbolic α] (r : Recognizer σ) (t : Terrain) : Prop where
  wellFormed : r.analysis.grammar.WellFormed
  network : t.network = ofGrammar r.analysis.grammar
  predicates : t.predicates = []
  grammarPredicates : r.analysis.grammar.predicates = []
  predicts : ∀ {kind : BlockKind} {d : DecisionId} {as : List (Alternative Element)},
    .block kind (some d) as ∈ r.analysis.grammar.parts →
      ∃ automaton, r.analysis.automaton? d = some automaton ∧
        ∀ alt ps (q : Position) (input : Stream α) (host : σ), LookaheadRun t d alt ps q →
          q.Accepting t → Passage.symbols ps = input.ahead.map Symbolic.symbol →
          (automaton.predict r.host.test input).run host = (⟨.ok alt, none⟩, host)

/-- The action reads the word wherever the rest of the input can be read from `target` on. -/
def Completes (t : Terrain) (target : NodeId) (w : List Symbol) (m : Recognize α σ Unit) : Prop :=
  ∀ z (p : Progress α σ), Accepts t target z → p.input.ahead.map Symbolic.symbol = w ++ z →
    ∃ q, Ends m p (.ok ()) q ∧ p.input.Reads w q.input

/-- The alternatives of a block, by their places, and the words that they complete. -/
def CompletesAlternative (t : Terrain) (r : Recognizer σ) (α : Type) [Symbolic α] (n : Nat)
    (rule : String) (as : List (Alternative Element)) (i : Nat) (w : List Symbol) : Prop :=
  ∃ a es, as[i]? = some a ∧ Derives (r.analysis.grammar.DerivesIn n) (.sequence a.elements) es ∧
    Event.symbols es = w ∧ ∀ source target, LaysAll r.analysis.grammar source target a.elements →
      Completes t target w (r.sequence (r.rule n) rule a.elements : Recognize α σ Unit)

/-- Words of the rounds of a loop, each of which reads something. -/
inductive Rounds (completed : Nat → List Symbol → Prop) : List Symbol → Prop where
  | nil : Rounds completed []
  | cons {i w v} (hw : w ≠ []) (h : completed i w) (hrest : Rounds completed v) :
    Rounds completed (w ++ v)

section
variable (h : r.Decisive α t) {n : Nat}
include h

theorem Decisive.passable (es : List Event) : Event.Passable t es := by
  intro id _
  rw [Terrain.gateValue, h.predicates]
  exact nofun

/-- A run goes through the rest of a derivation. -/
theorem Decisive.accepts {portion : Portion} {es : List Event}
    (hes : Derives (r.analysis.grammar.DerivesIn n) portion es) {source target : NodeId}
    (hjoins : Joins r.analysis.grammar source target portion) {z : List Symbol}
    (hz : Accepts t target z) : Accepts t source (Event.symbols es ++ z) := by
  have hrun : Run t ⟨source, []⟩ (Event.passages es) ⟨target, []⟩ := hes.run h.network h.wellFormed
    (fun _ _ _ hfs hpassable => hfs.run h.network h.wellFormed hpassable) (h.passable es) hjoins
  have haccepts := hz.of_run hrun
  rwa [Event.symbols_passages] at haccepts

theorem Decisive.accepts_exit {d : DecisionId} {source target : NodeId} {count : Nat}
    (hexit : LaysExit r.analysis.grammar d source target count) {z : List Symbol}
    (hz : Accepts t target z) : Accepts t source z :=
  hz.of_run (run_exit h.network hexit)

/-- The alternative is chosen whose run reads all that is ahead. -/
theorem Decisive.ends_choose {kind : BlockKind} {d : DecisionId} {as : List (Alternative Element)}
    (hmem : .block kind (some d) as ∈ r.analysis.grammar.parts) {i : Nat} {node : NodeId}
    (hnode : ((ofGrammar r.analysis.grammar).entriesOf d)[i]? = some node)
    (haccepts : Accepts t node (p.input.ahead.map Symbolic.symbol)) :
    Ends (r.choose (some d)) p (.ok (i + 1)) p := by
  obtain ⟨automaton, ha, hpredicts⟩ := h.predicts hmem
  obtain ⟨ps, q, hrun, hsymbols, haccepting⟩ := haccepts
  have hlookahead : LookaheadRun t d (i + 1) ps q :=
    ⟨node, Nat.succ_pos i, by rw [h.network]; exact hnode, hrun⟩
  refine (ends_predict ha).mpr ⟨.ok (i + 1), none, p.host,
    hpredicts _ ps q p.input p.host hlookahead haccepting hsymbols, ?_, rfl⟩
  rw [Option.toList_none, List.append_nil]

/-- What is read through the alternative of a decision, and what is left then. -/
theorem Decisive.ends_alternative {kind : BlockKind} {d : DecisionId}
    {as : List (Alternative Element)}
    (hmem : .block kind (some d) as ∈ r.analysis.grammar.parts) {sources : List NodeId}
    {target : NodeId} (hbranches : LaysBranches r.analysis.grammar d sources target as) {rule : String}
    {i : Nat} {w : List Symbol} (hi : CompletesAlternative t r α n rule as i w) {z : List Symbol}
    (hz : Accepts t target z) (hahead : p.input.ahead.map Symbolic.symbol = w ++ z) :
    Ends (r.choose (some d)) p (.ok (i + 1)) p ∧ ∃ a q, as[i]? = some a ∧
      Ends (r.sequence (r.rule n) rule a.elements) p (.ok ()) q ∧ p.input.Reads w q.input := by
  obtain ⟨a, es, ha, hes, rfl, hcompletes⟩ := hi
  obtain ⟨node, hnode, _, hlays⟩ := hbranches i a ha
  refine ⟨h.ends_choose hmem hnode ?_, a, ?_⟩
  · rw [hahead]
    exact h.accepts hes hlays hz
  · obtain ⟨q, hends, hreads⟩ := hcompletes node target hlays z p hz hahead
    exact ⟨q, ha, hends, hreads⟩

/-- From where its rounds end, a run goes through the rest of a loop. -/
theorem Decisive.accepts_rounds {d : DecisionId} {as : List (Alternative Element)}
    {sources : List NodeId}
    {loop target : NodeId} (hbranches : LaysBranches r.analysis.grammar d sources loop as)
    (hexit : LaysExit r.analysis.grammar d loop target as.length) (hloop : loop ∈ sources)
    {rule : String} {w z : List Symbol} (hw : Rounds (CompletesAlternative t r α n rule as) w)
    (hz : Accepts t target z) : Accepts t loop (w ++ z) := by
  induction hw with
  | nil => exact h.accepts_exit hexit hz
  | cons _ hi _ ih =>
    obtain ⟨a, es, ha, hes, rfl, _⟩ := hi
    obtain ⟨node, _, henter, hlays⟩ := hbranches _ a ha
    rw [List.append_assoc]
    exact (h.accepts hes hlays ih).of_run (run_silent h.network (henter loop hloop))

/-- A loop reads its rounds and is left then. -/
theorem Decisive.ends_loop {kind : BlockKind} {d : DecisionId} {as : List (Alternative Element)}
    (hmem : .block kind (some d) as ∈ r.analysis.grammar.parts) {sources : List NodeId}
    {loop target : NodeId} (hbranches : LaysBranches r.analysis.grammar d sources loop as)
    (hexit : LaysExit r.analysis.grammar d loop target as.length) (hloop : loop ∈ sources)
    {rule : String} {w z : List Symbol} (hw : Rounds (CompletesAlternative t r α n rule as) w)
    (hz : Accepts t target z) (hahead : p.input.ahead.map Symbolic.symbol = w ++ z) {fuel : Nat}
    (hfuel : p.input.ahead.length < fuel) :
    ∃ count q, Ends (Recognizer.loop (r.choose (some d))
        (fun alt => r.alternative (r.rule n) rule as (alt - 1)) fuel) p (.ok count) q ∧
      p.input.Reads w q.input ∧ (w ≠ [] → 0 < count) := by
  induction hw generalizing p fuel with
  | nil =>
    cases fuel with
    | zero => exact absurd hfuel (Nat.not_lt_zero _)
    | succ fuel =>
      obtain ⟨node, hnode, _, hleave⟩ := hexit
      have hchoose := h.ends_choose (p := p) hmem hnode (by
        rw [hahead]
        exact hz.of_run (run_silent h.network hleave))
      refine ⟨0, p, ends_bind_ok.mpr ⟨_, p, hchoose, ?_⟩, .refl _, fun hne => absurd rfl hne⟩
      beta_reduce
      rw [alternative_eq, Nat.add_sub_cancel, List.getElem?_eq_none (Nat.le_refl _)]
      exact ends_pure.mpr ⟨rfl, rfl⟩
  | @cons i w v hne hi hrest ih =>
    cases fuel with
    | zero => exact absurd hfuel (Nat.not_lt_zero _)
    | succ fuel =>
      rw [List.append_assoc] at hahead
      obtain ⟨hchoose, a, p₁, ha, hends, hreads⟩ := h.ends_alternative hmem hbranches hi
        (h.accepts_rounds hbranches hexit hloop hrest hz) hahead
      have hahead₁ : p₁.input.ahead.map Symbolic.symbol = v ++ z :=
        List.append_cancel_left (hreads.ahead.symm.trans hahead)
      have hlength := hreads.length_ahead
      have hpos := List.length_pos_iff.mpr hne
      have hshorter : p₁.input.ahead.length < fuel := by omega
      obtain ⟨count, q, hends₁, hreads₁, _⟩ := ih hahead₁ hshorter
      refine ⟨count + 1, q, ends_bind_ok.mpr ⟨_, p, hchoose, ?_⟩, hreads.trans hreads₁,
        fun _ => Nat.succ_pos count⟩
      beta_reduce
      rw [alternative_eq, Nat.add_sub_cancel, ha]
      refine ends_index_bind.mpr (ends_bind_ok.mpr ⟨(), p₁, hends, ends_index_bind.mpr ?_⟩)
      rw [if_neg fun hsame => hne (hreads.index_eq_iff.mp hsame)]
      exact ends_bind_ok.mpr ⟨count, q, hends₁, ends_pure.mpr ⟨rfl, rfl⟩⟩

omit h in
/-- A block that runs at most one alternative runs the one that is chosen. -/
theorem ends_branch {d : Option DecisionId} {as : List (Alternative Element)} {i : Nat}
    {call : RuleId → Recognize α σ Unit} {rule : String}
    (hchoose : Ends (r.choose d) p (.ok (i + 1)) p)
    (hrun : Ends ((as[i]?.map fun a => r.sequence call rule a.elements).getD (pure ()))
      p (.ok ()) q) :
    Ends (do (r.alternative call rule as ((← r.choose d) - 1)).getD (pure ())) p (.ok ()) q := by
  refine ends_bind_ok.mpr ⟨i + 1, p, hchoose, ?_⟩
  rw [alternative_eq, Nat.add_sub_cancel]
  exact hrun

/-- A round that reads nothing ends its loop. -/
theorem Decisive.ends_loop_nil {kind : BlockKind} {d : DecisionId} {as : List (Alternative Element)}
    (hmem : .block kind (some d) as ∈ r.analysis.grammar.parts) {sources : List NodeId}
    {loop target : NodeId} (hbranches : LaysBranches r.analysis.grammar d sources loop as)
    (hexit : LaysExit r.analysis.grammar d loop target as.length) {rule : String} {i : Nat}
    (hi : CompletesAlternative t r α n rule as i []) {z : List Symbol} (hz : Accepts t target z)
    (hahead : p.input.ahead.map Symbolic.symbol = z) {fuel : Nat} (hfuel : 0 < fuel) :
    ∃ q, Ends (Recognizer.loop (r.choose (some d))
        (fun alt => r.alternative (r.rule n) rule as (alt - 1)) fuel) p (.ok 1) q ∧
      p.input.Reads [] q.input := by
  cases fuel with
  | zero => exact absurd hfuel (Nat.lt_irrefl 0)
  | succ fuel =>
    obtain ⟨hchoose, a, q, ha, hends, hreads⟩ :=
      h.ends_alternative hmem hbranches hi (h.accepts_exit hexit hz) hahead
    refine ⟨q, ends_bind_ok.mpr ⟨_, p, hchoose, ?_⟩, hreads⟩
    beta_reduce
    rw [alternative_eq, Nat.add_sub_cancel, ha]
    refine ends_index_bind.mpr (ends_bind_ok.mpr ⟨(), q, hends, ends_index_bind.mpr ?_⟩)
    rw [if_pos (hreads.index_eq_iff.mpr rfl)]
    exact ends_pure.mpr ⟨rfl, rfl⟩

/-! ### Elements -/

/-- After a call, a run goes on from where the called rule stops. -/
theorem Decisive.completes_call {id : RuleId} {source target : NodeId}
    (hlays : Lays r.analysis.grammar source target (.call id)) {w : List Symbol}
    (hrule : Completes t (stop id) w (r.rule n id : Recognize α σ Unit)) :
    Completes t target w (r.rule n id : Recognize α σ Unit) := by
  intro z p hz hahead
  refine hrule z p ?_ hahead
  exact hz.of_run (run_onward h.network h.wellFormed hlays.call)

theorem Decisive.completes_branch {kind : BlockKind} {d : DecisionId}
    {as : List (Alternative Element)}
    (hmem : .block kind (some d) as ∈ r.analysis.grammar.parts) {sources : List NodeId}
    {target : NodeId} (hbranches : LaysBranches r.analysis.grammar d sources target as)
    {rule : String} {i : Nat} {w : List Symbol} (hi : CompletesAlternative t r α n rule as i w) :
    Completes t target w (do
      (r.alternative (r.rule n) rule as ((← r.choose (some d)) - 1)).getD (pure ()) :
        Recognize α σ Unit) := by
  intro z p hz hahead
  obtain ⟨hchoose, a, q, ha, hends, hreads⟩ := h.ends_alternative hmem hbranches hi hz hahead
  refine ⟨q, ends_branch hchoose ?_, hreads⟩
  rw [ha]
  exact hends

section
variable {d : DecisionId} {as : List (Alternative Element)} {source target : NodeId} {rule : String}
  {w : List Symbol}

theorem Decisive.completes_skip
    (hlays : Lays r.analysis.grammar source target (.block .optional (some d) as)) :
    Completes t target []
      (r.element (r.rule n) rule (.block .optional (some d) as) : Recognize α σ Unit) := by
  intro z p hz hahead
  obtain ⟨node, hnode, _, hleave⟩ := (hlays.optional h.wellFormed).2.1
  refine ⟨p, ends_branch (h.ends_choose hlays.mem_parts hnode ?_) ?_, .refl _⟩
  · rw [hahead]
    exact hz.of_run (run_silent h.network hleave)
  · rw [List.getElem?_eq_none (Nat.le_refl _)]
    exact ends_pure.mpr ⟨rfl, rfl⟩

theorem Decisive.completes_star
    (hlays : Lays r.analysis.grammar source target (.block .star (some d) as))
    (hw : Rounds (CompletesAlternative t r α n rule as) w) :
    Completes t target w
      (r.element (r.rule n) rule (.block .star (some d) as) : Recognize α σ Unit) := by
  intro z p hz hahead
  obtain ⟨loop, _, hbranches, hexit, _⟩ := hlays.star h.wellFormed
  obtain ⟨count, q, hends, hreads, _⟩ := h.ends_loop hlays.mem_parts hbranches hexit (.head _) hw
    hz hahead (Nat.lt_succ_self _)
  rw [element]
  exact ⟨q, ends_get_bind.mpr (ends_bind_ok.mpr ⟨count, q, hends, ends_pure.mpr ⟨rfl, rfl⟩⟩),
    hreads⟩

/-- A loop that needs a round has one, though the round may read nothing. -/
theorem Decisive.completes_plus
    (hlays : Lays r.analysis.grammar source target (.block .plus (some d) as))
    (hw : Rounds (CompletesAlternative t r α n rule as) w)
    (hnil : w = [] → ∃ i, CompletesAlternative t r α n rule as i []) :
    Completes t target w
      (r.element (r.rule n) rule (.block .plus (some d) as) : Recognize α σ Unit) := by
  intro z p hz hahead
  obtain ⟨loop, hbranches, hexit, _⟩ := hlays.plus h.wellFormed
  have hcount : ∃ count q, Ends (Recognizer.loop (r.choose (some d))
      (fun alt => r.alternative (r.rule n) rule as (alt - 1)) (p.input.ahead.length + 1)) p
        (.ok count) q ∧ p.input.Reads w q.input ∧ 0 < count := by
    by_cases hnone : w = []
    · obtain ⟨i, hi⟩ := hnil hnone
      rw [hnone] at hahead ⊢
      obtain ⟨q, hends, hreads⟩ := h.ends_loop_nil hlays.mem_parts hbranches hexit hi hz hahead
        (Nat.succ_pos p.input.ahead.length)
      exact ⟨1, q, hends, hreads, Nat.one_pos⟩
    · obtain ⟨count, q, hends, hreads, hpos⟩ := h.ends_loop hlays.mem_parts hbranches hexit
        (.tail _ (.head _)) hw hz hahead (Nat.lt_succ_self _)
      exact ⟨count, q, hends, hreads, hpos hnone⟩
  obtain ⟨count, q, hends, hreads, hpos⟩ := hcount
  rw [element]
  refine ⟨q, ends_get_bind.mpr (ends_bind_ok.mpr ⟨count, q, hends, ?_⟩), hreads⟩
  rw [if_neg (Nat.pos_iff_ne_zero.mp hpos)]
  exact ends_pure.mpr ⟨rfl, rfl⟩

end

/-! ### Derivations -/

/-- What a portion of a rule reads is recognized. Of a loop, its rounds are. -/
def Completed (t : Terrain) (r : Recognizer σ) (α : Type) [Symbolic α] (n : Nat) (rule : String) :
    Portion → List Symbol → Prop
  | .element e, w => ∀ source target, Lays r.analysis.grammar source target e →
    Completes t target w (r.element (r.rule n) rule e : Recognize α σ Unit)
  | .sequence es, w => ∀ source target, LaysAll r.analysis.grammar source target es →
    Completes t target w (r.sequence (r.rule n) rule es : Recognize α σ Unit)
  | .loop _ as rounds, w => Rounds (CompletesAlternative t r α n rule as) w ∧
    (0 < rounds → w = [] → ∃ i, CompletesAlternative t r α n rule as i [])

theorem Decisive.completed (hcall : ∀ id es, r.analysis.grammar.DerivesIn n id es →
      Completes t (stop id) (Event.symbols es) (r.rule n id : Recognize α σ Unit)) {rule : String}
    {portion : Portion} {es : List Event}
    (hes : Derives (r.analysis.grammar.DerivesIn n) portion es) :
    Completed t r α n rule portion (Event.symbols es) := by
  induction hes with
  | @symbols set x hx =>
    intro source target hlays z p hz hahead
    have hplain := h.wellFormed.plain _ hlays.mem_parts
    have hnext : p.input.symbol? 1 = some x := Stream.symbol?_one_eq_some hahead
    exact ⟨_, (ends_symbols hplain).mpr (.inl ⟨x, hnext, hx, rfl, rfl⟩), Stream.reads_consume hnext⟩
  | @call id es hes =>
    intro source target hlays
    exact h.completes_call hlays (hcall id es hes)
  | predicate id =>
    intro source target hlays
    have hlt := h.wellFormed.predicate_lt hlays.mem_parts
    rw [h.grammarPredicates] at hlt
    exact absurd hlt (Nat.not_lt_zero id)
  | action id =>
    intro source target hlays z p hz hahead
    rw [element, action]
    split
    · exact ⟨p, ends_pure.mpr ⟨rfl, rfl⟩, .refl _⟩
    · exact ⟨_, ends_inHost.mpr ⟨rfl, rfl⟩, .refl _⟩
  | @single d as i a es ha hes ih =>
    intro source target hlays
    rw [Event.symbols_append, Event.symbols_chosen, List.nil_append]
    cases d with
    | none =>
      intro z p hz hahead
      obtain ⟨b, rfl⟩ := h.wellFormed.exists_alternative hlays.mem_parts
      obtain ⟨hi, rfl⟩ := List.getElem?_eq_some_iff.mp ha
      obtain rfl := Nat.lt_one_iff.mp hi
      obtain ⟨q, hends, hreads⟩ := ih source target hlays.alternative z p hz hahead
      exact ⟨q, ends_branch (ends_pure.mpr ⟨rfl, rfl⟩) hends, hreads⟩
    | some d =>
      exact h.completes_branch hlays.mem_parts (hlays.single h.wellFormed).1
        ⟨a, es, ha, hes, rfl, ih⟩
  | @optional d as i a es ha hes ih =>
    intro source target hlays
    rw [Event.symbols_append, Event.symbols_chosen, List.nil_append]
    obtain ⟨d, rfl⟩ := h.wellFormed.exists_decision hlays.mem_parts (by decide)
    exact h.completes_branch hlays.mem_parts (hlays.optional h.wellFormed).1
      ⟨a, es, ha, hes, rfl, ih⟩
  | @skip d as =>
    intro source target hlays
    rw [Event.symbols_chosen]
    obtain ⟨d, rfl⟩ := h.wellFormed.exists_decision hlays.mem_parts (by decide)
    exact h.completes_skip hlays
  | @star d as rounds es _ ih =>
    intro source target hlays
    obtain ⟨d, rfl⟩ := h.wellFormed.exists_decision hlays.mem_parts (by decide)
    exact h.completes_star hlays ih.1
  | @plus d as rounds es hrounds _ ih =>
    intro source target hlays
    obtain ⟨d, rfl⟩ := h.wellFormed.exists_decision hlays.mem_parts (by decide)
    exact h.completes_plus hlays ih.1 (ih.2 hrounds)
  | nil =>
    intro source target _ z p hz hahead
    exact ⟨p, ends_pure.mpr ⟨rfl, rfl⟩, .refl _⟩
  | @cons e rest es fs _ hrest ih ih' =>
    intro source target hlays z p hz hahead
    obtain ⟨node, hhead, htail⟩ := hlays.head
    rw [Event.symbols_append, List.append_assoc] at hahead
    obtain ⟨p₁, hends, hreads⟩ := ih source node hhead _ p (h.accepts hrest htail hz) hahead
    have hahead₁ := List.append_cancel_left (hreads.ahead.symm.trans hahead)
    obtain ⟨q, hends₁, hreads₁⟩ := ih' node target htail z p₁ hz hahead₁
    rw [sequence, Event.symbols_append]
    exact ⟨q, ends_bind_ok.mpr ⟨(), p₁, hends, hends₁⟩, hreads.trans hreads₁⟩
  | leave =>
    rw [Event.symbols_chosen]
    exact ⟨.nil, fun hpos => absurd hpos (Nat.lt_irrefl 0)⟩
  | @round d as i a rounds es fs ha hes _ ih ih' =>
    have hi : CompletesAlternative t r α n rule as i (Event.symbols es) := ⟨a, es, ha, hes, rfl, ih⟩
    rw [Event.symbols_append, Event.symbols_append, Event.symbols_chosen, List.nil_append]
    by_cases hnone : Event.symbols es = []
    · rw [hnone] at hi ⊢
      exact ⟨ih'.1, fun _ _ => ⟨i, hi⟩⟩
    · exact ⟨.cons hnone hi ih'.1, fun _ hnil => absurd (List.append_eq_nil_iff.mp hnil).1 hnone⟩
  | @last d as i a es ha hes hnone ih =>
    have hi : CompletesAlternative t r α n rule as i (Event.symbols es) := ⟨a, es, ha, hes, rfl, ih⟩
    rw [Event.symbols_append, Event.symbols_chosen, List.nil_append]
    rw [hnone] at hi ⊢
    exact ⟨.nil, fun _ _ => ⟨i, hi⟩⟩

/-- A rule reads what it derives, where calls may be nested as deeply. -/
theorem Decisive.completes_rule {id : RuleId} {es : List Event}
    (hes : r.analysis.grammar.DerivesIn n id es) :
    Completes t (stop id) (Event.symbols es) (r.rule n id : Recognize α σ Unit) := by
  induction n generalizing id es with
  | zero => exact hes.elim
  | succ n ih =>
    obtain ⟨found, hfound, hes⟩ := hes
    have hcompleted : Completed t r α n found.name (.element found.block.element)
        (Event.symbols es) := h.completed (fun _ _ hfs => ih hfs) hes
    intro z p hz hahead
    rw [rule]
    simp only [hfound]
    exact hcompleted (start id) (stop id) (lays_rule hfound) z p hz hahead

end

/-- An analysis without reports makes a decisive recognizer where there are no predicates. -/
theorem decisive_of_analyze {definition : GrammarDefinition} {a : Analyzer}
    (hgrammar : definition.build = .ok a.grammar) (hpredicates : a.grammar.predicates = [])
    {analysis : Analysis} (hanalysis : a.analyze = (.ok analysis, [])) (host : Host σ) :
    Decisive α ⟨analysis, host⟩ a.terrain := by
  obtain ⟨_, hsame, _⟩ := Analyzer.analyze_eq_ok hanalysis
  have hwf := definition.wellFormed_of_build hgrammar
  refine ⟨hsame ▸ hwf, by rw [hsame]; rfl, hpredicates, hsame ▸ hpredicates,
    fun {kind id as} hmem => ?_⟩
  rw [hsame] at hmem
  obtain ⟨d, hd, _⟩ := hwf.recorded kind id as hmem
  obtain ⟨site, hsite, hautomaton, hreports⟩ := Analyzer.exists_automaton? hanalysis hd
  have hunambiguous : site.ambiguities = [] :=
    List.eq_nil_iff_forall_not_mem.mpr fun x hx => nomatch hreports x hx
  refine ⟨_, hautomaton, fun alt ps q input s hrun haccepting hsymbols => ?_⟩
  rw [← hwf.decision_id hd] at hrun
  exact Construction.predict_eq (Analyzer.sound_terrain hgrammar) hsite hpredicates hunambiguous
    hrun haccepting hsymbols host.test s

/-- The input may end where a parser rule does. -/
theorem accepts_stop {a : Analyzer} (hwf : a.grammar.WellFormed) {rule : Rule}
    (hrule : rule ∈ a.grammar.rules) (hkind : rule.kind = .parser) :
    Accepts a.terrain (stop rule.id) [] := by
  have hlt := (List.getElem?_eq_some_iff.mp (hwf.rule?_id hrule)).1
  refine ⟨[], _, .refl, rfl, rule.id, ?_, stopOf?_eq_some.mpr ⟨hlt, rfl⟩, rfl⟩
  refine List.mem_map_of_mem (List.mem_filter.mpr ⟨hrule, ?_⟩)
  rw [accepts, hkind]

/-- Every word that a parser rule derives is recognized up to its end, if there are neither
predicates nor ambiguities. -/
theorem invoke_complete {definition : GrammarDefinition} {a : Analyzer}
    (hgrammar : definition.build = .ok a.grammar) (hpredicates : a.grammar.predicates = [])
    {analysis : Analysis} (hanalysis : a.analyze = (.ok analysis, [])) {rule : Rule}
    (hrule : rule ∈ a.grammar.rules) (hkind : rule.kind = .parser) {items : List α}
    (hlanguage : a.grammar.Language rule.id (items.map Symbolic.symbol)) (host : Host σ) (s : σ)
    (earlier : List Report) :
    ∃ q, Ends (invoke ⟨analysis, host⟩ rule.name) ⟨.ofList items, s, earlier⟩ (.ok ()) q ∧
      q.input.items = items ∧ q.input.index = items.length := by
  obtain ⟨_, hsame, _⟩ := Analyzer.analyze_eq_ok hanalysis
  have hwf := definition.wellFormed_of_build hgrammar
  have hdecisive : Decisive α ⟨analysis, host⟩ a.terrain :=
    decisive_of_analyze hgrammar hpredicates hanalysis host
  obtain ⟨es, ⟨n, hes⟩, hsymbols⟩ := hlanguage
  have hreads : a.grammar.ReadsIn n rule.id (items.map Symbolic.symbol) := ⟨es, hes, hsymbols⟩
  obtain ⟨fs, hfs, hfsymbols⟩ := hreads.shallow.mono (Nat.le_add_right _ hostDepth)
  rw [List.length_map, ← hsame] at hfs
  obtain ⟨q, hends, hq⟩ := hdecisive.completes_rule hfs [] ⟨.ofList items, s, earlier⟩
    (accepts_stop hwf hrule hkind) (by rw [hfsymbols, List.append_nil]; rfl)
  refine ⟨q, ?_, hq.items, ?_⟩
  · unfold invoke
    simp only [hsame, definition.ruleNamed?_name hgrammar hrule]
    exact ends_get_bind.mpr hends
  · rw [hq.index, hfsymbols, List.length_map]
    exact Nat.zero_add _

/-! ### Brackets -/

/-- Pairs of brackets around any number of pairs. -/
def brackets : GrammarDefinition where
  name := "Brackets"
  kind := .parser
  rules := [⟨"pair", .seq [.ref "OPEN", .repeated .star (.ref "pair"), .ref "CLOSE"], false⟩]
  tokens := []

def bracketsAnalyzer : Analyzer := ⟨brackets.grammar, .standard, none⟩

def pairRule : Rule :=
  ⟨0, "pair", .parser, false, false, none, ⟨.single, none,
    [⟨1, [.symbols ⟨[⟨4, 4⟩]⟩, .block .star (some 0) [⟨1, [.call 0]⟩], .symbols ⟨[⟨5, 5⟩]⟩]⟩]⟩⟩

theorem brackets_builds : brackets.build = .ok bracketsAnalyzer.grammar :=
  GrammarDefinition.build_eq_ok (by decide +kernel)

theorem brackets_rules : bracketsAnalyzer.grammar.rules = [pairRule] := rfl

theorem brackets_analyze : bracketsAnalyzer.analyze = (.ok bracketsAnalyzer.analysis, []) := by
  have hreports : bracketsAnalyzer.analyze.2 = [] := by decide +kernel
  rw [← hreports]
  exact Analyzer.analyze_eq_analysis (by decide +kernel)

/-- A pair around what is derived by the loop inside. -/
theorem brackets_pair {n rounds : Nat} {es : List Event}
    (h : Derives (bracketsAnalyzer.grammar.DerivesIn n) (.loop (some 0) [⟨1, [.call 0]⟩] rounds)
      es) :
    bracketsAnalyzer.grammar.DerivesIn (n + 1) 0 (.symbol 4 :: (es ++ [.symbol 5])) := by
  have hopen : (4 : Symbol) ∈ (⟨[⟨4, 4⟩]⟩ : SymbolSet) :=
    ⟨_, .head _, SymbolRange.mem_iff.mpr (by decide)⟩
  have hclose : (5 : Symbol) ∈ (⟨[⟨5, 5⟩]⟩ : SymbolSet) :=
    ⟨_, .head _, SymbolRange.mem_iff.mpr (by decide)⟩
  refine ⟨pairRule, by rw [Grammar.rule?, brackets_rules]; rfl, ?_⟩
  exact .single (i := 0) rfl (.cons (.symbols hopen) (.cons (.star h) (.cons (.symbols hclose) .nil)))

/-- A pair inside a pair is recognized. -/
theorem invoke_complete_brackets :
    bracketsAnalyzer.grammar.Language 0 [4, 4, 5, 5] ∧
    ∃ q, Ends (invoke ⟨bracketsAnalyzer.analysis, ⟨fun _ => pure true, fun _ => pure ()⟩⟩ "pair")
        ⟨.ofList ([4, 4, 5, 5].map Token.ofType), (), []⟩ (.ok ()) q ∧ q.input.index = 4 := by
  have hlanguage : bracketsAnalyzer.grammar.Language 0 [4, 4, 5, 5] :=
    ⟨_, ⟨2, brackets_pair (.round (i := 0) rfl (.cons (.call (brackets_pair .leave)) .nil) .leave)⟩, rfl⟩
  have hrule : pairRule ∈ bracketsAnalyzer.grammar.rules := by
    rw [brackets_rules]
    exact .head _
  have hitems : bracketsAnalyzer.grammar.Language 0
      (([4, 4, 5, 5].map Token.ofType).map Symbolic.symbol) := hlanguage
  obtain ⟨q, hends, _, hindex⟩ := invoke_complete brackets_builds rfl brackets_analyze hrule rfl
    hitems ⟨fun _ => pure true, fun _ => pure ()⟩ () []
  exact ⟨hlanguage, q, hends, hindex⟩

end Recognizer
end Lookahead
