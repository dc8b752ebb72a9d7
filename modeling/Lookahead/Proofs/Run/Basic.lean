import Lookahead.Analysis.Closure
import Lookahead.Proofs.Network.OfGrammar

/-! Lookahead runs: the ways through the network of a grammar on which input may be read.

A run starts at an entry of a decision with nothing to return to. It keeps the nodes to
return to on a stack without any bound. Where a rule stops and the stack is empty, it goes
on wherever the rule is called. It passes symbols and predicates, in order; a gate whose
value is known to be false blocks it. -/
namespace Lookahead

/-- Where a run has come: a node, and the nodes to return to, innermost first. -/
structure Position where
  node : NodeId
  stack : List NodeId
  deriving DecidableEq

/-- What a run passes. -/
inductive Passage where
  | symbol (x : Symbol)
  | predicate (id : PredicateId)
  deriving DecidableEq

namespace Passage

def symbol? : Passage → Option Symbol
  | symbol x => some x
  | predicate _ => none

/-- The symbols that are passed. -/
def symbols (ps : List Passage) : List Symbol := ps.filterMap symbol?

/-- The predicates that are passed before the first symbol. -/
def leading : List Passage → List PredicateId
  | predicate id :: ps => id :: leading ps
  | _ => []

@[simp] theorem symbols_nil : symbols [] = [] := rfl

@[simp] theorem symbols_append (ps qs : List Passage) :
    symbols (ps ++ qs) = symbols ps ++ symbols qs := by
  simp [symbols]

@[simp] theorem symbols_symbol (x : Symbol) : symbols [symbol x] = [x] := rfl

@[simp] theorem symbols_predicate (id : PredicateId) : symbols [predicate id] = [] := rfl

theorem leading_append_of_symbols_eq_nil {ps : List Passage} (h : symbols ps = [])
    (qs : List Passage) : leading (ps ++ qs) = leading ps ++ leading qs := by
  induction ps with
  | nil => rfl
  | cons p ps ih =>
    cases p with
    | symbol x => exact nomatch h
    | predicate id =>
      show id :: leading (ps ++ qs) = id :: leading ps ++ leading qs
      rw [ih h]
      rfl

/-- What comes after a symbol is not leading. -/
theorem leading_append_of_symbols_ne_nil {ps : List Passage} (h : symbols ps ≠ [])
    (qs : List Passage) : leading (ps ++ qs) = leading ps := by
  induction ps with
  | nil => exact absurd rfl h
  | cons p ps ih =>
    cases p with
    | symbol x => rfl
    | predicate id => exact congrArg (id :: ·) (ih h)

theorem mem_of_mem_leading {id : PredicateId} {ps : List Passage} (h : id ∈ leading ps) :
    predicate id ∈ ps := by
  induction ps with
  | nil => exact nomatch h
  | cons p ps ih =>
    cases p with
    | symbol x => exact nomatch h
    | predicate id' =>
      rcases List.mem_cons.mp h with rfl | h
      · exact .head _
      · exact .tail _ (ih h)

theorem leading_append_symbol (ps : List Passage) (x : Symbol) (qs : List Passage) :
    leading (ps ++ symbol x :: qs) = leading ps := by
  by_cases h : symbols ps = []
  · rw [leading_append_of_symbols_eq_nil h]
    exact List.append_nil _
  · exact leading_append_of_symbols_ne_nil h _

end Passage

/-- One step of a run and what it passes. -/
inductive Move (t : Terrain) : Position → List Passage → Position → Prop where
  | silent {node target stack} (he : .silent target ∈ t.network.edgesOf node) :
    Move t ⟨node, stack⟩ [] ⟨target, stack⟩
  | action {node target stack} (he : .action target ∈ t.network.edgesOf node) :
    Move t ⟨node, stack⟩ [] ⟨target, stack⟩
  | symbol {node set target stack x} (he : .symbols set target ∈ t.network.edgesOf node)
    (hx : x ∈ set) : Move t ⟨node, stack⟩ [.symbol x] ⟨target, stack⟩
  | predicate {node id target stack} (he : .predicate id target ∈ t.network.edgesOf node)
    (hopen : t.gateValue id ≠ some false) :
    Move t ⟨node, stack⟩ [.predicate id] ⟨target, stack⟩
  | call {node rule follow stack} (he : .call rule follow ∈ t.network.edgesOf node) :
    Move t ⟨node, stack⟩ [] ⟨Network.start rule, follow :: stack⟩
  | back {node rule follow stack} (hstop : t.network.stopOf? node = some rule) :
    Move t ⟨node, follow :: stack⟩ [] ⟨follow, stack⟩
  | onward {node rule follow} (hstop : t.network.stopOf? node = some rule)
    (hf : follow ∈ t.network.followsOf rule) : Move t ⟨node, []⟩ [] ⟨follow, []⟩

/-- Any number of steps and what they pass. -/
inductive Run (t : Terrain) (p : Position) : List Passage → Position → Prop where
  | refl : Run t p [] p
  | tail {ps q qs r} (run : Run t p ps q) (move : Move t q qs r) : Run t p (ps ++ qs) r

namespace Run
variable {t : Terrain} {p q r : Position} {ps qs : List Passage}

theorem single (h : Move t p ps q) : Run t p ps q := Run.tail .refl h

theorem trans (h : Run t p ps q) (h' : Run t q qs r) : Run t p (ps ++ qs) r := by
  induction h' with
  | refl => rwa [List.append_nil]
  | tail _ move ih =>
    rw [← List.append_assoc]
    exact ih.tail move

/-- A run that has passed a symbol last reads it in one step and passes no further one. -/
theorem exists_last_symbol {w : List Symbol} {x : Symbol} (h : Run t p ps r)
    (hw : Passage.symbols ps = w ++ [x]) :
    ∃ before q q' after, Run t p before q ∧ Passage.symbols before = w ∧
      Move t q [.symbol x] q' ∧ Run t q' after r ∧ Passage.symbols after = [] ∧
      ps = before ++ .symbol x :: after := by
  induction h with
  | refl => exact absurd hw (by simp)
  | @tail ps q qs r run move ih =>
    rw [Passage.symbols_append] at hw
    have hsilent (hqs : Passage.symbols qs = []) : ∃ before q₁ q₂ after, Run t p before q₁ ∧
        Passage.symbols before = w ∧ Move t q₁ [.symbol x] q₂ ∧ Run t q₂ after r ∧
        Passage.symbols after = [] ∧ ps ++ qs = before ++ .symbol x :: after := by
      rw [hqs, List.append_nil] at hw
      obtain ⟨before, q₁, q₂, after, hbefore, hw', hmove, hafter, hnil, rfl⟩ := ih hw
      refine ⟨before, q₁, q₂, after ++ qs, hbefore, hw', hmove, hafter.tail move, ?_, ?_⟩
      · rw [Passage.symbols_append, hnil, hqs]
        rfl
      · rw [List.append_assoc]
        rfl
    cases move with
    | symbol he hx =>
      obtain ⟨hw', hxy⟩ := List.append_inj' hw rfl
      obtain rfl := List.singleton_inj.mp hxy
      exact ⟨ps, _, _, [], run, hw', .symbol he hx, .refl, rfl, rfl⟩
    | _ => exact hsilent rfl

/-- A run may be divided wherever its word is. -/
theorem exists_split {u v : List Symbol} (h : Run t p ps r) (hw : Passage.symbols ps = u ++ v) :
    ∃ q before after, Run t p before q ∧ Run t q after r ∧ Passage.symbols before = u ∧
      Passage.symbols after = v := by
  induction h generalizing v with
  | refl =>
    obtain ⟨rfl, rfl⟩ := List.append_eq_nil_iff.mp hw.symm
    exact ⟨p, [], [], .refl, .refl, rfl, rfl⟩
  | @tail ps q qs r run move ih =>
    rw [Passage.symbols_append] at hw
    have hbefore (v' : List Symbol) (hps : Passage.symbols ps = u ++ v')
        (hv : v = v' ++ Passage.symbols qs) :
        ∃ q before after, Run t p before q ∧ Run t q after r ∧ Passage.symbols before = u ∧
          Passage.symbols after = v := by
      obtain ⟨m, before, after, hrun, hrun', hu, hv'⟩ := ih hps
      exact ⟨m, before, after ++ qs, hrun, hrun'.tail move, hu,
        by rw [Passage.symbols_append, hv', hv]⟩
    cases move with
    | @symbol node set target stack x he hx =>
      rcases List.eq_nil_or_concat v with rfl | ⟨v', y, rfl⟩
      · exact ⟨_, ps ++ [.symbol x], [], run.tail (.symbol he hx), .refl,
          by rw [Passage.symbols_append, hw, List.append_nil], rfl⟩
      · rw [List.concat_eq_append, ← List.append_assoc] at hw
        obtain ⟨hps, hxy⟩ := List.append_inj' hw rfl
        exact hbefore v' hps (by rw [List.concat_eq_append, ← hxy])
    | _ => exact hbefore v (by rw [← hw]; exact (List.append_nil _).symm) (List.append_nil _).symm

/-- A predicate is passed along an edge of the network, and unless it is known to be false. -/
theorem exists_edge_of_predicate (h : Run t p ps q) {id : PredicateId}
    (hid : .predicate id ∈ ps) :
    (∃ node target, .predicate id target ∈ t.network.edgesOf node) ∧
      t.gateValue id ≠ some false := by
  induction h with
  | refl => exact nomatch hid
  | tail _ move ih =>
    rcases List.mem_append.mp hid with hid | hid
    · exact ih hid
    · cases move with
      | predicate he hopen =>
        obtain rfl := Passage.predicate.inj (List.mem_singleton.mp hid)
        exact ⟨⟨_, _, he⟩, hopen⟩
      | symbol => exact nomatch List.mem_singleton.mp hid
      | _ => exact nomatch hid

/-- A run passes only predicates of its network. -/
theorem predicate_lt {count : Nat} (closed : t.network.Closed count) (h : Run t p ps q)
    {id : PredicateId} (hid : .predicate id ∈ ps) : id < count := by
  obtain ⟨⟨_, _, he⟩, _⟩ := h.exists_edge_of_predicate hid
  exact closed.predicate _ _ _ he

end Run

/-- The input may end at a position. -/
def Position.Accepting (t : Terrain) (p : Position) : Prop :=
  ∃ rule ∈ t.network.accepting, t.network.stopOf? p.node = some rule ∧ p.stack = []

/-- The input can be read on from a position, or it may end there. -/
def Position.Live (t : Terrain) (p : Position) : Prop :=
  t.network.matchesInput p.node = true ∨ p.Accepting t

/-- An alternative of a decision has a run that passes `ps` and comes to `p`. -/
def LookaheadRun (t : Terrain) (d : DecisionId) (alt : Ordinal) (ps : List Passage)
    (p : Position) : Prop :=
  ∃ entry, 0 < alt ∧ (t.network.entriesOf d)[alt - 1]? = some entry ∧ Run t ⟨entry, []⟩ ps p

/-- A live run from the position reads the word. -/
def ReadsFrom (t : Terrain) (p : Position) (w : List Symbol) : Prop :=
  ∃ ps q, Run t p ps q ∧ q.Live t ∧ Passage.symbols ps = w

theorem ReadsFrom.of_run {t : Terrain} {p q : Position} {ps : List Passage} {w : List Symbol}
    (h : ReadsFrom t q w) (hrun : Run t p ps q) : ReadsFrom t p (Passage.symbols ps ++ w) := by
  obtain ⟨qs, r, hqs, hlive, rfl⟩ := h
  exact ⟨ps ++ qs, r, hrun.trans hqs, hlive, Passage.symbols_append ps qs⟩

/-- Every predicate that counts is true, among those passed before the first symbol. A gate
whose value is known beforehand does not count. -/
def Passage.Open (t : Terrain) (counts : PredicateId → Bool) (v : PredicateId → Bool)
    (ps : List Passage) : Prop :=
  ∀ id ∈ leading ps, t.gateValue id = none → counts id = true → v id = true

namespace Position

/-- The nodes of a position are nodes of the network. -/
def Inside (n : Network) (p : Position) : Prop := p.node < n.size ∧ ∀ m ∈ p.stack, m < n.size

theorem Inside.move {t : Terrain} {count : Nat} (closed : t.network.Closed count)
    {p q : Position} {ps : List Passage} (hp : p.Inside t.network) (h : Move t p ps q) :
    q.Inside t.network := by
  cases h with
  | silent he | action he | symbol he _ | predicate he _ => exact ⟨closed.target _ _ he, hp.2⟩
  | call he =>
    have hrule := closed.call _ _ _ he
    have hsize := closed.rules_le
    refine ⟨by simp only [Network.start]; lia, fun m hm => ?_⟩
    rcases List.mem_cons.mp hm with rfl | hm
    · exact closed.target _ _ he
    · exact hp.2 m hm
  | back _ => exact ⟨hp.2 _ (.head _), fun m hm => hp.2 m (.tail _ hm)⟩
  | onward _ hf => exact ⟨closed.follow _ _ hf, fun m hm => absurd hm List.not_mem_nil⟩

theorem Inside.run {t : Terrain} {count : Nat} (closed : t.network.Closed count)
    {p q : Position} {ps : List Passage} (hp : p.Inside t.network) (h : Run t p ps q) :
    q.Inside t.network := by
  induction h with
  | refl => exact hp
  | tail _ move ih => exact ih.move closed move

end Position

theorem move_symbol_iff {t : Terrain} {p q : Position} {x : Symbol} :
    Move t p [.symbol x] q ↔ ∃ set target, .symbols set target ∈ t.network.edgesOf p.node ∧
      x ∈ set ∧ q = ⟨target, p.stack⟩ := by
  constructor
  · rintro (_ | _ | ⟨he, hx⟩)
    exact ⟨_, _, he, hx, rfl⟩
  · rintro ⟨set, target, he, hx, rfl⟩
    exact .symbol he hx

/-- Where a symbol can be read next, the position is live. -/
theorem Position.live_of_move_symbol {t : Terrain} {p q : Position} {x : Symbol}
    (h : Move t p [.symbol x] q) : p.Live t := by
  obtain ⟨set, target, he, _, _⟩ := move_symbol_iff.mp h
  exact .inl (List.any_eq_true.mpr ⟨_, he, rfl⟩)

/-- A run that reads one more symbol is a run that reads it last and goes on silently. What
is said of the leading predicates holds of both. -/
theorem exists_lookaheadRun_snoc_iff {t : Terrain} {d : DecisionId} {alt : Ordinal}
    {w : List Symbol} {x : Symbol} {p : Position} {P : List PredicateId → Prop} :
    (∃ ps, LookaheadRun t d alt ps p ∧ Passage.symbols ps = w ++ [x] ∧ P (Passage.leading ps)) ↔
      ∃ q q', (∃ ps, LookaheadRun t d alt ps q ∧ Passage.symbols ps = w ∧
        P (Passage.leading ps)) ∧ Move t q [.symbol x] q' ∧
        ∃ qs, Run t q' qs p ∧ Passage.symbols qs = [] := by
  constructor
  · rintro ⟨ps, ⟨entry, hpos, hentry, hrun⟩, hsymbols, hP⟩
    obtain ⟨before, q, q', after, hbefore, hw, hmove, hafter, hnil, rfl⟩ :=
      hrun.exists_last_symbol hsymbols
    rw [Passage.leading_append_symbol] at hP
    exact ⟨q, q', ⟨before, ⟨entry, hpos, hentry, hbefore⟩, hw, hP⟩, hmove, after, hafter, hnil⟩
  · rintro ⟨q, q', ⟨ps, ⟨entry, hpos, hentry, hrun⟩, hsymbols, hP⟩, hmove, qs, hrun', hnil⟩
    refine ⟨ps ++ .symbol x :: qs, ⟨entry, hpos, hentry, ?_⟩, ?_, ?_⟩
    · exact hrun.trans ((Run.single hmove).trans hrun')
    · rw [Passage.symbols_append, hsymbols, ← List.singleton_append, Passage.symbols_append, hnil]
      rfl
    · rwa [Passage.leading_append_symbol]

/-- Where a live run reads more, a live run reads what comes first and goes on from there. -/
theorem LookaheadRun.exists_cut {t : Terrain} {d : DecisionId} {alt : Ordinal}
    {ps : List Passage} {p : Position} (h : LookaheadRun t d alt ps p) (hlive : p.Live t)
    {u v : List Symbol} (hw : Passage.symbols ps = u ++ v) :
    ∃ qs q rs, LookaheadRun t d alt qs q ∧ Passage.symbols qs = u ∧ q.Live t ∧
      Run t q rs p ∧ Passage.symbols rs = v ∧ (v ≠ [] → t.network.matchesInput q.node = true) := by
  cases v with
  | nil => exact ⟨ps, p, [], h, by rw [hw, List.append_nil], hlive, .refl, rfl, fun hne => absurd rfl hne⟩
  | cons x v =>
    obtain ⟨entry, hpos, hentry, hrun⟩ := h
    rw [← List.singleton_append, ← List.append_assoc] at hw
    obtain ⟨m, before, after, hbefore, hafter, hsymbols, hv⟩ := hrun.exists_split hw
    obtain ⟨q, q', ⟨qs, hqs, hu, _⟩, hmove, rs, hrs, hnil⟩ :=
      (exists_lookaheadRun_snoc_iff (P := fun _ => True)).mp
        ⟨before, ⟨entry, hpos, hentry, hbefore⟩, hsymbols, trivial⟩
    obtain ⟨set, target, he, _, _⟩ := move_symbol_iff.mp hmove
    refine ⟨qs, q, _, hqs, hu, Position.live_of_move_symbol hmove,
      (Run.single hmove).trans (hrs.trans hafter), ?_, fun _ => List.any_eq_true.mpr ⟨_, he, rfl⟩⟩
    rw [Passage.symbols_append, Passage.symbols_append, hnil, hv]
    rfl

/-- Where a live run reads more, what it reads first is read by a live run. -/
theorem LookaheadRun.exists_prefix {t : Terrain} {d : DecisionId} {alt : Ordinal}
    {ps : List Passage} {p : Position} (h : LookaheadRun t d alt ps p) (hlive : p.Live t)
    {u v : List Symbol} (hw : Passage.symbols ps = u ++ v) :
    ∃ qs q, LookaheadRun t d alt qs q ∧ Passage.symbols qs = u ∧ q.Live t := by
  obtain ⟨qs, q, _, hrun, hsymbols, hq, _⟩ := h.exists_cut hlive hw
  exact ⟨qs, q, hrun, hsymbols, hq⟩

theorem LookaheadRun.inside {t : Terrain} {count : Nat} (closed : t.network.Closed count)
    {d : DecisionId} {alt : Ordinal} {ps : List Passage} {p : Position}
    (h : LookaheadRun t d alt ps p) : p.Inside t.network := by
  obtain ⟨entry, _, hentry, hrun⟩ := h
  have hinside : (⟨entry, []⟩ : Position).Inside t.network :=
    ⟨closed.entry d entry (List.mem_of_getElem? hentry), nofun⟩
  exact hinside.run closed hrun

end Lookahead
