import Lookahead.Proofs.Grammar.Definition
import Lookahead.Proofs.Grammar.Items

/-! What rule bodies mean, and that lowering keeps it.

The traces of a body are told from the body alone: a sequence is a product, a choice a sum, and
names and literals stand for what the finished grammar says. Lowering makes elements with the
same traces, unless it notes an error (`yields_lower`). So the rules of a built grammar have
the traces of the bodies that were written. -/
namespace Lookahead
open scoped Computability

/-- What names and literals stand for in the bodies of rules of a kind. -/
structure Sense where
  kind : RuleKind
  tokens : TokenTable
  /-- The traces of the rules, by their names. -/
  calls : String → Traces

/-- The trace with certain items. -/
def exactly (items : List Item) : Traces := {is | is = items}

/-- One symbol of some. -/
def oneOf (P : Symbol → Prop) : Traces := {is | ∃ x, P x ∧ is = [.symbol x]}

/-- One token of the type of a name or a quoted literal. -/
def TokenTable.traces (t : TokenTable) (name : String) : Traces :=
  oneOf fun x => ∃ type, t.type? name = some type ∧ x = .ofTokenType type

mutual
/-- The traces of a body. -/
def Expr.traces (s : Sense) : Expr → Traces
  | .seq items => Expr.tracesOfSeq s items
  | .choice [] => 1
  | .choice (e :: es) => e.traces s + Expr.tracesOfEach s es
  | .repeated .optional body => 1 + body.traces s
  | .repeated .star body => (body.traces s)∗
  | .repeated .plus body => body.traces s * (body.traces s)∗
  | .empty => 1
  | .any =>
    match s.kind with
    | .lexer => oneOf (· ≤ Symbol.maxChar)
    | .parser => oneOf (· ∈ Grammar.anyToken s.tokens)
  | .range a b => oneOf fun x => Symbol.ofChar a ≤ x ∧ x ≤ Symbol.ofChar b ∨
      Symbol.ofChar b ≤ x ∧ x ≤ Symbol.ofChar a
  | .literal text =>
    match s.kind with
    | .lexer => exactly (text.toList.map fun c => .symbol (.ofChar c))
    | .parser => s.tokens.traces (Grammar.quote text)
  | .ref name =>
    if s.kind = .parser ∧ RuleKind.ofName name = .lexer then s.tokens.traces name
    else s.calls name
  | .predicate text mode location => exactly [.predicate text mode location]
  | .action text => exactly [.action text]

def Expr.tracesOfSeq (s : Sense) : List Expr → Traces
  | [] => 1
  | e :: es => e.traces s * Expr.tracesOfSeq s es

def Expr.tracesOfEach (s : Sense) : List Expr → Traces
  | [] => 0
  | e :: es => e.traces s + Expr.tracesOfEach s es
end

namespace GrammarDefinition

/-- The traces of the accepted rule with a name, with calls nested less than `n` times. -/
def tracesIn (d : GrammarDefinition) (tokens : TokenTable) : Nat → String → Traces
  | 0, _ => 0
  | n + 1, name => {is | ∃ r ∈ d.accepted.1, r.name = name ∧
      is ∈ r.body.traces ⟨.ofName r.name, tokens, d.tracesIn tokens n⟩}

/-- The traces of the accepted rule with a name. -/
def tracesOf (d : GrammarDefinition) (tokens : TokenTable) (name : String) : Traces :=
  {is | ∃ n, is ∈ d.tracesIn tokens n name}

end GrammarDefinition

/-! ### Symbols -/

theorem Symbol.mem_anyChar {x : Symbol} : x ∈ Grammar.anyChar ↔ x ≤ Symbol.maxChar := by
  rw [Grammar.anyChar, SymbolSet.mem_range]
  simp only [UInt32.le_iff_toNat_le, UInt32.toNat_zero]
  lia

section
variable {g : Grammar} {calls : RuleId → List Event → Prop}

theorem Grammar.traces_symbols {set : SymbolSet} {P : Symbol → Prop} (h : ∀ x, x ∈ set ↔ P x) :
    g.traces calls (.sequence [.symbols set]) = oneOf P := by
  ext is
  rw [traces_singleton, mem_traces_symbols]
  exact exists_congr fun x => and_congr_left fun _ => h x

theorem Grammar.traces_token {tokens : TokenTable} {name : String} {type : TokenType}
    (h : tokens.type? name = some type) :
    g.traces calls (.sequence [.symbols (.single (.ofTokenType type))]) = tokens.traces name :=
  traces_symbols fun x => by simp [SymbolSet.mem_single, h]

theorem Grammar.traces_chars (cs : List Char) :
    g.traces calls (.sequence (cs.map fun c => .symbols (.single (.ofChar c)))) =
      exactly (cs.map fun c => .symbol (.ofChar c)) := by
  induction cs with
  | nil => exact traces_nil
  | cons c cs ih =>
    rw [List.map_cons, traces_cons, ih]
    ext is
    rw [Language.mem_mul]
    constructor
    · rintro ⟨_, hc, _, rfl, rfl⟩
      obtain ⟨x, hx, rfl⟩ := mem_traces_symbols.mp hc
      rw [SymbolSet.mem_single.mp hx]
      rfl
    · rintro rfl
      exact ⟨_, mem_traces_symbols.mpr ⟨_, SymbolSet.mem_single.mpr rfl, rfl⟩, _, rfl, rfl⟩

end

/-! ### Drafts that end in the grammar -/

namespace Grammar

/-- The lists of a draft only grow. -/
structure Draft.Grows (d d' : Draft) : Prop where
  predicates : d.predicates <+: d'.predicates
  actions : d.actions <+: d'.actions
  errors : d.errors <+: d'.errors

theorem Draft.Grows.refl (d : Draft) : d.Grows d :=
  ⟨List.prefix_refl _, List.prefix_refl _, List.prefix_refl _⟩

theorem Draft.Grows.trans {d d' d'' : Draft} (h : d.Grows d') (h' : d'.Grows d'') : d.Grows d'' :=
  ⟨h.predicates.trans h'.predicates, h.actions.trans h'.actions, h.errors.trans h'.errors⟩

/-- A draft without errors whose lists are beginnings of those of the grammar. -/
structure Keeps (g : Grammar) (d : Draft) : Prop where
  predicates : d.predicates <+: g.predicates
  actions : d.actions <+: g.actions
  errors : d.errors = []

theorem Keeps.of_grows {g : Grammar} {d d' : Draft} (h : g.Keeps d') (hgrows : d.Grows d') :
    g.Keeps d :=
  ⟨hgrows.predicates.trans h.predicates, hgrows.actions.trans h.actions,
    List.prefix_nil.mp (h.errors ▸ hgrows.errors)⟩

/-- What a list ends with stands there in each longer one. -/
theorem getElem?_of_snoc_prefix {α : Type} {xs ys : List α} {x : α} (h : xs ++ [x] <+: ys) :
    ys[xs.length]? = some x := by
  obtain ⟨rest, rfl⟩ := h
  rw [List.append_assoc, List.getElem?_append_right (Nat.le_refl _), Nat.sub_self]
  rfl

/-- Where a step leads to a draft of the grammar, its result is as it should be. -/
def Yields {α : Type} (g : Grammar) (m : StateM Draft α) (P : α → Prop) : Prop :=
  ∀ d, d.Grows (m.run d).2 ∧ (g.Keeps (m.run d).2 → P (m.run d).1)

section
variable {g : Grammar} {α β : Type} {P : α → Prop} {Q : β → Prop}

theorem Yields.pure {a : α} (h : P a) : g.Yields (pure a) P := fun d => ⟨.refl d, fun _ => h⟩

theorem Yields.bind {m : StateM Draft α} {f : α → StateM Draft β} (hm : g.Yields m P)
    (hf : ∀ a, g.Yields (f a) fun b => P a → Q b) : g.Yields (m >>= f) Q := by
  intro d
  obtain ⟨hgrows, hP⟩ := hm d
  obtain ⟨hgrows', hQ⟩ := hf (m.run d).1 (m.run d).2
  rw [run_bind]
  exact ⟨hgrows.trans hgrows', fun hkeeps => hQ hkeeps (hP (hkeeps.of_grows hgrows'))⟩

/-- No grammar comes out of a draft with an error. -/
theorem Yields.note (e : GrammarError) {P : Unit → Prop} : g.Yields (Draft.note e) P := by
  intro d
  refine ⟨⟨List.prefix_refl _, List.prefix_refl _, List.prefix_append _ _⟩, fun hkeeps => ?_⟩
  exact absurd hkeeps.errors (List.append_ne_nil_of_right_ne_nil _ (List.cons_ne_nil _ _))

theorem Yields.error (e : GrammarError) {a : α} :
    g.Yields (do Draft.note e; return a) P :=
  (note e (P := fun _ => False)).bind fun _ => .pure (P := fun b => False → P b) False.elim

theorem Yields.predicate (ruleName text : String) (mode : PredicateMode)
    (location : Option SourceLocation) :
    g.Yields (Draft.predicate ruleName text mode location) fun id => ∃ p, g.predicates[id]? = some p ∧
      p.text = text ∧ p.mode = mode ∧ p.location = location := by
  intro d
  refine ⟨⟨List.prefix_append _ _, List.prefix_refl _, List.prefix_refl _⟩, fun hkeeps => ?_⟩
  exact ⟨_, getElem?_of_snoc_prefix hkeeps.predicates, rfl, rfl, rfl⟩

theorem Yields.action (ruleName text : String) :
    g.Yields (Draft.action ruleName text) fun id => ∃ a, g.actions[id]? = some a ∧ a.text = text := by
  intro d
  refine ⟨⟨List.prefix_refl _, List.prefix_append _ _, List.prefix_refl _⟩, fun hkeeps => ?_⟩
  exact ⟨_, getElem?_of_snoc_prefix hkeeps.actions, rfl⟩

theorem Yields.openDecision (s : Scope) (kind : BlockKind) (count : Nat) :
    g.Yields (openDecision s kind count) fun _ => True := by
  intro d
  have hdecision (kind : DecisionKind) (altCount : Nat) :
      d.Grows ((Draft.decision s.rule kind altCount).run d).2 :=
    ⟨List.prefix_refl _, List.prefix_refl _, List.prefix_refl _⟩
  refine ⟨?_, fun _ => trivial⟩
  cases kind with
  | single =>
    simp only [Grammar.openDecision]
    split
    · exact hdecision .block count
    · exact .refl d
  | optional => exact hdecision .optional (count + 1)
  | star => exact hdecision .star (count + 1)
  | plus => exact hdecision .plus (count + 1)

end
/-! ### Lowering -/

section
variable {g : Grammar} {calls : RuleId → List Event → Prop} {names : String → Traces}

/-- Each name stands for the traces of the rule at its place. -/
def Names (g : Grammar) (calls : RuleId → List Event → Prop) (names : String → Traces)
    (ruleNames : List String) : Prop :=
  ∀ name id, ruleNames.findIdx? (· == name) = some id →
    g.traces calls (.element (.call id)) = names name

/-- What the names and literals of a scope stand for. -/
def Scope.sense (s : Scope) (names : String → Traces) : Sense := ⟨s.ruleKind, s.tokens, names⟩

/-- The step makes a sequence with these traces. -/
def YieldsTraces (g : Grammar) (calls : RuleId → List Event → Prop)
    (m : StateM Draft (List Element)) (traces : Traces) : Prop :=
  g.Yields m fun es => g.traces calls (.sequence es) = traces

/-- The step makes alternatives with these traces. -/
def YieldsAlternatives (g : Grammar) (calls : RuleId → List Event → Prop)
    (m : StateM Draft (List (List Element))) (traces : Traces) : Prop :=
  g.Yields m fun sequences =>
    g.tracesOfAlternatives calls (Alternative.numbered sequences) = traces

variable {s : Scope}

theorem yields_literal (text : String) :
    g.YieldsTraces calls (lowerLiteral s text) ((Expr.literal text).traces (s.sense names)) := by
  unfold lowerLiteral
  rw [Expr.traces, Scope.sense]
  cases s.ruleKind with
  | lexer => exact .pure (traces_chars _)
  | parser =>
    simp only
    split
    · next type htype =>
      split
      · exact .pure (traces_token htype)
      · exact .error _
    · exact .error _

theorem yields_ref (hnames : g.Names calls names s.ruleNames) (name : String) :
    g.YieldsTraces calls (lowerRef s name) ((Expr.ref name).traces (s.sense names)) := by
  unfold lowerRef
  rw [Expr.traces, Scope.sense]
  simp only
  split
  · split
    · next type htype => exact .pure (traces_token htype)
    · exact .error _
  · split
    · next id hid =>
      split
      · exact .error _
      · exact .pure ((traces_singleton _).trans (hnames name id hid))
    · exact .error _

/-- What a decision opens and then lists. -/
theorem yields_block {kind : BlockKind} {count : Nat} {m : StateM Draft (List (List Element))}
    {T T' : Traces} (hm : g.YieldsAlternatives calls m T)
    (hkind : ∀ d as, g.tracesOfAlternatives calls as = T →
      g.traces calls (.element (.block kind d as)) = T') :
    g.YieldsTraces calls (do
      let decision ← openDecision s kind count
      let alternatives ← m
      return [.block kind decision (Alternative.numbered alternatives)]) T' :=
  (Yields.openDecision s kind count).bind fun d => (hm.bind fun _ => .pure fun has _ =>
    (traces_singleton _).trans (hkind d _ has))

theorem traces_repeated {times : Repeat} {d : Option DecisionId} {as : List (Alternative Element)}
    {body : Expr} {sense : Sense} (h : g.tracesOfAlternatives calls as = body.traces sense) :
    g.traces calls (.element (.block times.blockKind d as)) =
      (Expr.repeated times body).traces sense := by
  cases times with
  | optional => rw [Expr.traces, ← h]; exact traces_optional
  | star => rw [Expr.traces, ← h]; exact traces_star
  | plus => rw [Expr.traces, ← h]; exact traces_plus

theorem tracesOfAlternatives_nil :
    g.tracesOfAlternatives calls (Alternative.numbered []) = 0 := rfl

/-- The numbers of alternatives leave no trace. -/
theorem tracesOfAlternatives_numbered (sequences : List (List Element)) :
    g.tracesOfAlternatives calls (Alternative.numbered sequences) =
      (sequences.map fun es => g.traces calls (.sequence es)).sum := by
  conv_rhs => rw [← Alternative.map_elements_numbered sequences, List.map_map]
  rfl

theorem tracesOfAlternatives_cons (es : List Element) (sequences : List (List Element)) :
    g.tracesOfAlternatives calls (Alternative.numbered (es :: sequences)) =
      g.traces calls (.sequence es) +
        g.tracesOfAlternatives calls (Alternative.numbered sequences) := by
  simp only [tracesOfAlternatives_numbered, List.map_cons, List.sum_cons]

theorem YieldsAlternatives.cons {m : StateM Draft (List Element)}
    {ms : StateM Draft (List (List Element))} {T T' : Traces} (hm : g.YieldsTraces calls m T)
    (hms : g.YieldsAlternatives calls ms T') :
    g.YieldsAlternatives calls (do
      let first ← m
      let others ← ms
      return first :: others) (T + T') :=
  hm.bind fun a => hms.bind fun as => .pure fun has ha => by
    rw [tracesOfAlternatives_cons, ha, has]

/-- **Lowering keeps the traces** of bodies, of alternatives and of sequences. -/
theorem yields_lower (hnames : g.Names calls names s.ruleNames) :
    (∀ e, g.YieldsTraces calls (lower s e) (e.traces (s.sense names))) ∧
    (∀ es, g.YieldsAlternatives calls (lowerEach s es) (Expr.tracesOfEach (s.sense names) es)) ∧
    ∀ es, g.YieldsTraces calls (lowerSeq s es) (Expr.tracesOfSeq (s.sense names) es) := by
  apply lower.mutual_induct s
  case case1 =>
    intro items ih
    rw [lower, Expr.traces]
    exact ih
  case case2 => exact .pure traces_nil
  case case3 =>
    intro e ih
    rw [lower, Expr.traces, Expr.tracesOfEach, add_zero]
    exact ih
  case case4 =>
    intro e f es he hf hes
    rw [lower, Expr.traces, Expr.tracesOfEach]
    exact yields_block (.cons he (.cons hf hes)) fun d as has => traces_single.trans has
  case case5 =>
    intro times e es he hes
    rw [lower]
    refine yields_block (.cons he hes) fun d as has => traces_repeated ?_
    rw [has, Expr.traces]
  case case6 =>
    intro times body hbody ih
    rw [lower]
    · refine (Yields.openDecision s times.blockKind 1).bind fun d => ih.bind fun a => .pure fun ha _ => ?_
      refine (traces_singleton _).trans (traces_repeated ?_)
      rw [tracesOfAlternatives_cons, tracesOfAlternatives_nil, add_zero, ha]
    · exact hbody
  case case7 => exact .pure traces_nil
  case case8 =>
    rw [lower, Expr.traces, Scope.sense]
    cases s.ruleKind with
    | lexer => exact .pure (traces_symbols fun x => Symbol.mem_anyChar)
    | parser => exact .pure (traces_symbols fun x => Iff.rfl)
  case case9 =>
    intro a b hs
    rw [lower, hs]
    exact .pure (traces_symbols fun x => SymbolSet.mem_range)
  case case10 =>
    intro a b hs
    rw [lower, hs]
    exact .error _
  case case11 =>
    intro text
    rw [lower]
    exact yields_literal text
  case case12 =>
    intro name
    rw [lower]
    exact yields_ref hnames name
  case case13 =>
    intro text mode location
    rw [lower]
    refine (Yields.predicate s.ruleName text mode location).bind fun id => .pure ?_
    rintro ⟨p, hp, rfl, rfl, rfl⟩
    rw [traces_singleton]
    exact Set.ext fun is => mem_traces_predicate hp
  case case14 =>
    intro text
    rw [lower]
    refine (Yields.action s.ruleName text).bind fun id => .pure ?_
    rintro ⟨a, ha, rfl⟩
    rw [traces_singleton]
    exact Set.ext fun is => mem_traces_action ha
  case case15 => exact .pure tracesOfAlternatives_nil
  case case16 =>
    intro e es he hes
    rw [lowerEach, Expr.tracesOfEach]
    exact YieldsAlternatives.cons he hes
  case case17 => exact .pure traces_nil
  case case18 =>
    intro e es he hes
    rw [lowerSeq, Expr.tracesOfSeq]
    exact he.bind fun a => hes.bind fun b => .pure fun hb ha => by rw [traces_append, ha, hb]

theorem yields_lowerBody (hnames : g.Names calls names s.ruleNames) (body : Expr) :
    g.Yields (lowerBody s body) fun b =>
      g.traces calls (.element b.element) = body.traces (s.sense names) := by
  refine (Yields.openDecision s .single _).bind fun d =>
    ((yields_lower hnames).2.1 body.alternatives).bind fun as => .pure fun has _ => ?_
  refine traces_single.trans (has.trans ?_)
  unfold Expr.alternatives
  split
  · rw [Expr.traces, Expr.tracesOfEach]
  · rw [Expr.tracesOfEach, Expr.tracesOfEach, add_zero]

end
end Grammar

/-! ### The rules of a grammar -/

namespace GrammarDefinition
open Grammar

variable {d : GrammarDefinition} {g : Grammar} {calls : RuleId → List Event → Prop}
  {names : String → Traces}

/-- A rule has the name that was written, and the traces of the body. -/
def Keeps (g : Grammar) (calls : RuleId → List Event → Prop) (names : String → Traces)
    (tokens : TokenTable) (rule : Rule) (r : RuleDefinition) : Prop :=
  rule.name = r.name ∧ g.traces calls (.element rule.block.element) =
    r.body.traces ⟨.ofName r.name, tokens, names⟩

theorem yields_lowerRule {kind : GrammarKind} {tokens : TokenTable} {ruleNames : List String}
    (hnames : g.Names calls names ruleNames) (id : RuleId) (r : RuleDefinition) :
    g.Yields (lowerRule kind tokens ruleNames id r) (Keeps g calls names tokens · r) := by
  refine (yields_lowerBody (s := ⟨kind, tokens, ruleNames, id, r.name, .ofName r.name⟩) hnames
    r.body).bind fun b => ?_
  split
  · exact (Yields.note _ (P := fun _ => False)).bind fun _ => .pure False.elim
  · exact .pure fun hb => ⟨rfl, hb⟩

theorem yields_lowerRules {kind : GrammarKind} {tokens : TokenTable} {ruleNames : List String}
    (hnames : g.Names calls names ruleNames) (id : RuleId) (rs : List RuleDefinition) :
    g.Yields (lowerRules kind tokens ruleNames id rs)
      fun rules => List.Forall₂ (Keeps g calls names tokens) rules rs := by
  induction rs generalizing id with
  | nil => exact .pure .nil
  | cons r rs ih =>
    exact (yields_lowerRule hnames id r).bind fun rule => (ih (id + 1)).bind fun rules =>
      .pure fun hrules hrule => .cons hrule hrules

theorem exists_of_forall₂ {α β : Type} {R : α → β → Prop} {xs : List α} {ys : List β}
    (h : List.Forall₂ R xs ys) {i : Nat} {y : β} (hy : ys[i]? = some y) :
    ∃ x, xs[i]? = some x ∧ R x y := by
  obtain ⟨hlt, rfl⟩ := List.getElem?_eq_some_iff.mp hy
  have hlt' : i < xs.length := h.length_eq ▸ hlt
  exact ⟨xs[i], List.getElem?_eq_getElem hlt', h.get hlt' hlt⟩

/-- The rules of a grammar keep the traces of the accepted rules at their places, if the names
stand for them. -/
theorem keeps_rules (h : d.build = .ok g)
    (hnames : g.Names calls names (d.accepted.1.map (·.name))) {i : Nat} {r : RuleDefinition}
    (hr : d.accepted.1[i]? = some r) :
    ∃ rule, g.rule? i = some rule ∧ Keeps g calls names g.tokens rule r := by
  obtain ⟨lowered, draft, hbuilt⟩ := exists_built h
  have hkeeps : g.Keeps draft :=
    ⟨hbuilt.predicates ▸ List.prefix_refl _, hbuilt.actions ▸ List.prefix_refl _, hbuilt.drafted⟩
  have hall : g.Yields (lowerRules d.kind g.tokens (d.accepted.1.map (·.name)) 0 d.accepted.1) _ :=
    yields_lowerRules hnames 0 d.accepted.1
  have hrules := (hall .empty).2
  rw [hbuilt.tokens, hbuilt.run] at hrules
  obtain ⟨rule, hrule, hkept⟩ := exists_of_forall₂ (hrules hkeeps) hr
  refine ⟨rule, ?_, hbuilt.tokens ▸ hkept⟩
  obtain ⟨hlt, rfl⟩ := List.getElem?_eq_some_iff.mp hrule
  exact List.prefix_iff_getElem?.mp ((prefix_addLiterals ..).trans hbuilt.prefix_rules) i hlt

/-- No two accepted rules have the same name. -/
theorem eq_of_name_eq {r r' : RuleDefinition} (hr : r ∈ d.accepted.1) (hr' : r' ∈ d.accepted.1)
    (hname : r.name = r'.name) : r = r' :=
  List.inj_on_of_nodup_map (nodup_accepted d) hr hr' hname

theorem tracesIn_succ {tokens : TokenTable} {r : RuleDefinition} (hr : r ∈ d.accepted.1) (n : Nat) :
    d.tracesIn tokens (n + 1) r.name =
      r.body.traces ⟨.ofName r.name, tokens, d.tracesIn tokens n⟩ := by
  ext is
  constructor
  · rintro ⟨r', hr', hname, his⟩
    rwa [eq_of_name_eq hr' hr hname] at his
  · exact fun his => ⟨r, hr, rfl, his⟩

/-- With calls nested to some depth, rules have the traces of their bodies. -/
theorem tracesIn_eq (h : d.build = .ok g) (n : Nat) {i : Nat} {r : RuleDefinition}
    (hr : d.accepted.1[i]? = some r) : g.tracesIn n i = d.tracesIn g.tokens n r.name := by
  induction n generalizing i r with
  | zero =>
    ext is
    exact ⟨fun ⟨_, hes, _⟩ => hes.elim, fun his => absurd his (Language.notMem_zero is)⟩
  | succ n ih =>
    have hnames : g.Names (g.DerivesIn n) (d.tracesIn g.tokens n) (d.accepted.1.map (·.name)) := by
      intro name id hid
      obtain ⟨hlt, hname, _⟩ := List.findIdx?_eq_some_iff_getElem.mp hid
      rw [List.length_map] at hlt
      have hname := eq_of_beq hname
      rw [List.getElem_map] at hname
      rw [← hname, ← ih (List.getElem?_eq_getElem hlt)]
      exact Set.ext fun is => mem_traces_call
    obtain ⟨rule, hrule, _, hkept⟩ := keeps_rules h hnames hr
    rw [tracesIn_succ (List.mem_of_getElem? hr), ← hkept]
    ext is
    constructor
    · rintro ⟨es, ⟨rule', hrule', hes⟩, hitems⟩
      obtain rfl := Option.some.inj (hrule.symm.trans hrule')
      exact ⟨es, hes, hitems⟩
    · rintro ⟨es, hes, hitems⟩
      exact ⟨es, ⟨rule, hrule, hes⟩, hitems⟩

end GrammarDefinition

/-- Where the types of tokens are symbols of their own, `.` is each of them in parser rules. -/
theorem Grammar.mem_anyToken {tokens : TokenTable} (h : tokens.maxType < UInt32.size) {x : Symbol} :
    x ∈ anyToken tokens ↔
      ∃ type name, tokens.name? type = some name ∧ x = .ofTokenType type := by
  have hmax : tokens.maxType = firstTokenType + tokens.names.length - 1 := rfl
  have hnat {type : TokenType} (htype : type ≤ tokens.maxType) :
      (Symbol.ofTokenType type).toNat = type :=
    UInt32.toNat_ofNat_of_lt' (Nat.lt_of_le_of_lt htype h)
  have hname {type : TokenType} : (∃ name, tokens.name? type = some name) ↔
      firstTokenType ≤ type ∧ type - firstTokenType < tokens.names.length := by
    unfold TokenTable.name?
    split
    · simp only [reduceCtorEq, exists_false, false_iff]
      lia
    · rw [← Option.isSome_iff_exists, isSome_getElem?]
      exact (and_iff_right (Nat.le_of_not_lt ‹_›)).symm
  unfold anyToken
  split
  · next hempty =>
    rw [List.isEmpty_iff] at hempty
    constructor
    · rintro ⟨_, hr, _⟩
      exact nomatch hr
    · rintro ⟨type, name, htype, _⟩
      have hlt := (hname.mp ⟨name, htype⟩).2
      rw [hempty] at hlt
      exact absurd hlt (Nat.not_lt_zero _)
  · next hne =>
    have hpos : 0 < tokens.names.length := by
      rwa [List.isEmpty_iff, ← ne_eq, ← List.length_pos_iff] at hne
    rw [SymbolSet.mem_range]
    simp only [UInt32.le_iff_toNat_le, hnat (Nat.le_refl _),
      hnat (show firstTokenType ≤ tokens.maxType by lia)]
    constructor
    · intro hx
      obtain ⟨name, htype⟩ := hname.mpr (show firstTokenType ≤ x.toNat ∧
        x.toNat - firstTokenType < tokens.names.length by lia)
      exact ⟨x.toNat, name, htype, UInt32.toNat_inj.mp (hnat (by lia)).symm⟩
    · rintro ⟨type, name, htype, rfl⟩
      have hbounds := hname.mp ⟨name, htype⟩
      rw [hnat (by lia)]
      lia

/-- **Lowering keeps the meaning of rule bodies.** The traces of an accepted rule are those that
its body has by what was written, and `.` is every token of the finished grammar. -/
theorem GrammarDefinition.build_traces {d : GrammarDefinition} {g : Grammar} (h : d.build = .ok g) :
    (∀ (i : Nat) r, d.accepted.1[i]? = some r → ∃ rule, g.rule? i = some rule ∧
      rule.name = r.name ∧ g.tracesOf i = d.tracesOf g.tokens r.name) ∧
    (g.tokens.maxType < UInt32.size → ∀ x, x ∈ g.anySymbol .parser ↔
      ∃ type name, g.tokens.name? type = some name ∧ x = .ofTokenType type) := by
  refine ⟨fun i r hr => ?_, fun hfit x => Grammar.mem_anyToken hfit⟩
  have hnames : g.Names (fun _ _ => False) (fun _ => 0) (d.accepted.1.map (·.name)) := by
    intro name id _
    ext is
    rw [Grammar.mem_traces_call]
    exact ⟨fun ⟨_, hes, _⟩ => hes.elim, fun his => absurd his (Language.notMem_zero is)⟩
  obtain ⟨rule, hrule, hname, _⟩ := keeps_rules h hnames hr
  refine ⟨rule, hrule, hname, Set.ext fun is => Grammar.mem_tracesOf.trans ?_⟩
  exact exists_congr fun n => by rw [tracesIn_eq h n hr]

/-- A choice under a repetition, one of its items with a choice of nothing, and a range with its
bounds in the other order. -/
def mixed : GrammarDefinition where
  name := "Mixed"
  kind := .combined
  rules := [
    ⟨"s", .repeated .star (.choice [.literal "x", .seq [.choice [], .ref "A", .action "go"]]), false⟩,
    ⟨"A", .range 'z' 'a', false⟩]
  tokens := []

/-- `s` goes through both items of its choice, and `A` is any letter. -/
theorem GrammarDefinition.build_traces_mixed :
    mixed.build = .ok mixed.grammar ∧
      [.symbol 5, .symbol 4, .action "go"] ∈ mixed.grammar.tracesOf 0 ∧
      [.symbol (.ofChar 'q')] ∈ mixed.grammar.tracesOf 1 ∧ 5 ∈ mixed.grammar.anySymbol .parser := by
  have hbuild : mixed.build = .ok mixed.grammar := build_eq_ok (by decide +kernel)
  obtain ⟨hrules, hany⟩ := build_traces hbuild
  obtain ⟨_, _, _, hs⟩ := hrules 0 _ rfl
  obtain ⟨_, _, _, hA⟩ := hrules 1 _ rfl
  have hfit : mixed.grammar.tokens.maxType < UInt32.size := by decide +kernel
  refine ⟨hbuild, ?_, ?_, (hany hfit 5).mpr ⟨5, "'x'", by decide +kernel, rfl⟩⟩
  · have hx : mixed.grammar.tokens.type? "'x'" = some 5 := by decide +kernel
    have hA : mixed.grammar.tokens.type? "A" = some 4 := by decide +kernel
    rw [hs]
    refine ⟨1, _, .head _, rfl, Language.mem_kstar.mpr
      ⟨[[.symbol 5], [.symbol 4, .action "go"]], rfl, List.forall_mem_cons.mpr ⟨?_, List.forall_mem_singleton.mpr ?_⟩⟩⟩
    · exact .inl ⟨5, ⟨5, hx, rfl⟩, rfl⟩
    · exact .inr (.inl (Language.mem_mul.mpr ⟨[], rfl, _, Language.mem_mul.mpr
        ⟨[.symbol 4], ⟨4, ⟨4, hA, rfl⟩, rfl⟩, _, Language.mem_mul.mpr
          ⟨[.action "go"], rfl, [], rfl, rfl⟩, rfl⟩, rfl⟩))
  · rw [hA]
    exact ⟨1, _, .tail _ (.head _), rfl, .ofChar 'q', by decide, rfl⟩

end Lookahead
