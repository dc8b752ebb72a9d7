import Lookahead.Proofs.Grammar.WellFormed

/-! Derivations: what the rules of a grammar let happen, in order.

A derivation of an element reads the symbols, passes the predicates and performs the
actions that its ways hold, and chooses an alternative at each decision. A single block goes
through one of its alternatives, an optional one through one or none, and a loop through one
after the other. An element that calls a rule has the derivations of the rule.

What a call can be derived to is a parameter of the derivations of an element, so that rules
are derived within some number of nested calls. A derivation may be cut off where it would
read a symbol, pass a predicate or choose. -/
namespace Lookahead

/-- What happens on the way through a rule. -/
inductive Event where
  | symbol (x : Symbol)
  | predicate (id : PredicateId)
  | action (id : ActionId)
  /-- An alternative of a decision is chosen. -/
  | choice (d : DecisionId) (alt : Ordinal)
  deriving DecidableEq, Repr

namespace Event

def symbol? : Event → Option Symbol
  | symbol x => some x
  | _ => none

/-- The symbols that are read. -/
def symbols (es : List Event) : List Symbol := es.filterMap symbol?

/-- The choice of an alternative, where there is a decision. -/
def chosen (d : Option DecisionId) (alt : Ordinal) : List Event :=
  match d with
  | some d => [choice d alt]
  | none => []

@[simp] theorem symbols_nil : symbols [] = [] := rfl

@[simp] theorem symbols_append (es fs : List Event) :
    symbols (es ++ fs) = symbols es ++ symbols fs :=
  List.filterMap_append

@[simp] theorem symbols_symbol (x : Symbol) : symbols [symbol x] = [x] := rfl

@[simp] theorem symbols_predicate (id : PredicateId) : symbols [predicate id] = [] := rfl

@[simp] theorem symbols_action (id : ActionId) : symbols [action id] = [] := rfl

@[simp] theorem symbols_choice_cons (d : DecisionId) (alt : Ordinal) (es : List Event) :
    symbols (choice d alt :: es) = symbols es := rfl

@[simp] theorem symbols_chosen (d : Option DecisionId) (alt : Ordinal) :
    symbols (chosen d alt) = [] := by
  cases d <;> rfl

end Event

/-- What can be derived: an element, a sequence of elements, or a number of rounds of a loop
and what leaves it. -/
inductive Portion where
  | element (e : Element)
  | sequence (es : List Element)
  | loop (d : Option DecisionId) (as : List (Alternative Element)) (rounds : Nat)

/-- A portion lets these events happen, where `calls` tells it for the rules. -/
inductive Derives (calls : RuleId → List Event → Prop) : Portion → List Event → Prop where
  | symbols {set x} (hx : x ∈ set) : Derives calls (.element (.symbols set)) [.symbol x]
  | call {rule es} (h : calls rule es) : Derives calls (.element (.call rule)) es
  | predicate (id) : Derives calls (.element (.predicate id)) [.predicate id]
  | action (id) : Derives calls (.element (.action id)) [.action id]
  | single {d as i a es} (ha : as[i]? = some a) (h : Derives calls (.sequence a.elements) es) :
    Derives calls (.element (.block .single d as)) (Event.chosen d (i + 1) ++ es)
  | optional {d as i a es} (ha : as[i]? = some a) (h : Derives calls (.sequence a.elements) es) :
    Derives calls (.element (.block .optional d as)) (Event.chosen d (i + 1) ++ es)
  | skip {d as} : Derives calls (.element (.block .optional d as)) (Event.chosen d (as.length + 1))
  | star {d as n es} (h : Derives calls (.loop d as n) es) :
    Derives calls (.element (.block .star d as)) es
  | plus {d as n es} (hn : 0 < n) (h : Derives calls (.loop d as n) es) :
    Derives calls (.element (.block .plus d as)) es
  | nil : Derives calls (.sequence []) []
  | cons {e rest es fs} (he : Derives calls (.element e) es)
    (hrest : Derives calls (.sequence rest) fs) : Derives calls (.sequence (e :: rest)) (es ++ fs)
  | leave {d as} : Derives calls (.loop d as 0) (Event.chosen d (as.length + 1))
  | round {d as i a n es fs} (ha : as[i]? = some a) (h : Derives calls (.sequence a.elements) es)
    (hrest : Derives calls (.loop d as n) fs) :
    Derives calls (.loop d as (n + 1)) (Event.chosen d (i + 1) ++ es ++ fs)
  /-- A round that reads nothing may be the last one. -/
  | last {d as i a es} (ha : as[i]? = some a) (h : Derives calls (.sequence a.elements) es)
    (hnone : Event.symbols es = []) : Derives calls (.loop d as 1) (Event.chosen d (i + 1) ++ es)

/-- Where a derivation is cut off, and in which rule. -/
inductive Cut where
  /-- Before a symbol of the set. -/
  | symbols (rule : String) (set : SymbolSet)
  | predicate (rule : String) (id : PredicateId)
  /-- Before an alternative is chosen. -/
  | decision (rule : String) (d : DecisionId)
  /-- In a loop that has been left before its first round, though it needs one. -/
  | loop (rule : String) (d : DecisionId)
  deriving DecidableEq, Repr

/-- A derivation of a portion of `rule` may begin with these events and be cut off after
them, where `begun` tells it for the rules. -/
inductive Begins (calls : RuleId → List Event → Prop) (begun : RuleId → List Event → Cut → Prop)
    (rule : String) : Portion → List Event → Cut → Prop where
  | symbols (set) : Begins calls begun rule (.element (.symbols set)) [] (.symbols rule set)
  | call {id es c} (h : begun id es c) : Begins calls begun rule (.element (.call id)) es c
  | predicate (id) : Begins calls begun rule (.element (.predicate id)) [] (.predicate rule id)
  | choice {kind d as} (hkind : kind = .single ∨ kind = .optional) :
    Begins calls begun rule (.element (.block kind (some d) as)) [] (.decision rule d)
  | chosen {kind d as i a es c} (hkind : kind = .single ∨ kind = .optional)
    (ha : as[i]? = some a) (h : Begins calls begun rule (.sequence a.elements) es c) :
    Begins calls begun rule (.element (.block kind d as)) (Event.chosen d (i + 1) ++ es) c
  | loop {kind d as n es c} (hkind : kind = .star ∨ kind = .plus)
    (h : Begins calls begun rule (.loop d as n) es c) :
    Begins calls begun rule (.element (.block kind d as)) es c
  | left {d as} : Begins calls begun rule (.element (.block .plus (some d) as))
    [.choice d (as.length + 1)] (.loop rule d)
  | head {e rest es c} (h : Begins calls begun rule (.element e) es c) :
    Begins calls begun rule (.sequence (e :: rest)) es c
  | tail {e rest es fs c} (he : Derives calls (.element e) es)
    (h : Begins calls begun rule (.sequence rest) fs c) :
    Begins calls begun rule (.sequence (e :: rest)) (es ++ fs) c
  | nextRound {d as} : Begins calls begun rule (.loop (some d) as 0) [] (.decision rule d)
  | inRound {d as i a es c} (ha : as[i]? = some a)
    (h : Begins calls begun rule (.sequence a.elements) es c) :
    Begins calls begun rule (.loop d as 0) (Event.chosen d (i + 1) ++ es) c
  | afterRound {d as i a n es fs c} (ha : as[i]? = some a)
      (he : Derives calls (.sequence a.elements) es)
    (h : Begins calls begun rule (.loop d as n) fs c) :
    Begins calls begun rule (.loop d as (n + 1)) (Event.chosen d (i + 1) ++ es ++ fs) c

namespace Grammar

/-- A rule lets these events happen with calls nested less than `n` times. -/
def DerivesIn (g : Grammar) : Nat → RuleId → List Event → Prop
  | 0, _, _ => False
  | n + 1, id, es => ∃ r, g.rule? id = some r ∧
    Lookahead.Derives (g.DerivesIn n) (.element r.block.element) es

/-- A rule lets these events happen. -/
def Derives (g : Grammar) (id : RuleId) (es : List Event) : Prop := ∃ n, g.DerivesIn n id es

/-- A derivation of a rule may begin with these events, with calls nested less than `n`
times, and be cut off after them. -/
def BeginsIn (g : Grammar) : Nat → RuleId → List Event → Cut → Prop
  | 0, _, _, _ => False
  | n + 1, id, es, c => ∃ r, g.rule? id = some r ∧
    Lookahead.Begins (g.DerivesIn n) (g.BeginsIn n) r.name (.element r.block.element) es c

/-- A derivation of a rule may begin with these events and be cut off after them. -/
def Begins (g : Grammar) (id : RuleId) (es : List Event) (c : Cut) : Prop :=
  ∃ n, g.BeginsIn n id es c

/-- The words that a rule derives. -/
def Language (g : Grammar) (id : RuleId) (w : List Symbol) : Prop :=
  ∃ es, g.Derives id es ∧ Event.symbols es = w

end Grammar
end Lookahead
