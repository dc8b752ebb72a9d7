import Lookahead.Proofs.Grammar.Derivation
import Mathlib.Computability.Language

/-! What a derivation shows without the numbers of the grammar.

Predicates and actions are told by what was written, and choices are left out. What is left
are traces that a rule body has before it is lowered. The traces of elements are languages of
such items: sequences are products of them, choices are sums, and loops are closed under
repetition. -/
namespace Lookahead
open scoped Computability

/-- What happens on the way through a rule, as it was written. -/
inductive Item where
  | symbol (x : Symbol)
  | predicate (text : String) (mode : PredicateMode) (location : Option SourceLocation)
  | action (text : String)
  deriving DecidableEq, Repr

abbrev Traces := Language Item

/-- What an event is by the lists of the grammar. -/
def Grammar.item? (g : Grammar) : Event → Option Item
  | .symbol x => some (.symbol x)
  | .predicate id => g.predicates[id]?.map fun p => .predicate p.text p.mode p.location
  | .action id => g.actions[id]?.map fun a => .action a.text
  | .choice .. => none

def Grammar.items (g : Grammar) (es : List Event) : List Item := es.filterMap g.item?

/-- The traces of a portion, where `calls` tells the derivations of the rules. -/
def Grammar.traces (g : Grammar) (calls : RuleId → List Event → Prop) (p : Portion) :
    Traces :=
  {is | ∃ es, Lookahead.Derives calls p es ∧ g.items es = is}

/-- The traces of a rule with calls nested less than `n` times. -/
def Grammar.tracesIn (g : Grammar) (n : Nat) (id : RuleId) : Traces :=
  {is | ∃ es, g.DerivesIn n id es ∧ g.items es = is}

/-- The traces of a rule. -/
def Grammar.tracesOf (g : Grammar) (id : RuleId) : Traces :=
  {is | ∃ es, g.Derives id es ∧ g.items es = is}

variable {g : Grammar} {calls : RuleId → List Event → Prop} {is : List Item}

@[simp] theorem Grammar.items_nil : g.items [] = [] := rfl

@[simp] theorem Grammar.items_append (es fs : List Event) :
    g.items (es ++ fs) = g.items es ++ g.items fs :=
  List.filterMap_append

@[simp] theorem Grammar.items_chosen (d : Option DecisionId) (alt : Ordinal) :
    g.items (Event.chosen d alt) = [] := by
  cases d <;> rfl

theorem Grammar.mem_traces {p : Portion} :
    is ∈ g.traces calls p ↔ ∃ es, Lookahead.Derives calls p es ∧ g.items es = is := Iff.rfl

theorem Grammar.mem_tracesOf {id : RuleId} : is ∈ g.tracesOf id ↔ ∃ n, is ∈ g.tracesIn n id :=
  ⟨fun ⟨es, ⟨n, h⟩, hitems⟩ => ⟨n, es, h, hitems⟩, fun ⟨n, es, h, hitems⟩ => ⟨es, ⟨n, h⟩, hitems⟩⟩

/-! ### Portions -/

theorem mem_sum_map {α β : Type} {f : α → Language β} {xs : List α} {w : List β} :
    w ∈ (xs.map f).sum ↔ ∃ x ∈ xs, w ∈ f x := by
  induction xs with
  | nil => simp
  | cons x xs ih =>
    rw [List.map_cons, List.sum_cons, Language.add_def, List.exists_mem_cons_iff, ← ih]
    exact Set.mem_union ..

namespace Grammar

/-- The traces of alternatives. -/
def tracesOfAlternatives (g : Grammar) (calls : RuleId → List Event → Prop)
    (as : List (Alternative Element)) : Traces :=
  (as.map fun a => g.traces calls (.sequence a.elements)).sum

theorem mem_tracesOfAlternatives {as : List (Alternative Element)} :
    is ∈ g.tracesOfAlternatives calls as ↔
      ∃ (i : Nat) (a : Alternative Element) (es : List Event), as[i]? = some a ∧
        Lookahead.Derives calls (.sequence a.elements) es ∧ g.items es = is := by
  rw [tracesOfAlternatives, mem_sum_map]
  constructor
  · rintro ⟨a, ha, es, hes, hitems⟩
    obtain ⟨i, hi⟩ := List.getElem?_of_mem ha
    exact ⟨i, a, es, hi, hes, hitems⟩
  · rintro ⟨i, a, es, hi, hes, hitems⟩
    exact ⟨a, List.mem_of_getElem? hi, es, hes, hitems⟩

theorem traces_nil : g.traces calls (.sequence []) = 1 := by
  ext is
  rw [Language.mem_one, mem_traces]
  constructor
  · rintro ⟨es, hes, rfl⟩
    cases hes
    rfl
  · rintro rfl
    exact ⟨[], .nil, rfl⟩

theorem traces_cons (e : Element) (es : List Element) :
    g.traces calls (.sequence (e :: es)) =
      g.traces calls (.element e) * g.traces calls (.sequence es) := by
  ext is
  rw [Language.mem_mul, mem_traces]
  constructor
  · rintro ⟨_, h, rfl⟩
    cases h with
    | cons he hes => exact ⟨_, ⟨_, he, rfl⟩, _, ⟨_, hes, rfl⟩, (items_append ..).symm⟩
  · rintro ⟨_, ⟨_, he, rfl⟩, _, ⟨_, hes, rfl⟩, rfl⟩
    exact ⟨_, .cons he hes, items_append ..⟩

theorem traces_append (es fs : List Element) :
    g.traces calls (.sequence (es ++ fs)) =
      g.traces calls (.sequence es) * g.traces calls (.sequence fs) := by
  induction es with
  | nil => rw [List.nil_append, traces_nil, one_mul]
  | cons e es ih => rw [List.cons_append, traces_cons, ih, traces_cons, mul_assoc]

theorem traces_singleton (e : Element) :
    g.traces calls (.sequence [e]) = g.traces calls (.element e) := by
  rw [traces_cons, traces_nil, mul_one]

theorem mem_traces_symbols {set : SymbolSet} :
    is ∈ g.traces calls (.element (.symbols set)) ↔ ∃ x ∈ set, is = [.symbol x] := by
  constructor
  · rintro ⟨_, h, rfl⟩
    cases h with
    | @symbols _ x hx => exact ⟨x, hx, rfl⟩
  · rintro ⟨x, hx, rfl⟩
    exact ⟨_, .symbols hx, rfl⟩

theorem mem_traces_call {id : RuleId} :
    is ∈ g.traces calls (.element (.call id)) ↔ ∃ es, calls id es ∧ g.items es = is := by
  constructor
  · rintro ⟨es, h, rfl⟩
    cases h with
    | call h => exact ⟨es, h, rfl⟩
  · rintro ⟨es, h, rfl⟩
    exact ⟨es, .call h, rfl⟩

theorem mem_traces_predicate {id : PredicateId} {p : Predicate} (hp : g.predicates[id]? = some p) :
    is ∈ g.traces calls (.element (.predicate id)) ↔ is = [.predicate p.text p.mode p.location] := by
  have hitems : g.items [.predicate id] = [.predicate p.text p.mode p.location] := by
    simp [items, item?, hp]
  constructor
  · rintro ⟨_, h, rfl⟩
    cases h
    exact hitems
  · rintro rfl
    exact ⟨_, .predicate id, hitems⟩

theorem mem_traces_action {id : ActionId} {a : Action} (ha : g.actions[id]? = some a) :
    is ∈ g.traces calls (.element (.action id)) ↔ is = [.action a.text] := by
  have hitems : g.items [.action id] = [.action a.text] := by
    simp [items, item?, ha]
  constructor
  · rintro ⟨_, h, rfl⟩
    cases h
    exact hitems
  · rintro rfl
    exact ⟨_, .action id, hitems⟩

/-! ### Blocks -/

section
variable {d : Option DecisionId} {as : List (Alternative Element)}

theorem traces_single :
    g.traces calls (.element (.block .single d as)) = g.tracesOfAlternatives calls as := by
  ext is
  rw [mem_tracesOfAlternatives]
  constructor
  · rintro ⟨_, h, rfl⟩
    cases h with
    | single ha h => exact ⟨_, _, _, ha, h, by simp⟩
  · rintro ⟨i, a, es, ha, h, rfl⟩
    exact ⟨_, .single ha h, by simp⟩

theorem traces_optional :
    g.traces calls (.element (.block .optional d as)) = 1 + g.tracesOfAlternatives calls as := by
  ext is
  rw [Language.mem_add, Language.mem_one, mem_tracesOfAlternatives]
  constructor
  · rintro ⟨_, h, rfl⟩
    cases h with
    | optional ha h => exact .inr ⟨_, _, _, ha, h, by simp⟩
    | skip => exact .inl (by simp)
  · rintro (rfl | ⟨i, a, es, ha, h, rfl⟩)
    · exact ⟨_, .skip, by simp⟩
    · exact ⟨_, .optional ha h, by simp⟩

/-- The rounds of a loop follow each other. -/
theorem traces_loop (n : Nat) :
    g.traces calls (.loop d as n) = g.tracesOfAlternatives calls as ^ n := by
  induction n with
  | zero =>
    ext is
    rw [pow_zero, Language.mem_one]
    constructor
    · rintro ⟨_, h, rfl⟩
      cases h
      simp
    · rintro rfl
      exact ⟨_, .leave, by simp⟩
  | succ n ih =>
    rw [pow_succ', ← ih]
    ext is
    rw [Language.mem_mul]
    constructor
    · rintro ⟨_, h, rfl⟩
      cases h with
      | round ha h hrest =>
        exact ⟨_, mem_tracesOfAlternatives.mpr ⟨_, _, _, ha, h, rfl⟩, _, ⟨_, hrest, rfl⟩, by simp⟩
      | last ha h _ =>
        exact ⟨_, mem_tracesOfAlternatives.mpr ⟨_, _, _, ha, h, rfl⟩, _, ⟨_, .leave, rfl⟩, by simp⟩
    · rintro ⟨_, hround, _, ⟨fs, hrest, rfl⟩, rfl⟩
      obtain ⟨i, a, es, ha, h, rfl⟩ := mem_tracesOfAlternatives.mp hround
      exact ⟨_, .round ha h hrest, by simp⟩

theorem traces_star :
    g.traces calls (.element (.block .star d as)) = (g.tracesOfAlternatives calls as)∗ := by
  ext is
  rw [Language.kstar_eq_iSup_pow, Language.mem_iSup]
  constructor
  · rintro ⟨es, h, rfl⟩
    cases h with
    | @star _ _ n _ h => exact ⟨n, traces_loop n ▸ ⟨es, h, rfl⟩⟩
  · rintro ⟨n, h⟩
    rw [← traces_loop (d := d) n] at h
    obtain ⟨es, h, rfl⟩ := h
    exact ⟨es, .star h, rfl⟩

theorem traces_plus :
    g.traces calls (.element (.block .plus d as)) =
      g.tracesOfAlternatives calls as * (g.tracesOfAlternatives calls as)∗ := by
  ext is
  rw [Language.kstar_eq_iSup_pow, Language.mul_iSup, Language.mem_iSup]
  constructor
  · rintro ⟨es, h, rfl⟩
    cases h with
    | @plus _ _ n _ hn h =>
      obtain ⟨n, rfl⟩ := Nat.exists_eq_succ_of_ne_zero (Nat.ne_of_gt hn)
      exact ⟨n, pow_succ' (g.tracesOfAlternatives calls as) n ▸ traces_loop (n + 1) ▸ ⟨es, h, rfl⟩⟩
  · rintro ⟨n, h⟩
    rw [← pow_succ', ← traces_loop (d := d) (n + 1)] at h
    obtain ⟨es, h, rfl⟩ := h
    exact ⟨es, .plus (Nat.succ_pos n) h, rfl⟩

end
end Grammar
end Lookahead
