import Lookahead.Grammar.Basic
import Lookahead.Proofs.SymbolSet.Partition

/-! Well-formed grammars.

The parts of a grammar are the elements of its rules at every depth, a block before what
it contains and the elements of a sequence in order. In a well-formed grammar each
number that a part holds has an entry in the grammar's lists, and the numbered parts are
numbered in the order in which they stand. So are the alternatives of each block. -/
namespace Lookahead

namespace Alternative
variable {ε : Type} (sequences : List (List ε))

@[simp] theorem length_numbered : (numbered sequences).length = sequences.length :=
  List.length_mapIdx

theorem getElem?_numbered (i : Nat) :
    (numbered sequences)[i]? = sequences[i]?.map fun es => ⟨i + 1, es⟩ := List.getElem?_mapIdx

theorem map_elements_numbered : (numbered sequences).map (·.elements) = sequences := by
  refine List.ext_getElem? fun i => ?_
  rw [List.getElem?_map, getElem?_numbered, Option.map_map]
  exact Option.map_id'

theorem elements_mem {sequences : List (List ε)} {a : Alternative ε}
    (h : a ∈ numbered sequences) : a.elements ∈ sequences := by
  rw [← map_elements_numbered sequences]
  exact List.mem_map_of_mem h

theorem map_ordinal_numbered :
    (numbered sequences).map (·.ordinal) = List.range' 1 sequences.length := by
  refine List.ext_getElem (by simp) fun i _ _ => ?_
  simp [numbered, Nat.add_comm]

end Alternative

mutual
/-- An element and the elements inside it. -/
def Element.parts : Element → List Element
  | .block kind decision alternatives =>
    .block kind decision alternatives :: Element.partsOfEach alternatives
  | .symbols set => [.symbols set]
  | .call rule => [.call rule]
  | .predicate id => [.predicate id]
  | .action id => [.action id]

def Element.partsOf : List Element → List Element
  | [] => []
  | e :: es => e.parts ++ Element.partsOf es

def Element.partsOfEach : List (Alternative Element) → List Element
  | [] => []
  | ⟨_, es⟩ :: as => Element.partsOf es ++ Element.partsOfEach as
end

/-- A block as an element. -/
def Block.element (b : Block) : Element := .block b.kind b.decision b.alternatives

/-- The kind of block that a decision of this kind belongs to. -/
def DecisionKind.blockKind : DecisionKind → BlockKind
  | block | tokens => .single
  | optional => .optional
  | star => .star
  | plus => .plus

/-- The number of alternatives of the decision of a block that lists `count` of them. -/
def BlockKind.altCount (kind : BlockKind) (count : Nat) : Nat :=
  match kind with
  | single => count
  | optional | star | plus => count + 1

namespace Element

/-- What should be recorded of the decision of a block. -/
def outline? : Element → Option (DecisionId × BlockKind × Nat)
  | .block kind (some id) alternatives => some (id, kind, kind.altCount alternatives.length)
  | _ => none

def predicate? : Element → Option PredicateId
  | .predicate id => some id
  | _ => none

def action? : Element → Option ActionId
  | .action id => some id
  | _ => none

/-- A block lists an alternative, and has a decision where more than one can follow. -/
def Shaped : Element → Prop
  | .block .single none alternatives => alternatives.length = 1
  | .block .single (some _) alternatives => alternatives ≠ []
  | .block _ decision alternatives => decision.isSome ∧ alternatives ≠ []
  | _ => True

/-- The alternatives of a block are numbered by their places. -/
def Numbered : Element → Prop
  | .block _ _ alternatives => alternatives.map (·.ordinal) = List.range' 1 alternatives.length
  | _ => True

/-- A set of symbols is at most one range. -/
def Plain : Element → Prop
  | .symbols set => set.ranges.length ≤ 1
  | _ => True

theorem partsOf_append (es fs : List Element) : partsOf (es ++ fs) = partsOf es ++ partsOf fs := by
  induction es with
  | nil => rfl
  | cons e es ih => simp [partsOf, ih]

theorem mem_parts_self (e : Element) : e ∈ e.parts := by
  cases e <;> simp [parts]

theorem partsOfEach_eq (as : List (Alternative Element)) :
    partsOfEach as = (as.map (·.elements)).flatMap partsOf := by
  induction as with
  | nil => rfl
  | cons a as ih => exact congrArg (partsOf a.elements ++ ·) ih

theorem partsOfEach_numbered (sequences : List (List Element)) :
    partsOfEach (Alternative.numbered sequences) = sequences.flatMap partsOf := by
  rw [partsOfEach_eq, Alternative.map_elements_numbered]

theorem partsOf_subset_partsOfEach {as : List (Alternative Element)} {a : Alternative Element}
    (ha : a ∈ as) : partsOf a.elements ⊆ partsOfEach as := by
  induction ha with
  | head => exact List.subset_append_left ..
  | tail _ _ ih => exact List.subset_append_of_subset_right _ ih

def decision? (e : Element) : Option DecisionId := e.outline?.map (·.1)

end Element

namespace Grammar

/-- The elements of a grammar at every depth. -/
def parts (g : Grammar) : List Element := g.rules.flatMap (·.block.element.parts)

structure WellFormed (g : Grammar) : Prop where
  ruleIds : g.rules.map (·.id) = List.range g.rules.length
  calls : ∀ rule, .call rule ∈ g.parts → rule < g.rules.length
  shaped : ∀ e ∈ g.parts, e.Shaped
  /-- The alternatives of each block have the numbers 1, 2, ... -/
  numbered : ∀ e ∈ g.parts, e.Numbered
  plain : ∀ e ∈ g.parts, e.Plain
  predicates : g.parts.filterMap Element.predicate? = List.range g.predicates.length
  predicateIds : g.predicates.map (·.id) = List.range g.predicates.length
  actions : g.parts.filterMap Element.action? = List.range g.actions.length
  decisions : g.parts.filterMap Element.decision? = List.range g.decisions.length
  decisionIds : g.decisions.map (·.id) = List.range g.decisions.length
  /-- The decision of a block is recorded with its kind and the number of its
  alternatives. -/
  recorded : ∀ kind id alternatives, .block kind (some id) alternatives ∈ g.parts →
    ∃ d, g.decisions[id]? = some d ∧ d.kind.blockKind = kind ∧
      d.altCount = kind.altCount alternatives.length

/-! ### All elements at every depth -/

/-- A property of elements passes on from a block to its alternatives, and from a sequence to
its elements. -/
structure Inherited (S P : Element → Prop) (Q : List Element → Prop) : Prop where
  alternative : ∀ kind d as, S (.block kind d as) → P (.block kind d as) →
    ∀ a ∈ as, Q a.elements
  head : ∀ e es, Q (e :: es) → P e
  tail : ∀ e es, Q (e :: es) → Q es

namespace Inherited
variable {S P : Element → Prop} {Q : List Element → Prop}

mutual
theorem forall_parts (h : Inherited S P Q) :
    (e : Element) → (∀ f ∈ e.parts, S f) → P e → ∀ f ∈ e.parts, P f
  | .block kind d as, hS, he, f, hf => by
    rcases List.mem_cons.mp hf with rfl | hf
    · exact he
    · exact h.forall_partsOfEach as (fun f hf => hS f (.tail _ hf))
        (h.alternative kind d as (hS _ (.head _)) he) f hf
  | .symbols _, _, he, f, hf | .call _, _, he, f, hf | .predicate _, _, he, f, hf
  | .action _, _, he, f, hf => by
    obtain rfl := List.mem_singleton.mp hf
    exact he

theorem forall_partsOf (h : Inherited S P Q) :
    (es : List Element) → (∀ f ∈ Element.partsOf es, S f) → Q es → ∀ f ∈ Element.partsOf es, P f
  | e :: es, hS, hes, f, hf => by
    rcases List.mem_append.mp hf with hf | hf
    · exact h.forall_parts e (fun f hf => hS f (List.mem_append_left _ hf)) (h.head e es hes) f hf
    · exact h.forall_partsOf es (fun f hf => hS f (List.mem_append_right _ hf)) (h.tail e es hes)
        f hf

theorem forall_partsOfEach (h : Inherited S P Q) :
    (as : List (Alternative Element)) → (∀ f ∈ Element.partsOfEach as, S f) →
    (∀ a ∈ as, Q a.elements) →
    ∀ f ∈ Element.partsOfEach as, P f
  | ⟨_, es⟩ :: as, hS, has, f, hf => by
    rcases List.mem_append.mp hf with hf | hf
    · exact h.forall_partsOf es (fun f hf => hS f (List.mem_append_left _ hf)) (has _ (.head _))
        f hf
    · exact h.forall_partsOfEach as (fun f hf => hS f (List.mem_append_right _ hf))
        (fun b hb => has b (.tail _ hb)) f hf
end

/-- What holds of the blocks of the rules holds of all elements of the grammar. -/
theorem forall_mem {g : Grammar} (h : Inherited (· ∈ g.parts) P Q)
    (hrule : ∀ r ∈ g.rules, P r.block.element) : ∀ e ∈ g.parts, P e := by
  intro e he
  obtain ⟨r, hr, he⟩ := List.mem_flatMap.mp he
  exact h.forall_parts r.block.element (fun f hf => List.mem_flatMap.mpr ⟨r, hr, hf⟩)
    (hrule r hr) e he

end Inherited

/-- The parts of an element of a grammar are elements of it. -/
theorem parts_subset {g : Grammar} {e : Element} (he : e ∈ g.parts) : e.parts ⊆ g.parts := by
  have inherited : Inherited (· ∈ g.parts) (·.parts ⊆ g.parts) (Element.partsOf · ⊆ g.parts) :=
    ⟨fun _ _ _ _ hparts _ ha _ hf => hparts (.tail _ (Element.partsOf_subset_partsOfEach ha hf)),
      fun _ _ hparts _ hf => hparts (List.mem_append_left _ hf),
      fun _ _ hparts _ hf => hparts (List.mem_append_right _ hf)⟩
  exact inherited.forall_mem (fun r hr f hf => List.mem_flatMap.mpr ⟨r, hr, hf⟩) e he

/-! ### Lists that are numbered in order -/

section
variable {α : Type} {f : α → Nat} {l : List α} {x : α} {i : Nat}

/-- An entry has the number of its place. -/
theorem eq_of_map_eq_range (h : l.map f = List.range l.length) (hx : l[i]? = some x) : f x = i := by
  have hlt : i < l.length := (List.getElem?_eq_some_iff.mp hx).1
  have hi := congrArg (·[i]?) h
  simp only [List.getElem?_map, hx, Option.map_some, List.getElem?_range hlt,
    Option.some.injEq] at hi
  exact hi

/-- An entry stands at its number. -/
theorem getElem?_of_map_eq_range (h : l.map f = List.range l.length) (hx : x ∈ l) :
    l[f x]? = some x := by
  obtain ⟨i, hi⟩ := List.getElem?_of_mem hx
  rw [eq_of_map_eq_range h hi]
  exact hi

end

namespace WellFormed
variable {g : Grammar}

theorem rule?_id (hwf : g.WellFormed) {rule : Rule} (hrule : rule ∈ g.rules) :
    g.rule? rule.id = some rule := getElem?_of_map_eq_range hwf.ruleIds hrule

theorem decision_id (hwf : g.WellFormed) {id : DecisionId} {d : Decision}
    (hd : g.decisions[id]? = some d) : d.id = id := eq_of_map_eq_range hwf.decisionIds hd

theorem predicate_id (hwf : g.WellFormed) {id : PredicateId} {p : Predicate}
    (hp : g.predicates[id]? = some p) : p.id = id := eq_of_map_eq_range hwf.predicateIds hp

theorem predicate_lt (hwf : g.WellFormed) {id : PredicateId} (he : .predicate id ∈ g.parts) :
    id < g.predicates.length := by
  have hmem : id ∈ g.parts.filterMap Element.predicate? := List.mem_filterMap.mpr ⟨_, he, rfl⟩
  rw [hwf.predicates] at hmem
  exact List.mem_range.mp hmem

theorem action_lt (hwf : g.WellFormed) {id : ActionId} (he : .action id ∈ g.parts) :
    id < g.actions.length := by
  have hmem : id ∈ g.parts.filterMap Element.action? := List.mem_filterMap.mpr ⟨_, he, rfl⟩
  rw [hwf.actions] at hmem
  exact List.mem_range.mp hmem

/-- A decision belongs to a block. -/
theorem exists_block (hwf : g.WellFormed) {d : Decision} (hd : d ∈ g.decisions) :
    ∃ kind as, .block kind (some d.id) as ∈ g.parts ∧ d.kind.blockKind = kind ∧
      d.altCount = kind.altCount as.length := by
  obtain ⟨id, hid⟩ := List.getElem?_of_mem hd
  obtain rfl := hwf.decision_id hid
  have hrange : d.id ∈ List.range g.decisions.length :=
    List.mem_range.mpr (List.getElem?_eq_some_iff.mp hid).1
  rw [← hwf.decisions] at hrange
  obtain ⟨e, he, hdecision⟩ := List.mem_filterMap.mp hrange
  obtain ⟨⟨_, kind, _⟩, houtline, rfl⟩ := Option.map_eq_some_iff.mp hdecision
  match e with
  | .block kind (some id) alternatives =>
    obtain ⟨rfl, rfl, rfl⟩ := by simpa [Element.outline?] using houtline
    obtain ⟨d', hd', hkind, hcount⟩ := hwf.recorded _ _ _ he
    obtain rfl := Option.some.inj (hid.symm.trans hd')
    exact ⟨kind, alternatives, he, hkind, hcount⟩

/-- Only a single block can do without a decision. -/
theorem exists_decision (hwf : g.WellFormed) {kind : BlockKind} {d : Option DecisionId}
    {as : List (Alternative Element)} (he : .block kind d as ∈ g.parts) (hkind : kind ≠ .single) :
    ∃ id, d = some id := by
  have hshaped := hwf.shaped _ he
  cases kind with
  | single => exact absurd rfl hkind
  | optional | star | plus => exact Option.isSome_iff_exists.mp hshaped.1

/-- A block without a decision has just one alternative. -/
theorem exists_alternative (hwf : g.WellFormed) {as : List (Alternative Element)}
    (he : .block .single none as ∈ g.parts) : ∃ a, as = [a] :=
  List.length_eq_one_iff.mp (hwf.shaped _ he)

end WellFormed
end Grammar
end Lookahead
