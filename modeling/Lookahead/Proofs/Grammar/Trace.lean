import Lookahead.Proofs.Grammar.WellFormed

/-! Traces: what the blocks of a grammar spell.

A trace lists what stands on one way through a block, a set of symbols as the whole set. It
says less than a derivation, which also tells which symbol is read and which alternative is
chosen, so grammars and networks can be compared by their traces.

A phrase that waits to be spelled is taken apart in steps (`Advance`). A step lists at most
one element, and what is left spells the rest. -/
namespace Lookahead

/-- What a trace lists. -/
inductive Label where
  | symbols (set : SymbolSet)
  | predicate (id : PredicateId)
  | action (id : ActionId)
  deriving DecidableEq, Repr

/-- What can be spelled: an element, a sequence of elements, or any number of rounds of a
loop. -/
inductive Phrase where
  | element (e : Element)
  | sequence (es : List Element)
  | rounds (as : List (Alternative Element))

/-- The traces of a phrase. -/
inductive Grammar.Spells (g : Grammar) : Phrase → List Label → Prop where
  | symbols (set) : Spells g (.element (.symbols set)) [.symbols set]
  | predicate (id) : Spells g (.element (.predicate id)) [.predicate id]
  | action (id) : Spells g (.element (.action id)) [.action id]
  | call {rule r ls} (hr : g.rule? rule = some r) (h : Spells g (.element r.block.element) ls) :
    Spells g (.element (.call rule)) ls
  | single {d as a ls} (ha : a ∈ as) (h : Spells g (.sequence a.elements) ls) :
    Spells g (.element (.block .single d as)) ls
  | optional {d as a ls} (ha : a ∈ as) (h : Spells g (.sequence a.elements) ls) :
    Spells g (.element (.block .optional d as)) ls
  | skip {d as} : Spells g (.element (.block .optional d as)) []
  | star {d as ls} (h : Spells g (.rounds as) ls) : Spells g (.element (.block .star d as)) ls
  | plus {d as a ls ms} (ha : a ∈ as) (h : Spells g (.sequence a.elements) ls)
    (hrest : Spells g (.rounds as) ms) : Spells g (.element (.block .plus d as)) (ls ++ ms)
  | nil : Spells g (.sequence []) []
  | cons {e es ls ms} (he : Spells g (.element e) ls) (hes : Spells g (.sequence es) ms) :
    Spells g (.sequence (e :: es)) (ls ++ ms)
  | leave {as} : Spells g (.rounds as) []
  | round {as a ls ms} (ha : a ∈ as) (h : Spells g (.sequence a.elements) ls)
    (hrest : Spells g (.rounds as) ms) : Spells g (.rounds as) (ls ++ ms)

/-- The traces of phrases that follow each other. -/
def Grammar.SpellsAll (g : Grammar) : List Phrase → List Label → Prop
  | [], ls => ls = []
  | p :: ps, ls => ∃ ms ns, ls = ms ++ ns ∧ g.Spells p ms ∧ g.SpellsAll ps ns

variable {g : Grammar} {p : Phrase} {ps qs : List Phrase} {ls ms : List Label}

theorem Grammar.SpellsAll.split (h : g.SpellsAll (ps ++ qs) ls) :
    ∃ ms ns, ls = ms ++ ns ∧ g.SpellsAll ps ms ∧ g.SpellsAll qs ns := by
  induction ps generalizing ls with
  | nil => exact ⟨[], ls, rfl, rfl, h⟩
  | cons p ps ih =>
    obtain ⟨ls₁, _, rfl, hp, h⟩ := h
    obtain ⟨ms, ns, rfl, hps, hqs⟩ := ih h
    exact ⟨ls₁ ++ ms, ns, (List.append_assoc ..).symm, ⟨ls₁, ms, rfl, hp, hps⟩, hqs⟩

theorem Grammar.spellsAll_singleton : g.SpellsAll [p] ls ↔ g.Spells p ls := by
  constructor
  · rintro ⟨ms, _, rfl, hp, rfl⟩
    rwa [List.append_nil]
  · exact fun hp => ⟨ls, [], (List.append_nil ls).symm, hp, rfl⟩

/-! ### One step after the other -/

/-- An element that holds no other ones. -/
def Element.Leaf : Element → Prop
  | .block .. => False
  | _ => True

/-- A step through a phrase lists this element, if any, and leaves these phrases. -/
inductive Advance : Phrase → Option Element → List Phrase → Prop where
  | leaf {e} (he : e.Leaf) : Advance (.element e) (some e) []
  | alternative {a x ps} (h : Advance (.sequence a.elements) x ps) :
    Advance (.element (.block .single none [a])) x ps
  | single {d as a} (ha : a ∈ as) :
    Advance (.element (.block .single (some d) as)) none [.sequence a.elements]
  | optional {d as a} (ha : a ∈ as) :
    Advance (.element (.block .optional (some d) as)) none [.sequence a.elements]
  | skip {d as} : Advance (.element (.block .optional (some d) as)) none [.sequence []]
  | star {d as} : Advance (.element (.block .star (some d) as)) none [.rounds as]
  | plus {d as a} (ha : a ∈ as) :
    Advance (.element (.block .plus (some d) as)) none [.sequence a.elements, .rounds as]
  | nil : Advance (.sequence []) none []
  | cons {e es x ps} (h : Advance (.element e) x ps) :
    Advance (.sequence (e :: es)) x (ps ++ [.sequence es])
  | round {as a} (ha : a ∈ as) : Advance (.rounds as) none [.sequence a.elements, .rounds as]
  | leave {as} : Advance (.rounds as) none [.sequence []]

/-- The traces of what a step lists. -/
def Grammar.SpellsStep (g : Grammar) : Option Element → List Label → Prop
  | none, ls => ls = []
  | some e, ls => g.Spells (.element e) ls

/-- What a step lists, and then what it leaves, is a trace of the phrase. -/
theorem Advance.spells {x : Option Element} (h : Advance p x ps) (hx : g.SpellsStep x ls)
    (hps : g.SpellsAll ps ms) : g.Spells p (ls ++ ms) := by
  induction h generalizing ms with
  | leaf =>
    obtain rfl := hps
    rwa [List.append_nil]
  | alternative _ ih => exact .single (.head _) (ih hx hps)
  | single ha =>
    obtain rfl := hx
    exact .single ha (Grammar.spellsAll_singleton.mp hps)
  | optional ha =>
    obtain rfl := hx
    exact .optional ha (Grammar.spellsAll_singleton.mp hps)
  | skip =>
    obtain rfl := hx
    cases Grammar.spellsAll_singleton.mp hps
    exact .skip
  | star =>
    obtain rfl := hx
    exact .star (Grammar.spellsAll_singleton.mp hps)
  | plus ha =>
    obtain rfl := hx
    obtain ⟨ms, ns, rfl, ha', hrest⟩ := hps
    rw [List.nil_append]
    exact .plus ha ha' (Grammar.spellsAll_singleton.mp hrest)
  | nil =>
    obtain rfl := hx
    obtain rfl := hps
    exact .nil
  | cons _ ih =>
    obtain ⟨ms, ns, rfl, hps, hrest⟩ := hps.split
    rw [← List.append_assoc]
    exact .cons (ih hx hps) (Grammar.spellsAll_singleton.mp hrest)
  | round ha =>
    obtain rfl := hx
    obtain ⟨ms, ns, rfl, ha', hrest⟩ := hps
    rw [List.nil_append]
    exact .round ha ha' (Grammar.spellsAll_singleton.mp hrest)
  | leave =>
    obtain rfl := hx
    cases Grammar.spellsAll_singleton.mp hps
    exact .leave

end Lookahead
