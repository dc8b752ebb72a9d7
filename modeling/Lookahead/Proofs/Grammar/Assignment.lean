import Lookahead.Proofs.Grammar.Definition

/-! Where the types of quoted literals come from.

A table of tokens only grows: what has a type keeps it (`Extends`). In a combined grammar a
quoted literal has its type from the declared tokens, from a lexer rule that is this literal,
or from a rule that was made for it (`traced_assignment`). Those of parser rules have one
(`isSome_of_mem_atoms`). In a parser grammar the tokens that rules mention have one, too, so that
none of them is found to be without a definition (`exists_lowerRef_eq`). -/
namespace Lookahead
open Grammar

theorem Grammar.quote_injective {s t : String} (h : quote s = quote t) : s = t := by
  simpa [quote] using h

/-- A quoted literal is not the name of a lexer rule. -/
theorem RuleKind.ofName_quote (text : String) : ofName (quote text) = parser := by
  have hquote : Text.isUppercase '\'' = false := by decide +kernel
  unfold ofName
  simp [quote, hquote]

/-! ### Tables of tokens -/

namespace TokenTable
variable {t t' t'' : TokenTable} {name name' : String} {type type' : TokenType}

/-- What has a type keeps it. -/
def Extends (t t' : TokenTable) : Prop :=
  ∀ name type, t.type? name = some type → t'.type? name = some type

theorem Extends.refl (t : TokenTable) : t.Extends t := fun _ _ h => h

theorem Extends.trans (h : t.Extends t') (h' : t'.Extends t'') : t.Extends t'' :=
  fun name type hname => h' name type (h name type hname)

theorem Extends.isSome (h : t.Extends t') (hname : (t.type? name).isSome) :
    (t'.type? name).isSome := by
  obtain ⟨type, htype⟩ := Option.isSome_iff_exists.mp hname
  exact Option.isSome_iff_exists.mpr ⟨type, h name type htype⟩

/-- One more name at the end. -/
theorem type?_snoc (names : List String) :
    type? ⟨names, t.types ++ [(name, type)]⟩ name' =
      (t.type? name').or (if name' == name then some type else none) := by
  rw [type?, type?, List.lookup_append]
  cases h : name' == name <;> simp [List.lookup_cons, h]

theorem extends_snoc (names : List String) : t.Extends ⟨names, t.types ++ [(name, type)]⟩ := by
  intro m ty h
  rw [type?_snoc, h]
  rfl

theorem extends_define : t.Extends (t.define name).2 := by
  unfold define
  split
  · exact .refl t
  · exact extends_snoc _

theorem extends_rename : t.Extends (t.rename name type) := by
  unfold rename
  split
  · exact .refl t
  · exact extends_snoc _

theorem type?_snoc_cases {names : List String}
    (h : type? ⟨names, t.types ++ [(name, type)]⟩ name' = some type') :
    t.type? name' = some type' ∨ name' = name ∧ type' = type := by
  rw [type?_snoc, Option.or_eq_some_iff] at h
  refine h.imp_right fun ⟨_, h⟩ => ?_
  split at h
  · next hname => exact ⟨eq_of_beq hname, (Option.some.inj h).symm⟩
  · exact nomatch h

theorem type?_define_cases (h : (t.define name).2.type? name' = some type') :
    t.type? name' = some type' ∨ name' = name ∧ type' = (t.define name).1 := by
  unfold define at h ⊢
  split at h
  · exact .inl h
  · exact type?_snoc_cases h

theorem type?_rename_cases (h : (t.rename name type).type? name' = some type') :
    t.type? name' = some type' ∨ name' = name ∧ type' = type := by
  unfold rename at h
  split at h
  · exact .inl h
  · exact type?_snoc_cases h

theorem type?_define_self : (t.define name).2.type? name = some (t.define name).1 := by
  unfold define
  split
  · assumption
  · next hnone =>
    rw [type?_snoc, hnone]
    simp

theorem isSome_type?_rename : ((t.rename name type).type? name).isSome := by
  unfold rename
  split
  · next hsome => simp [hsome]
  · next hnone =>
    rw [type?_snoc, hnone]
    simp

/-- What one step of an assignment does to the table: nothing, one more token, or one more token
and another name of it. -/
inductive Grows (t : TokenTable) : TokenTable → Prop where
  | same : Grows t t
  | token (name : String) : Grows t (t.define name).2
  | named (name name' : String) : Grows t ((t.define name).2.rename name' (t.define name).1)

theorem Grows.extends (h : t.Grows t') : t.Extends t' := by
  cases h with
  | same => exact .refl t
  | token => exact extends_define
  | named => exact extends_define.trans extends_rename

end TokenTable

/-! ### The steps of an assignment -/

namespace GrammarDefinition

/-- A lexer rule that makes a token of a single literal. -/
def Makes (r : RuleDefinition) (text : String) : Prop :=
  RuleKind.ofName r.name = .lexer ∧ r.fragment = false ∧ r.body = .literal text

namespace Assignment
variable {kind : GrammarKind} {a : Assignment} {text : String} {type : TokenType}

theorem grows_declare (t : TokenDefinition) : a.tokens.Grows (declare kind a t).tokens := by
  unfold declare
  simp only
  split
  · exact .token _
  · split
    · exact .token _
    · exact .token _
    · exact .named _ _

theorem grows_defineRule (r : RuleDefinition) : a.tokens.Grows (a.defineRule r).tokens := by
  unfold defineRule
  split
  · simp only
    split
    · exact .named _ _
    · exact .token _
  · exact .same

/-- A rule only gives types. -/
theorem defineRule_eq (a : Assignment) (r : RuleDefinition) :
    defineRule a r = { a with tokens := (defineRule a r).tokens } := by
  unfold defineRule
  split
  · simp only
    split <;> rfl
  · rfl

theorem grows_mention (e : Expr) : a.tokens.Grows (mention kind a e).tokens := by
  unfold mention
  split
  · split
    · exact .token _
    · exact .same
  · split
    · exact .token _
    · exact .same
  · exact .same

theorem extends_declare (t : TokenDefinition) : a.tokens.Extends (declare kind a t).tokens :=
  (grows_declare t).extends

theorem extends_defineRule (r : RuleDefinition) : a.tokens.Extends (a.defineRule r).tokens :=
  (grows_defineRule r).extends

theorem extends_mention (e : Expr) : a.tokens.Extends (mention kind a e).tokens :=
  (grows_mention e).extends

/-- What one step brings about and all of them keep holds after all of them. -/
theorem foldl_of_mem {α : Type} {f : Assignment → α → Assignment} {P : Assignment → Prop}
    (hkeep : ∀ a x, P a → P (f a x)) {xs : List α} {x : α} (hx : x ∈ xs) (h : ∀ a, P (f a x)) :
    P (xs.foldl f a) := by
  obtain ⟨before, after, rfl⟩ := List.append_of_mem hx
  rw [List.foldl_append, List.foldl_cons]
  exact List.foldlRecOn after _ (h _) fun a ha y _ => hkeep a y ha

section
variable {α : Type} {f : Assignment → α → Assignment} {xs : List α}
  (hf : ∀ (a : Assignment) (x : α), a.tokens.Extends (f a x).tokens)
include hf

theorem extends_foldl (xs : List α) : a.tokens.Extends (xs.foldl f a).tokens := by
  induction xs generalizing a with
  | nil => exact .refl _
  | cons x xs ih => exact (hf a x).trans ih

/-- What one step gives a type to has one after all of them. -/
theorem isSome_foldl {name : String} {x : α} (hx : x ∈ xs)
    (h : ∀ a : Assignment, ((f a x).tokens.type? name).isSome) :
    ((xs.foldl f a).tokens.type? name).isSome :=
  foldl_of_mem (fun a x hname => (hf a x).isSome hname) hx h

end

theorem extends_mentionAll (r : RuleDefinition) :
    a.tokens.Extends (mentionAll kind a r).tokens := by
  unfold mentionAll
  split
  · exact extends_foldl (fun _ => extends_mention) _
  · exact .refl _

/-- A rule of a single literal gives it a type. -/
theorem isSome_defineRule {r : RuleDefinition} (hr : Makes r text) :
    ((a.defineRule r).tokens.type? (quote text)).isSome := by
  obtain ⟨hkind, hfragment, hbody⟩ := hr
  rw [defineRule, if_pos ⟨hkind, hfragment⟩, hbody]
  exact TokenTable.isSome_type?_rename

/-- A rule that makes tokens gives its name a type. -/
theorem isSome_name_defineRule {r : RuleDefinition} (hkind : RuleKind.ofName r.name = .lexer)
    (hfragment : r.fragment = false) : ((a.defineRule r).tokens.type? r.name).isSome := by
  rw [defineRule, if_pos ⟨hkind, hfragment⟩]
  have hname : ((a.tokens.define r.name).2.type? r.name).isSome := by
    rw [TokenTable.type?_define_self]
    rfl
  simp only
  split
  · exact TokenTable.extends_rename.isSome hname
  · exact hname

theorem isSome_mention :
    ((mention .combined a (.literal text)).tokens.type? (quote text)).isSome := by
  rw [mention]
  split
  · simp only [TokenTable.type?_define_self, Option.isSome_some]
  · next h =>
    simp only [true_and, Option.isNone_iff_eq_none] at h
    exact Option.isSome_iff_ne_none.mpr h

/-! ### The whole assignment -/

section
variable {d : GrammarDefinition} {rules : List RuleDefinition} {a' : Assignment}

/-- What is declared or defined has a type. -/
structure Settled (d : GrammarDefinition) (rules : List RuleDefinition) (a : Assignment) :
    Prop where
  token : ∀ t ∈ d.tokens, (a.tokens.type? t.name).isSome
  declared : d.kind = .combined → ∀ t ∈ d.tokens, ∀ text, t.literal = some text →
    (a.tokens.type? (quote text)).isSome
  rule : ∀ r ∈ rules, RuleKind.ofName r.name = .lexer → r.fragment = false →
    (a.tokens.type? r.name).isSome
  literal : ∀ r ∈ rules, ∀ text, Makes r text → (a.tokens.type? (quote text)).isSome

theorem Settled.mono (h : Settled d rules a) (hextends : a.tokens.Extends a'.tokens) :
    Settled d rules a' where
  token t ht := hextends.isSome (h.token t ht)
  declared hkind t ht text htext := hextends.isSome (h.declared hkind t ht text htext)
  rule r hr hkind hfragment := hextends.isSome (h.rule r hr hkind hfragment)
  literal r hr text hmakes := hextends.isSome (h.literal r hr text hmakes)

theorem isSome_declare (t : TokenDefinition) :
    ((declare kind a t).tokens.type? t.name).isSome := by
  have hname : ((a.tokens.define t.name).2.type? t.name).isSome := by
    rw [TokenTable.type?_define_self]
    rfl
  unfold declare
  simp only
  split
  · exact hname
  · split
    · exact hname
    · exact hname
    · exact TokenTable.extends_rename.isSome hname

theorem isSome_literal_declare {t : TokenDefinition} (htext : t.literal = some text) :
    ((declare .combined a t).tokens.type? (quote text)).isSome := by
  simp only [declare, htext]
  exact TokenTable.isSome_type?_rename

/-- All is settled before parser rules are looked at. -/
theorem settled_defined (d : GrammarDefinition) (rules : List RuleDefinition) :
    Settled d rules (rules.foldl defineRule (d.tokens.foldl (declare d.kind) .empty)) := by
  have hrules {a : Assignment} : a.tokens.Extends (rules.foldl defineRule a).tokens :=
    extends_foldl (fun _ => extends_defineRule) rules
  have htokens {t : TokenDefinition} (ht : t ∈ d.tokens) {name : String}
      (h : ∀ a : Assignment, ((declare d.kind a t).tokens.type? name).isSome) :=
    hrules.isSome (isSome_foldl (a := .empty) (fun _ => extends_declare) ht h)
  constructor
  case token => exact fun t ht => htokens ht fun _ => isSome_declare t
  case declared =>
    intro hkind t ht text htext
    refine htokens ht fun a => ?_
    rw [hkind]
    exact isSome_literal_declare htext
  case rule =>
    exact fun r hr hkind hfragment =>
      isSome_foldl (fun _ => extends_defineRule) hr fun _ => isSome_name_defineRule hkind hfragment
  case literal =>
    exact fun r hr text hmakes =>
      isSome_foldl (fun _ => extends_defineRule) hr fun _ => isSome_defineRule hmakes

/-- What holds of the declared tokens and is kept by each later step holds in the end. Parser rules
are looked at when all else is settled. -/
theorem assignment_of_declared {P : Assignment → Prop}
    (declared : P (d.tokens.foldl (Assignment.declare d.kind) .empty))
    (defineRule : ∀ a, P a → ∀ r ∈ rules, P (defineRule a r))
    (mention : ∀ a, P a → Settled d rules a → ∀ r ∈ rules, RuleKind.ofName r.name = .parser →
      ∀ e ∈ r.body.atoms, P (mention d.kind a e)) : P (d.assignment rules) := by
  have hdefined : P (rules.foldl Assignment.defineRule
      (d.tokens.foldl (Assignment.declare d.kind) .empty)) :=
    List.foldlRecOn rules _ declared defineRule
  let Q (a : Assignment) : Prop := P a ∧ Settled d rules a
  have hstart : Q _ := ⟨hdefined, settled_defined d rules⟩
  have hall : Q (d.assignment rules) := by
    refine List.foldlRecOn rules _ hstart fun a h r hr => ?_
    unfold mentionAll
    split
    · next hparser =>
      refine List.foldlRecOn r.body.atoms _ h fun a h e he => ?_
      exact ⟨mention a h.1 h.2 r hr hparser e he, h.2.mono (extends_mention e)⟩
    · exact h
  exact hall.1

/-- What holds at the start and is kept by each step holds in the end. -/
theorem assignment_induction {P : Assignment → Prop} (empty : P .empty)
    (declare : ∀ a, P a → ∀ t ∈ d.tokens, P (declare d.kind a t))
    (defineRule : ∀ a, P a → ∀ r ∈ rules, P (defineRule a r))
    (mention : ∀ a, P a → Settled d rules a → ∀ r ∈ rules, RuleKind.ofName r.name = .parser →
      ∀ e ∈ r.body.atoms, P (mention d.kind a e)) : P (d.assignment rules) :=
  assignment_of_declared (List.foldlRecOn d.tokens _ empty declare) defineRule mention

/-- What holds of the table at the start and is kept wherever it grows holds in the end. -/
theorem tokens_induction {P : TokenTable → Prop} (empty : P .empty)
    (grows : ∀ t t', P t → t.Grows t' → P t') : P (d.assignment rules).tokens :=
  assignment_induction (P := fun a => P a.tokens) empty
    (fun _ h t _ => grows _ _ h (grows_declare t)) (fun _ h r _ => grows _ _ h (grows_defineRule r))
    fun _ h _ _ _ _ e _ => grows _ _ h (grows_mention e)

end

/-! ### Where the types come from -/

/-- Where a quoted literal has its type from. -/
def Accounted (d : GrammarDefinition) (rules : List RuleDefinition) (a : Assignment)
    (text : String) (type : TokenType) : Prop :=
  quote text ∈ d.tokens.map (·.name) ∨ (∃ l ∈ a.literals, l.text = text ∧ l.tokenType = type) ∨
    ∃ r ∈ rules, Makes r text ∧ a.tokens.type? r.name = some type

/-- The type of each quoted literal comes from somewhere. A rule that a literal needs is named
after the token of its type, unless no rule is this literal. -/
structure Traced (d : GrammarDefinition) (rules : List RuleDefinition) (a : Assignment) : Prop where
  quoted : ∀ text type, a.tokens.type? (quote text) = some type → Accounted d rules a text type
  literals : ∀ l ∈ a.literals, a.tokens.type? l.name = some l.tokenType ∨
    ∀ r ∈ rules, ¬Makes r l.text

section
variable {d : GrammarDefinition} {rules : List RuleDefinition} {a' : Assignment}

/-- After a step that adds some literals, only new types have to be accounted for. -/
theorem Traced.step (h : Traced d rules a) (hextends : a.tokens.Extends a'.tokens)
    {added : List LiteralRule} (hliterals : a'.literals = a.literals ++ added)
    (hquoted : ∀ text type, a'.tokens.type? (quote text) = some type →
      a.tokens.type? (quote text) = some type ∨ Accounted d rules a' text type)
    (hadded : ∀ l ∈ added, a'.tokens.type? l.name = some l.tokenType ∨
      ∀ r ∈ rules, ¬Makes r l.text) : Traced d rules a' := by
  refine ⟨fun text type htype => ?_, fun l hl => ?_⟩
  · refine (hquoted text type htype).elim (fun hold => ?_) id
    rcases h.quoted text type hold with hname | ⟨l, hl, htext⟩ | ⟨r, hr, hmakes, hname⟩
    · exact .inl hname
    · exact .inr (.inl ⟨l, hliterals ▸ List.mem_append_left _ hl, htext⟩)
    · exact .inr (.inr ⟨r, hr, hmakes, hextends _ _ hname⟩)
  · rw [hliterals] at hl
    rcases List.mem_append.mp hl with hl | hl
    · exact (h.literals l hl).imp_left (hextends _ _)
    · exact hadded l hl

theorem Traced.empty : Traced d rules .empty := ⟨nofun, nofun⟩

theorem Traced.declare (hkind : d.kind = .combined) (h : Traced d rules a) {t : TokenDefinition}
    (ht : t ∈ d.tokens) : Traced d rules (declare d.kind a t) := by
  have hextends : a.tokens.Extends (GrammarDefinition.Assignment.declare d.kind a t).tokens :=
    extends_declare t
  have hdeclared {text : String} (htext : quote text = t.name) :
      quote text ∈ d.tokens.map (·.name) := htext ▸ List.mem_map_of_mem ht
  unfold GrammarDefinition.Assignment.declare at hextends ⊢
  rw [hkind] at hextends ⊢
  simp only at hextends ⊢
  cases hliteral : t.literal with
  | none =>
    rw [hliteral] at hextends
    refine h.step hextends (List.append_nil _).symm (fun text type htype => ?_) nofun
    exact (TokenTable.type?_define_cases htype).imp_right fun hnew => .inl (hdeclared hnew.1)
  | some literal =>
    rw [hliteral] at hextends
    refine h.step hextends rfl (fun text type htype => ?_) fun l hl => ?_
    · rcases TokenTable.type?_rename_cases htype with htype | ⟨htext, rfl⟩
      · exact (TokenTable.type?_define_cases htype).imp_right fun hnew => .inl (hdeclared hnew.1)
      · obtain rfl := quote_injective htext
        exact .inr (.inr (.inl ⟨_, List.mem_append_right _ (.head _), rfl, rfl⟩))
    · obtain rfl := List.mem_singleton.mp hl
      exact .inl (TokenTable.extends_rename _ _ TokenTable.type?_define_self)

theorem Traced.defineRule (h : Traced d rules a) {r : RuleDefinition} (hr : r ∈ rules) :
    Traced d rules (a.defineRule r) := by
  have hextends := extends_defineRule (a := a) r
  unfold GrammarDefinition.Assignment.defineRule at hextends ⊢
  split
  next hlexer =>
    have hname {text : String} : quote text ≠ r.name := fun heq => by
      rw [← heq, RuleKind.ofName_quote] at hlexer
      exact nomatch hlexer.1
    rw [if_pos hlexer] at hextends
    simp only at hextends ⊢
    split
    · next literal hbody =>
      rw [hbody] at hextends
      refine h.step hextends (List.append_nil _).symm (fun text type htype => ?_) nofun
      rcases TokenTable.type?_rename_cases htype with htype | ⟨htext, rfl⟩
      · exact .inl ((TokenTable.type?_define_cases htype).resolve_right fun hnew => hname hnew.1)
      · obtain rfl := quote_injective htext
        exact .inr (.inr (.inr ⟨r, hr, ⟨hlexer.1, hlexer.2, hbody⟩,
          TokenTable.extends_rename _ _ TokenTable.type?_define_self⟩))
    · next hbody =>
      refine h.step TokenTable.extends_define (List.append_nil _).symm
        (fun text type htype => ?_) nofun
      exact .inl ((TokenTable.type?_define_cases htype).resolve_right fun hnew => hname hnew.1)
  next => exact h

/-- Once the rules have their types, a literal without a type is no rule. -/
theorem Traced.mention (h : Traced d rules a) (hsettled : Settled d rules a) (e : Expr) :
    Traced d rules (mention .combined a e) := by
  have hextends : a.tokens.Extends (GrammarDefinition.Assignment.mention .combined a e).tokens :=
    extends_mention e
  unfold GrammarDefinition.Assignment.mention at hextends ⊢
  split
  next literal =>
    split
    next hnew =>
      refine h.step TokenTable.extends_define rfl (fun text type htype => ?_) fun l hl => ?_
      · refine (TokenTable.type?_define_cases htype).imp_right fun ⟨htext, heq⟩ => ?_
        obtain rfl := quote_injective htext
        exact .inr (.inl ⟨_, List.mem_append_right _ (.head _), rfl, heq.symm⟩)
      · obtain rfl := List.mem_singleton.mp hl
        refine .inr fun r hr hmakes => ?_
        have hsome := hsettled.literal r hr _ hmakes
        rw [Option.isNone_iff_eq_none.mp hnew.2] at hsome
        exact nomatch hsome
    next => exact h
  next =>
    split
    next hkind => exact nomatch hkind.1
    next => exact h
  next => exact h

end
end Assignment

open Assignment

section
variable {d : GrammarDefinition}

/-- The types of all quoted literals of a combined grammar come from somewhere. -/
theorem traced_assignment (hkind : d.kind = .combined) (rules : List RuleDefinition) :
    Traced d rules (d.assignment rules) := by
  refine assignment_induction .empty (fun a h t ht => h.declare hkind ht)
    (fun a h r hr => h.defineRule hr) fun a h hsettled r _ _ e _ => ?_
  rw [hkind]
  exact h.mention hsettled e

theorem settled_assignment (d : GrammarDefinition) (rules : List RuleDefinition) :
    Settled d rules (d.assignment rules) :=
  (settled_defined d rules).mono (extends_foldl (fun _ => extends_mentionAll) rules)

/-- What a part of a parser rule gives a type to has one in the end. -/
theorem isSome_of_mention {rules : List RuleDefinition} {r : RuleDefinition} (hr : r ∈ rules)
    (hparser : RuleKind.ofName r.name = .parser) {e : Expr} (he : e ∈ r.body.atoms) {name : String}
    (h : ∀ a : Assignment, ((mention d.kind a e).tokens.type? name).isSome) :
    ((d.assignment rules).tokens.type? name).isSome := by
  refine isSome_foldl (fun _ => extends_mentionAll) hr fun a => ?_
  rw [mentionAll, if_pos hparser]
  exact isSome_foldl (fun _ => extends_mention) he h

/-- The literals of the parser rules of a combined grammar have types. -/
theorem isSome_of_mem_atoms (hkind : d.kind = .combined) {rules : List RuleDefinition}
    {r : RuleDefinition} (hr : r ∈ rules) (hparser : RuleKind.ofName r.name = .parser)
    {text : String} (htext : .literal text ∈ r.body.atoms) :
    ((d.assignment rules).tokens.type? (quote text)).isSome :=
  isSome_of_mention hr hparser htext fun _ => hkind ▸ isSome_mention

/-- So have the tokens that the parser rules of a parser grammar mention. -/
theorem isSome_of_ref_mem_atoms (hkind : d.kind = .parser) {rules : List RuleDefinition}
    {r : RuleDefinition} (hr : r ∈ rules) (hparser : RuleKind.ofName r.name = .parser)
    {name : String} (hname : RuleKind.ofName name = .lexer) (href : .ref name ∈ r.body.atoms) :
    ((d.assignment rules).tokens.type? name).isSome := by
  refine isSome_of_mention hr hparser href fun a => ?_
  rw [hkind, mention, if_pos ⟨rfl, hname⟩, TokenTable.type?_define_self]
  rfl

/-- A parser grammar has no token without a definition: whichever token a rule mentions is found
when the rule is lowered. -/
theorem exists_lowerRef_eq (hkind : d.kind = .parser) {rules : List RuleDefinition}
    {r : RuleDefinition} (hr : r ∈ rules) (hparser : RuleKind.ofName r.name = .parser)
    {name : String} (hname : RuleKind.ofName name = .lexer) (href : .ref name ∈ r.body.atoms)
    (names : List String) (id : RuleId) :
    ∃ type, (d.assignment rules).tokens.type? name = some type ∧
      lowerRef ⟨d.kind, (d.assignment rules).tokens, names, id, r.name, .parser⟩ name =
        pure [.symbols (.single (.ofTokenType type))] := by
  obtain ⟨type, htype⟩ :=
    Option.isSome_iff_exists.mp (isSome_of_ref_mem_atoms hkind hr hparser hname href)
  refine ⟨type, htype, ?_⟩
  rw [lowerRef, if_pos ⟨rfl, hname⟩]
  simp only [htype]

end
end GrammarDefinition
end Lookahead
