import Lookahead.Proofs.Grammar.Dispatch

/-! What has a type, which type, and what the rules of literals are there for.

Names only get types that have been handed out (`TokenTable.Handed`). A capitalized name has one
if it is declared or names a lexer rule that makes tokens, and outside parser grammars only then
(`isSome_type?_iff`). The rule of a literal belongs to a declared token that has the literal, or
to a parser rule that has it where nothing else gives it a type (`Source`). -/
namespace Lookahead
open Grammar

namespace TokenTable
variable {t : TokenTable} {name : String} {type : TokenType}

/-- One more type is one above those that were handed out before. -/
theorem maxType_snoc (types : List (String × TokenType)) :
    maxType ⟨t.names ++ [name], types⟩ = firstTokenType + t.names.length := by
  simp [maxType, Nat.add_sub_assoc]

/-- All types that names have are handed out. -/
def Handed (t : TokenTable) : Prop :=
  ∀ name type, t.type? name = some type → firstTokenType ≤ type ∧ type ≤ t.maxType

theorem Handed.define (h : t.Handed) (name : String) : (t.define name).2.Handed := by
  unfold TokenTable.define
  split
  · exact h
  · intro name' type' htype
    rw [maxType_snoc]
    rcases type?_snoc_cases htype with hold | ⟨rfl, rfl⟩
    · obtain ⟨hle, hmax⟩ := h _ _ hold
      exact ⟨hle, Nat.le_trans hmax (Nat.sub_le _ _)⟩
    · exact ⟨Nat.le_add_right _ _, Nat.le_refl _⟩

theorem Handed.define_type (h : t.Handed) (name : String) :
    firstTokenType ≤ (t.define name).1 ∧ (t.define name).1 ≤ (t.define name).2.maxType :=
  h.define name _ _ type?_define_self

theorem Handed.rename (h : t.Handed) (htype : firstTokenType ≤ type ∧ type ≤ t.maxType)
    (name : String) : (t.rename name type).Handed := by
  unfold TokenTable.rename
  split
  · exact h
  · intro name' type' htype'
    rcases type?_snoc_cases htype' with hold | ⟨_, rfl⟩
    · exact h _ _ hold
    · exact htype

theorem Handed.grows {t' : TokenTable} (h : t.Handed) (hgrows : t.Grows t') : t'.Handed := by
  cases hgrows with
  | same => exact h
  | token name => exact h.define name
  | named name name' => exact (h.define name).rename (h.define_type name) name'

end TokenTable

namespace GrammarDefinition
namespace Assignment
variable {d : GrammarDefinition} {rules : List RuleDefinition} {kind : GrammarKind}
  {a a' : Assignment} {name : String} {type : TokenType}

/-! ### Types -/

theorem handed_assignment (d : GrammarDefinition) (rules : List RuleDefinition) :
    (d.assignment rules).tokens.Handed :=
  tokens_induction nofun fun _ _ h hgrows => h.grows hgrows

/-! ### Names -/

theorem type?_declare_cases {t : TokenDefinition}
    (h : (declare kind a t).tokens.type? name = some type) :
    a.tokens.type? name = some type ∨ name = t.name ∨ ∃ text, name = quote text := by
  unfold declare at h
  simp only at h
  have hdefine (h : (a.tokens.define t.name).2.type? name = some type) :
      a.tokens.type? name = some type ∨ name = t.name ∨ ∃ text, name = quote text :=
    (TokenTable.type?_define_cases h).imp_right fun hnew => .inl hnew.1
  split at h
  · exact hdefine h
  · split at h
    · exact hdefine h
    · exact hdefine h
    · rcases TokenTable.type?_rename_cases h with h | ⟨hname, _⟩
      · exact hdefine h
      · exact .inr (.inr ⟨_, hname⟩)

theorem type?_defineRule_cases {r : RuleDefinition}
    (h : (defineRule a r).tokens.type? name = some type) :
    a.tokens.type? name = some type ∨ (r.fragment = false ∧ r.name = name) ∨
      ∃ text, name = quote text := by
  unfold defineRule at h
  split at h
  · next hmakes =>
    simp only at h
    have hdefine (h : (a.tokens.define r.name).2.type? name = some type) :
        a.tokens.type? name = some type ∨ (r.fragment = false ∧ r.name = name) ∨
          ∃ text, name = quote text :=
      (TokenTable.type?_define_cases h).imp_right fun hnew => .inl ⟨hmakes.2, hnew.1.symm⟩
    split at h
    · rcases TokenTable.type?_rename_cases h with h | ⟨hname, _⟩
      · exact hdefine h
      · exact .inr (.inr ⟨_, hname⟩)
    · exact hdefine h
  · exact .inl h

theorem type?_mention_cases (hkind : kind ≠ .parser) {e : Expr}
    (h : (mention kind a e).tokens.type? name = some type) :
    a.tokens.type? name = some type ∨ ∃ text, name = quote text := by
  unfold mention at h
  split at h
  · split at h
    · exact (TokenTable.type?_define_cases h).imp_right fun hnew => ⟨_, hnew.1⟩
    · exact .inl h
  · rw [if_neg fun hparser => hkind hparser.1] at h
    exact .inl h
  · exact .inl h

/-- Outside parser grammars the capitalized names with types are those of declared tokens and of
lexer rules that make tokens. -/
theorem isSome_type?_iff (hkind : d.kind ≠ .parser) (hname : RuleKind.ofName name = .lexer) :
    ((d.assignment rules).tokens.type? name).isSome ↔
      name ∈ d.tokens.map (·.name) ∨ ∃ r ∈ rules, r.fragment = false ∧ r.name = name := by
  have hsettled := settled_assignment d rules
  constructor
  · let P (a : Assignment) : Prop := ∀ type, a.tokens.type? name = some type →
      name ∈ d.tokens.map (·.name) ∨ ∃ r ∈ rules, r.fragment = false ∧ r.name = name
    have hempty : P .empty := nofun
    have hquote {text : String} (h : name = quote text) : False := by
      rw [h, RuleKind.ofName_quote] at hname
      exact nomatch hname
    have hall : P (d.assignment rules) := by
      refine assignment_induction hempty (fun a h t ht type htype => ?_)
        (fun a h r hr type htype => ?_) fun a h _ _ _ _ e _ type htype => ?_
      · rcases type?_declare_cases htype with hold | rfl | ⟨text, htext⟩
        · exact h type hold
        · exact .inl (List.mem_map_of_mem ht)
        · exact (hquote htext).elim
      · rcases type?_defineRule_cases htype with hold | hr' | ⟨text, htext⟩
        · exact h type hold
        · exact .inr ⟨r, hr, hr'⟩
        · exact (hquote htext).elim
      · rcases type?_mention_cases hkind htype with hold | ⟨text, htext⟩
        · exact h type hold
        · exact (hquote htext).elim
    intro hsome
    obtain ⟨type, htype⟩ := Option.isSome_iff_exists.mp hsome
    exact hall type htype
  · rintro (hdeclared | ⟨r, hr, hfragment, rfl⟩)
    · obtain ⟨t, ht, rfl⟩ := List.mem_map.mp hdeclared
      exact hsettled.token t ht
    · exact hsettled.rule r hr hname hfragment

/-! ### The rules of literals -/

/-- Nothing but parser rules gives the literal a type. -/
structure Unclaimed (d : GrammarDefinition) (rules : List RuleDefinition) (text : String) :
    Prop where
  token : quote text ∉ d.tokens.map (·.name)
  declared : ∀ t ∈ d.tokens, t.literal ≠ some text
  rule : ∀ r ∈ rules, ¬Makes r text

/-- A parser rule has the literal, and nothing else gives it a type. -/
def Mentioned (d : GrammarDefinition) (rules : List RuleDefinition) (text : String) : Prop :=
  (∃ r ∈ rules, RuleKind.ofName r.name = .parser ∧ .literal text ∈ r.body.atoms) ∧
    Unclaimed d rules text

/-- The name of the rule for a type that has no name but a quoted literal. -/
def typeName (type : TokenType) : String := "T__" ++ toString type

/-- What the rule of a literal is there for. -/
inductive Source (d : GrammarDefinition) (rules : List RuleDefinition) (a : Assignment)
    (l : LiteralRule) : Prop where
  | declared (t : TokenDefinition) (ht : t ∈ d.tokens) (hliteral : t.literal = some l.text)
    (hname : l.name = t.name) (htype : a.tokens.type? t.name = some l.tokenType)
  | mentioned (h : Mentioned d rules l.text) (hname : l.name = typeName l.tokenType)
    (htype : a.tokens.type? (quote l.text) = some l.tokenType)

section
variable {l : LiteralRule}

theorem Source.mono (h : Source d rules a l) (hextends : a.tokens.Extends a'.tokens) :
    Source d rules a' l := by
  cases h with
  | declared t ht hliteral hname htype => exact .declared t ht hliteral hname (hextends _ _ htype)
  | mentioned h hname htype => exact .mentioned h hname (hextends _ _ htype)

theorem Source.exists_type (h : Source d rules a l) :
    ∃ name, a.tokens.type? name = some l.tokenType := by
  cases h with
  | declared t _ _ _ htype => exact ⟨_, htype⟩
  | mentioned _ _ htype => exact ⟨_, htype⟩

theorem mem_literals_declare {t : TokenDefinition} (h : l ∈ (declare kind a t).literals) :
    l ∈ a.literals ∨ kind = .combined ∧ t.literal = some l.text ∧ l.name = t.name ∧
      (declare kind a t).tokens.type? t.name = some l.tokenType := by
  unfold declare at h ⊢
  cases hliteral : t.literal with
  | none =>
    rw [hliteral] at h
    exact .inl h
  | some literal =>
    rw [hliteral] at h
    cases kind with
    | lexer | parser => exact .inl h
    | combined =>
      refine (List.mem_append.mp h).imp_right fun hnew => ?_
      obtain rfl := List.mem_singleton.mp hnew
      exact ⟨rfl, rfl, rfl, TokenTable.extends_rename _ _ TokenTable.type?_define_self⟩

theorem subset_declare (t : TokenDefinition) : a.literals ⊆ (declare kind a t).literals := by
  unfold declare
  cases t.literal with
  | none => exact List.Subset.refl _
  | some literal =>
    cases kind with
    | lexer | parser => exact List.Subset.refl _
    | combined => exact List.subset_append_left _ _

theorem literals_defineRule (a : Assignment) (r : RuleDefinition) :
    (defineRule a r).literals = a.literals := by
  rw [defineRule_eq]

theorem mem_literals_mention {e : Expr} (h : l ∈ (mention kind a e).literals) :
    l ∈ a.literals ∨ kind = .combined ∧ e = .literal l.text ∧ a.tokens.type? (quote l.text) = none ∧
      l.name = typeName l.tokenType ∧
      (mention kind a e).tokens.type? (quote l.text) = some l.tokenType := by
  unfold mention at h ⊢
  split at h
  · split at h
    · next hnew =>
      rw [if_pos hnew]
      refine (List.mem_append.mp h).imp_right fun hmem => ?_
      obtain rfl := List.mem_singleton.mp hmem
      exact ⟨hnew.1, rfl, Option.isNone_iff_eq_none.mp hnew.2, rfl, TokenTable.type?_define_self⟩
    · exact .inl h
  · split at h <;> exact .inl h
  · exact .inl h

theorem subset_mention (e : Expr) : a.literals ⊆ (mention kind a e).literals := by
  unfold mention
  split
  · split
    · exact List.subset_append_left _ _
    · exact List.Subset.refl _
  · split <;> exact List.Subset.refl _
  · exact List.Subset.refl _

/-- Once the rest is settled, a literal without a type is only mentioned. -/
theorem Settled.mentioned (h : Settled d rules a) (hkind : d.kind = .combined) {r : RuleDefinition}
    (hr : r ∈ rules) (hparser : RuleKind.ofName r.name = .parser) {text : String}
    (htext : .literal text ∈ r.body.atoms) (hnone : a.tokens.type? (quote text) = none) :
    Mentioned d rules text := by
  have hnot : ¬(a.tokens.type? (quote text)).isSome := by simp [hnone]
  refine ⟨⟨r, hr, hparser, htext⟩, fun htoken => ?_, fun t ht hliteral => ?_,
    fun r' hr' hmakes => ?_⟩
  · obtain ⟨t, ht, hname⟩ := List.mem_map.mp htoken
    exact hnot (hname ▸ h.token t ht)
  · exact hnot (h.declared hkind t ht text hliteral)
  · exact hnot (h.literal r' hr' text hmakes)

/-- Only combined grammars have rules for literals, each of which is there for something. -/
theorem source_of_mem (hl : l ∈ (d.assignment rules).literals) :
    d.kind = .combined ∧ Source d rules (d.assignment rules) l := by
  let P (a : Assignment) : Prop := ∀ l ∈ a.literals, d.kind = .combined ∧ Source d rules a l
  have hempty : P .empty := nofun
  have hold {a a' : Assignment} (h : P a) (hextends : a.tokens.Extends a'.tokens)
      {l : LiteralRule} (hl : l ∈ a.literals) : d.kind = .combined ∧ Source d rules a' l :=
    (h l hl).imp_right fun hsource => hsource.mono hextends
  have hall : P (d.assignment rules) := by
    refine assignment_induction hempty (fun a h t ht l hl => ?_) (fun a h r _ l hl => ?_)
      fun a h hsettled r hr hparser e he l hl => ?_
    · rcases mem_literals_declare hl with hl | ⟨hkind, hliteral, hname, htype⟩
      · exact hold h (extends_declare t) hl
      · exact ⟨hkind, .declared t ht hliteral hname htype⟩
    · rw [literals_defineRule] at hl
      exact hold h (extends_defineRule r) hl
    · rcases mem_literals_mention hl with hl | ⟨hkind, rfl, hnone, hname, htype⟩
      · exact hold h (extends_mention e) hl
      · exact ⟨hkind, .mentioned (hsettled.mentioned hkind hr hparser he hnone) hname htype⟩
  exact hall l hl

end
end Assignment

open Assignment

/-- Only combined grammars make rules for literals. -/
theorem literals_eq_nil {d : GrammarDefinition} (hkind : d.kind ≠ .combined)
    (rules : List RuleDefinition) : (d.assignment rules).literals = [] :=
  List.eq_nil_iff_forall_not_mem.mpr fun _ hl => hkind (source_of_mem hl).1

/-- Rules make tokens of types that are handed out. -/
theorem Built.handed {d : GrammarDefinition} {g : Grammar} {lowered : List Rule} {draft : Draft}
    (h : Built d g lowered draft) {rule : Rule} (hrule : rule ∈ d.rulesWith lowered)
    {type : TokenType} (htype : rule.tokenType = some type) :
    firstTokenType ≤ type ∧ type ≤ g.tokens.maxType := by
  rw [h.tokens]
  rcases mem_addLiterals hrule with hrule | ⟨l, hl, hof, _⟩
  · obtain ⟨r, _, id, draft', rfl⟩ := h.mem_lowered hrule
    rw [(header_lowerRule ..).2.2, tokenTypeOf] at htype
    split at htype
    · exact handed_assignment d _ _ _ htype
    · exact nomatch htype
  · obtain rfl := Option.some.inj (hof.tokenType.symm.trans htype)
    obtain ⟨name, hname⟩ := (source_of_mem hl).2.exists_type
    exact handed_assignment d _ _ _ hname

end GrammarDefinition
end Lookahead
