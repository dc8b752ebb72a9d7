import Lookahead.Proofs.Grammar.Faults

/-! Which definitions have grammars.

What a definition must be like is said of the definition as it is written (`WellDefined`), though
errors come up in passes that hand out types and names while they go. Nothing is lost by that. A
rule that is not accepted is an error in itself, so in the passes after it all rules may be taken
to be there; and which names have types in the end does not depend on the order in which they got
them. The rule that chooses the next token is the one case where the types show: the rule of a
literal is named after its type, and is left out if a rule has that name. -/
namespace Lookahead.GrammarDefinition
open Grammar Assignment

variable (d : GrammarDefinition)

/-! ### Definitions -/

/-- What a part of a parser rule may be. A capitalized name is that of a token, which must be known
in a combined grammar; any other name is that of a parser rule. -/
def AllowedInParser : Expr → Prop
  | .range _ _ => False
  | .literal _ => d.kind = .combined
  | .ref name =>
    match RuleKind.ofName name with
    | .lexer => d.kind = .combined →
      name ∈ d.tokens.map (·.name) ∨ ∃ r ∈ d.rules, r.fragment = false ∧ r.name = name
    | .parser => name ∈ d.rules.map (·.name)
  | _ => True

/-- What a part of a lexer rule may be: every name is that of a lexer rule. -/
def AllowedInLexer : Expr → Prop
  | .ref name => RuleKind.ofName name = .lexer ∧ name ∈ d.rules.map (·.name)
  | _ => True

/-- The names of the rules that literals get. A declared token with a literal gives its name to the
rule. A literal that only parser rules have gets a name from its type. -/
inductive LiteralName : String → Prop where
  | declared (t : TokenDefinition) (ht : t ∈ d.tokens) (hliteral : t.literal.isSome) :
    LiteralName t.name
  | mentioned (text : String) (type : TokenType) (h : Mentioned d d.rules text)
    (htype : (d.assignment d.rules).tokens.type? (quote text) = some type) :
    LiteralName (typeName type)

/-- Some rule makes tokens: a lexer rule that is no fragment, or the rule of a literal, unless its
name is that of a rule already. -/
def MakesTokens : Prop :=
  (∃ r ∈ d.rules, RuleKind.ofName r.name = .lexer ∧ r.fragment = false) ∨
    d.kind = .combined ∧ ∃ name, d.LiteralName name ∧ name ∉ d.rules.map (·.name)

/-- A definition with nothing wrong. -/
structure WellDefined : Prop where
  /-- The grammar may have all the rules. -/
  kinds : ∀ r ∈ d.rules, (RuleKind.ofName r.name = .lexer → d.kind ≠ .parser) ∧
    (RuleKind.ofName r.name = .parser → d.kind ≠ .lexer)
  names : (d.rules.map (·.name)).Nodup
  /-- Declared tokens may have literals. -/
  declared : ∀ t ∈ d.tokens, t.literal.isSome → d.kind = .combined
  parserRules : ∀ r ∈ d.rules, RuleKind.ofName r.name = .parser →
    ∀ e ∈ r.body.atoms, d.AllowedInParser e
  lexerRules : ∀ r ∈ d.rules, RuleKind.ofName r.name = .lexer →
    ∀ e ∈ r.body.atoms, d.AllowedInLexer e
  /-- A rule that makes tokens adds an element in some alternative. -/
  full : ∀ r ∈ d.rules, RuleKind.ofName r.name = .lexer → r.fragment = false →
    ∃ e ∈ r.body.alternatives, e.isBare = false
  /-- The name of the rule that chooses the next token is free where there is such a rule. -/
  free : d.kind ≠ .parser → d.MakesTokens → tokensRuleName ∉ d.rules.map (·.name) ∧
    ∀ t ∈ d.tokens, t.literal.isSome → t.name ≠ tokensRuleName

variable {d}

theorem excludes_eq_false_iff {grammar : GrammarKind} {rule : RuleKind} :
    excludes grammar rule = false ↔
      (rule = .lexer → grammar ≠ .parser) ∧ (rule = .parser → grammar ≠ .lexer) := by
  cases grammar <;> cases rule <;> simp [excludes]

/-! ### Parts of rules -/

/-- The parts of parser rules can be looked up if they are allowed. In a parser grammar every
capitalized name becomes a token. -/
theorem resolves_parser_iff {r : RuleDefinition} (hr : r ∈ d.rules)
    (hparser : RuleKind.ofName r.name = .parser) (hkind : d.kind ≠ .lexer) {e : Expr}
    (he : e ∈ r.body.atoms) :
    Resolves d.kind (d.assignment d.rules).tokens (d.rules.map (·.name)) .parser e ↔
      d.AllowedInParser e := by
  cases e with
  | range => simp [Resolves, AllowedInParser]
  | literal text =>
    refine ⟨fun h => (h rfl).1, fun hcombined _ => ⟨hcombined, ?_⟩⟩
    exact isSome_of_mem_atoms hcombined hr hparser he
  | ref name =>
    cases hname : RuleKind.ofName name with
    | parser => simp [Resolves, AllowedInParser, hname]
    | lexer =>
      simp only [Resolves, AllowedInParser, hname, and_self, if_true]
      cases hd : d.kind with
      | lexer => exact absurd hd hkind
      | parser =>
        exact iff_of_true (isSome_of_ref_mem_atoms hd hr hparser hname he) (by simp)
      | combined =>
        rw [isSome_type?_iff (by rw [hd]; decide) hname]
        exact ⟨fun h _ => h, fun h => h rfl⟩
  | any | seq | choice | repeated | predicate | action | empty => exact Iff.rfl

theorem resolves_lexer_iff {e : Expr} :
    Resolves d.kind (d.assignment d.rules).tokens (d.rules.map (·.name)) .lexer e ↔
      d.AllowedInLexer e := by
  cases e with
  | range => exact iff_of_true rfl trivial
  | literal => exact iff_of_true nofun trivial
  | ref name => cases hname : RuleKind.ofName name <;> simp [Resolves, AllowedInLexer, hname]
  | any | seq | choice | repeated | predicate | action | empty => exact Iff.rfl

/-- A rule is lowered without errors if its parts are allowed and it is not empty. -/
theorem faultless_iff {r : RuleDefinition} (hr : r ∈ d.rules)
    (hkind : RuleKind.ofName r.name = .parser → d.kind ≠ .lexer) :
    Faultless d.kind (d.assignment d.rules).tokens (d.rules.map (·.name)) r ↔
      (RuleKind.ofName r.name = .parser → ∀ e ∈ r.body.atoms, d.AllowedInParser e) ∧
      (RuleKind.ofName r.name = .lexer → ∀ e ∈ r.body.atoms, d.AllowedInLexer e) ∧
      (RuleKind.ofName r.name = .lexer → r.fragment = false →
        ∃ e ∈ r.body.alternatives, e.isBare = false) := by
  have hsplit : Faultless d.kind (d.assignment d.rules).tokens (d.rules.map (·.name)) r ↔
      (∀ e ∈ r.body.atoms, Resolves d.kind (d.assignment d.rules).tokens (d.rules.map (·.name))
        (.ofName r.name) e) ∧
      (RuleKind.ofName r.name = .lexer → r.fragment = false →
        ∃ e ∈ r.body.alternatives, e.isBare = false) :=
    ⟨fun h => ⟨h.resolves, h.full⟩, fun h => ⟨h.1, h.2⟩⟩
  rw [hsplit]
  cases hname : RuleKind.ofName r.name with
  | parser =>
    have hparts : (∀ e ∈ r.body.atoms, Resolves d.kind (d.assignment d.rules).tokens
        (d.rules.map (·.name)) .parser e) ↔ ∀ e ∈ r.body.atoms, d.AllowedInParser e :=
      forall₂_congr fun e he => resolves_parser_iff hr hname (hkind hname) he
    simp [hparts]
  | lexer =>
    have hparts : (∀ e ∈ r.body.atoms, Resolves d.kind (d.assignment d.rules).tokens
        (d.rules.map (·.name)) .lexer e) ↔ ∀ e ∈ r.body.atoms, d.AllowedInLexer e :=
      forall₂_congr fun e _ => resolves_lexer_iff
    simp [hparts]

/-! ### The choice of the next token -/

/-- The rule that chooses the next token does not have a name that comes from a type. -/
theorem typeName_ne_tokensRuleName (type : TokenType) : typeName type ≠ tokensRuleName := by
  intro h
  have hchars := congrArg (fun s => s.toList[1]?) h
  simp [typeName, tokensRuleName] at hchars

/-- The names of literals' rules are those of the rules that literals get. -/
theorem exists_literal_iff (hkind : d.kind = .combined) {name : String} :
    (∃ l ∈ (d.assignment d.rules).literals, l.name = name) ↔ d.LiteralName name := by
  constructor
  · rintro ⟨l, hl, rfl⟩
    cases (source_of_mem hl).2 with
    | declared t ht hliteral hname _ => exact hname ▸ .declared t ht (by rw [hliteral]; rfl)
    | mentioned h hname htype => exact hname ▸ .mentioned l.text l.tokenType h htype
  · intro h
    cases h with
    | declared t ht hliteral =>
      obtain ⟨text, htext⟩ := Option.isSome_iff_exists.mp hliteral
      let P (a : Assignment) : Prop := ∃ l ∈ a.literals, l.name = t.name
      have hstart : P (d.tokens.foldl (declare d.kind) .empty) := by
        refine foldl_of_mem (fun a t' h => h.imp fun l hl => ⟨subset_declare t' hl.1, hl.2⟩) ht
          fun a => ?_
        rw [hkind]
        simp only [declare, htext]
        exact ⟨_, List.mem_append_right _ (.head _), rfl⟩
      refine assignment_of_declared hstart (fun a h r _ => ?_) fun a h _ _ _ _ e _ =>
        h.imp fun l hl => ⟨subset_mention e hl.1, hl.2⟩
      show ∃ l ∈ (defineRule a r).literals, l.name = t.name
      rwa [literals_defineRule]
    | mentioned text type h htype =>
      -- Nothing else gives the literal its type, so it has a rule, which is not a declared token's.
      rcases (traced_assignment hkind d.rules).quoted text type htype with
        htoken | ⟨l, hl, rfl, rfl⟩ | ⟨r, hr, hmakes, _⟩
      · exact absurd htoken h.2.token
      · cases (source_of_mem hl).2 with
        | declared t ht hliteral _ _ => exact absurd hliteral (h.2.declared t ht)
        | mentioned _ hname _ => exact ⟨l, hl, hname⟩
      · exact absurd hmakes (h.2.rule r hr)

section
variable (hrules : d.accepted.1 = d.rules)
include hrules

theorem names_lowering : d.lowering.1.map (·.name) = d.rules.map (·.name) := by
  rw [lowering, names_lowerRules, hrules]

theorem exists_making_iff : (∃ rule ∈ d.lowering.1, rule.tokenType.isSome = true) ↔
    ∃ r ∈ d.rules, RuleKind.ofName r.name = .lexer ∧ r.fragment = false := by
  rw [lowering, hrules]
  constructor
  · rintro ⟨rule, hrule, htype⟩
    obtain ⟨r, hr, id, draft, rfl⟩ := mem_lowerRules _ _ _ _ _ hrule
    rw [(header_lowerRule ..).2.2] at htype
    exact ⟨r, hr, (isSome_tokenTypeOf_iff hr).mp htype⟩
  · rintro ⟨r, hr, hmakes⟩
    obtain ⟨id, draft, hmem⟩ := exists_lowerRule d.kind (d.assignment d.rules).tokens
      (d.rules.map (·.name)) 0 .empty hr
    refine ⟨_, hmem, ?_⟩
    rw [(header_lowerRule ..).2.2]
    exact (isSome_tokenTypeOf_iff hr).mpr hmakes

/-- There is something to choose from if some rule makes tokens. -/
theorem dispatch_ne_nil_iff : dispatch (d.rulesWith d.lowering.1) ≠ [] ↔ d.MakesTokens := by
  have hnames := names_lowering hrules
  have hmaking := exists_making_iff hrules
  constructor
  · intro hne
    obtain ⟨id, hid⟩ := List.exists_mem_of_ne_nil _ hne
    obtain ⟨rule, hrule, _, htype⟩ := exists_of_mem_dispatch hid
    rcases mem_addLiterals hrule with hrule | ⟨l, hl, _, hnew⟩
    · exact .inl (hmaking.mp ⟨rule, hrule, htype⟩)
    · rw [hrules] at hl
      rw [hnames] at hnew
      have hkind := (source_of_mem hl).1
      exact .inr ⟨hkind, l.name, (exists_literal_iff hkind).mp ⟨l, hl, rfl⟩, hnew⟩
  · rintro (hmakes | ⟨hkind, name, hname, hnew⟩)
    · obtain ⟨rule, hrule, htype⟩ := hmaking.mpr hmakes
      exact List.ne_nil_of_mem (mem_dispatch ((prefix_addLiterals ..).subset hrule) htype)
    · obtain ⟨l, hl, rfl⟩ := (exists_literal_iff hkind).mpr hname
      rw [← hrules] at hl
      obtain ⟨rule, hrule, hnamed⟩ := exists_name_addLiterals hl d.lowering.1
      rcases mem_addLiterals hrule with hlowered | ⟨l', _, hof, _⟩
      · rw [← hnames, ← hnamed] at hnew
        exact absurd (List.mem_map_of_mem hlowered) hnew
      · exact List.ne_nil_of_mem (mem_dispatch hrule (by rw [hof.tokenType]; rfl))

/-- The name of the last rule is taken by a rule or by a declared token with a literal. -/
theorem taken_iff (hdeclared : ∀ t ∈ d.tokens, t.literal.isSome → d.kind = .combined) :
    (d.rulesWith d.lowering.1).any (·.name == tokensRuleName) = true ↔
      tokensRuleName ∈ d.rules.map (·.name) ∨
        ∃ t ∈ d.tokens, t.literal.isSome ∧ t.name = tokensRuleName := by
  have hnames := names_lowering hrules
  constructor
  · intro hany
    obtain ⟨rule, hrule, hname⟩ := List.any_eq_true.mp hany
    have hname : rule.name = tokensRuleName := eq_of_beq hname
    rcases mem_addLiterals hrule with hrule | ⟨l, hl, hof, _⟩
    · exact .inl (hnames ▸ hname ▸ List.mem_map_of_mem hrule)
    · rw [hof.name] at hname
      rcases (source_of_mem hl).2 with ⟨t, ht, hliteral, hnamed, _⟩ | ⟨_, hnamed, _⟩
      · exact .inr ⟨t, ht, by rw [hliteral]; rfl, hnamed.symm.trans hname⟩
      · exact absurd (hnamed.symm.trans hname) (typeName_ne_tokensRuleName _)
  · intro htaken
    have hexists : ∃ rule ∈ d.rulesWith d.lowering.1, rule.name = tokensRuleName := by
      rcases htaken with htaken | ⟨t, ht, hliteral, hname⟩
      · rw [← hnames] at htaken
        obtain ⟨rule, hrule, hname⟩ := List.mem_map.mp htaken
        exact ⟨rule, (prefix_addLiterals ..).subset hrule, hname⟩
      · obtain ⟨l, hl, hnamed⟩ :=
          (exists_literal_iff (hdeclared t ht hliteral)).mpr (.declared t ht hliteral)
        rw [← hrules] at hl
        obtain ⟨rule, hrule, hrulename⟩ := exists_name_addLiterals hl d.lowering.1
        exact ⟨rule, hrule, hrulename.trans (hnamed.trans hname)⟩
    obtain ⟨rule, hrule, hname⟩ := hexists
    exact List.any_eq_true.mpr ⟨rule, hrule, beq_iff_eq.mpr hname⟩

end

/-- **Exactly the well-defined definitions have grammars.** Whatever the kind of a grammar, its
rules and its declared tokens, building it succeeds if nothing is wrong with the definition as it
is written, and only then. -/
theorem exists_build_iff_wellDefined : (∃ g, d.build = .ok g) ↔ d.WellDefined := by
  rw [exists_build_iff, errors_assignment_iff]
  constructor
  · rintro ⟨haccepted, hdeclared, hfaultless, hfree⟩
    have hrules := accepted_eq_rules haccepted
    obtain ⟨hkinds, hnames⟩ := accepted_eq_nil_iff.mp haccepted
    have hkinds := fun r hr => excludes_eq_false_iff.mp (hkinds r hr)
    rw [hrules] at hfaultless
    have hparts := fun r hr => (faultless_iff hr (hkinds r hr).2).mp (hfaultless r hr)
    rw [dispatch_ne_nil_iff hrules, taken_iff hrules hdeclared] at hfree
    refine ⟨hkinds, hnames, hdeclared, fun r hr => (hparts r hr).1, fun r hr => (hparts r hr).2.1,
      fun r hr => (hparts r hr).2.2, fun hkind hmakes => ⟨fun htaken => ?_,
        fun t ht hliteral hname => ?_⟩⟩
    · exact hfree ⟨⟨hkind, hmakes⟩, .inl htaken⟩
    · exact hfree ⟨⟨hkind, hmakes⟩, .inr ⟨t, ht, hliteral, hname⟩⟩
  · intro h
    have haccepted : d.accepted.2 = [] := accepted_eq_nil_iff.mpr
      ⟨fun r hr => excludes_eq_false_iff.mpr (h.kinds r hr), h.names⟩
    have hrules := accepted_eq_rules haccepted
    rw [dispatch_ne_nil_iff hrules, taken_iff hrules h.declared, hrules]
    refine ⟨haccepted, h.declared, fun r hr => (faultless_iff hr (h.kinds r hr).2).mpr
      ⟨h.parserRules r hr, h.lexerRules r hr, h.full r hr⟩, ?_⟩
    rintro ⟨⟨hkind, hmakes⟩, htaken | ⟨t, ht, hliteral, hname⟩⟩
    · exact (h.free hkind hmakes).1 htaken
    · exact (h.free hkind hmakes).2 t ht hliteral hname

/-- No rule makes tokens: the rule of the literal would have the name of a fragment. So the other
fragment may be called like the rule that chooses the next token. -/
example : (build ⟨"Edge", .combined, [⟨"s", .literal "x", false⟩, ⟨"T__4", .any, true⟩,
    ⟨"Tokens", .any, true⟩], []⟩).isOk = true := by decide +kernel

end Lookahead.GrammarDefinition
