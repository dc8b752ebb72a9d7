import Lookahead.Proofs.Grammar.Records
import Mathlib.Data.List.Forall2
import Mathlib.Data.List.Induction
import Mathlib.Data.List.Nodup

/-! The types of tokens are numbered without gaps.

While a grammar is built, tokens, other names of their types and rules are entered (`Entry`).
Whatever the order, the types that are handed out are those from the first one to the highest, each
type has a name of its own, a name keeps the type that it got first, and rules have no part in it
(`Numbering`). One entry keeps the types of a table numbered (`Numbered.define`,
`Numbered.rename`), and the names of each grammar come to stand for what they do in this way
(`reached_of_build`). -/
namespace Lookahead
open Grammar

/-! ### Entries -/

/-- What is entered while a grammar is built: a token, another name of a type, or a rule. -/
inductive Entry where
  | token (name : String)
  | rename (name : String) (type : TokenType)
  | rule (name : String) (id : RuleId)
  deriving DecidableEq, Repr

/-- A rule has no part in the types of tokens. -/
def Entry.concernsTokens : Entry → Bool
  | token _ | rename _ _ => true
  | rule _ _ => false

/-- What names stand for. One name may stand for a token and for a rule. -/
structure Symbols where
  tokens : TokenTable
  rules : List (String × RuleId)
  deriving Repr

namespace Symbols

def empty : Symbols := ⟨.empty, []⟩

/-- Gives a rule its name, unless the name is taken. -/
def defineRule (s : Symbols) (name : String) (id : RuleId) : Bool × Symbols :=
  match s.rules.lookup name with
  | some _ => (false, s)
  | none => (true, { s with rules := s.rules ++ [(name, id)] })

def enter (s : Symbols) : Entry → Symbols
  | .token name => { s with tokens := (s.tokens.define name).2 }
  | .rename name type => { s with tokens := s.tokens.rename name type }
  | .rule name id => (s.defineRule name id).2

/-- The type that is handed out for an entry. -/
def given (s : Symbols) : Entry → Option TokenType
  | .token name => some (s.tokens.define name).1
  | .rename _ _ | .rule _ _ => none

/-- The types that are handed out for entries, in their order. -/
def givenAll (s : Symbols) : List Entry → List TokenType
  | [] => []
  | e :: es => (s.given e).toList ++ (s.enter e).givenAll es

/-- What names stand for after the entries. -/
def after (es : List Entry) : Symbols := es.foldl enter empty

/-- The types that were handed out when the entries are made. -/
def types (es : List Entry) : List TokenType := empty.givenAll es

/-- The symbols of a grammar that is built. -/
def ofGrammar (g : Grammar) : Symbols := ⟨g.tokens, g.rules.map fun r => (r.name, r.id)⟩

variable {s : Symbols} {es : List Entry} {e : Entry}

theorem givenAll_snoc :
    s.givenAll (es ++ [e]) = s.givenAll es ++ ((es.foldl enter s).given e).toList := by
  induction es generalizing s with
  | nil => exact List.append_nil _
  | cons e' es ih => rw [List.cons_append, givenAll, ih, givenAll, List.append_assoc, List.foldl_cons]

theorem types_snoc : types (es ++ [e]) = types es ++ ((after es).given e).toList := givenAll_snoc

theorem after_snoc : after (es ++ [e]) = (after es).enter e := List.foldl_concat ..

theorem after_append (es es' : List Entry) : after (es ++ es') = es'.foldl enter (after es) :=
  List.foldl_append

/-- Rules do not change the table of tokens. -/
theorem tokens_enter_rule (name : String) (id : RuleId) :
    (s.enter (.rule name id)).tokens = s.tokens := by
  rw [enter, defineRule]
  split <;> rfl

theorem extends_enter (s : Symbols) (e : Entry) : s.tokens.Extends (s.enter e).tokens := by
  cases e with
  | token => exact TokenTable.extends_define
  | rename => exact TokenTable.extends_rename
  | rule name id =>
    rw [tokens_enter_rule]
    exact .refl _

theorem extends_foldl (s : Symbols) (es : List Entry) :
    s.tokens.Extends (es.foldl enter s).tokens := by
  induction es generalizing s with
  | nil => exact .refl _
  | cons e es ih => exact (s.extends_enter e).trans (ih _)

/-- The types are those that are handed out where rules are left out. -/
theorem types_filter (es : List Entry) :
    (after (es.filter Entry.concernsTokens)).tokens = (after es).tokens ∧
      types (es.filter Entry.concernsTokens) = types es := by
  -- Only the tables of the two sides are the same all along.
  have hall (s s' : Symbols) (hs : s'.tokens = s.tokens) :
      ((es.filter Entry.concernsTokens).foldl enter s').tokens = (es.foldl enter s).tokens ∧
        s'.givenAll (es.filter Entry.concernsTokens) = s.givenAll es := by
    induction es generalizing s s' with
    | nil => exact ⟨hs, rfl⟩
    | cons e es ih =>
      cases e with
      | token name =>
        obtain ⟨htokens, htypes⟩ := ih (s.enter (.token name)) (s'.enter (.token name))
          (by simp only [enter, hs])
        refine ⟨htokens, ?_⟩
        rw [List.filter_cons_of_pos rfl, givenAll, givenAll, htypes, given, given, hs]
      | rename name type =>
        exact ih (s.enter (.rename name type)) (s'.enter (.rename name type))
          (by simp only [enter, hs])
      | rule name id =>
        exact ih (s.enter (.rule name id)) s' (hs.trans (tokens_enter_rule name id).symm)
  exact hall empty empty rfl

end Symbols
open Symbols

/-- Other names are only given to types that were handed out before. -/
def Proper (es : List Entry) : Prop :=
  ∀ before name type after, es = before ++ .rename name type :: after → type ∈ types before

theorem proper_nil : Proper [] := by
  intro before name type after h
  simp at h

theorem proper_snoc_iff {es : List Entry} {e : Entry} :
    Proper (es ++ [e]) ↔ Proper es ∧ ∀ name type, e = .rename name type → type ∈ types es := by
  constructor
  · intro h
    refine ⟨?_, fun name type he => h es name type [] (by rw [he])⟩
    rintro before name type after rfl
    exact h before name type (after ++ [e]) (by simp)
  · rintro ⟨hes, he⟩ before name type after heq
    obtain rfl | ⟨after, last, rfl⟩ := List.eq_nil_or_concat after
    · obtain ⟨rfl, hlast⟩ := List.append_inj' heq rfl
      exact he name type (List.cons.inj hlast).1
    · rw [List.concat_eq_append, ← List.cons_append, ← List.append_assoc] at heq
      exact hes before name type after (List.append_inj' heq rfl).1

/-! ### Numbered tables -/

namespace TokenTable
variable {t : TokenTable} {types : List TokenType} {name : String} {type : TokenType}

theorem le_maxType_iff : type ≤ t.maxType ↔ type < firstTokenType + t.names.length :=
  Nat.le_sub_one_iff_lt (Nat.add_pos_left (by decide) _)

/-- The types that were handed out are all types of the table, and each of them is the type of the
name that stands at its place. -/
structure Numbered (t : TokenTable) (types : List TokenType) : Prop where
  handed : t.Handed
  named : ∀ i name, t.names[i]? = some name → t.type? name = some (firstTokenType + i)
  given : ∀ type, type ∈ types ↔ firstTokenType ≤ type ∧ type ≤ t.maxType

theorem numbered_empty : empty.Numbered [] where
  handed := nofun
  named _ _ h := nomatch h
  given type := by
    rw [le_maxType_iff]
    refine iff_of_false List.not_mem_nil fun ⟨hle, hlt⟩ => ?_
    exact Nat.not_lt_of_le hle hlt

/-- A token that has a type gets this one again; another one gets the type after all others. -/
theorem Numbered.define (h : t.Numbered types) (name : String) :
    (t.define name).2.Numbered (types ++ [(t.define name).1]) := by
  have hhanded := h.handed.define name
  unfold TokenTable.define at hhanded ⊢
  split at hhanded
  · next type htype =>
    have hmem := (h.given type).mpr (h.handed name type htype)
    refine ⟨h.handed, h.named, fun type' => ?_⟩
    rw [← h.given type', List.mem_append, List.mem_singleton]
    exact or_iff_left_of_imp fun heq => heq ▸ hmem
  · next hnone =>
    refine ⟨hhanded, fun i name' hi => ?_, fun type => ?_⟩
    · rw [List.getElem?_append] at hi
      split at hi
      · exact extends_snoc _ _ _ (h.named i name' hi)
      · next hlast =>
        rw [List.getElem?_singleton, Option.ite_none_right_eq_some] at hi
        obtain ⟨hzero, hname⟩ := hi
        have hi : i = t.names.length :=
          Nat.le_antisymm (Nat.sub_eq_zero_iff_le.mp hzero) (Nat.le_of_not_lt hlast)
        obtain rfl := Option.some.inj hname
        rw [type?_snoc, hnone, hi]
        simp
    · have hnew : type = firstTokenType + t.names.length → firstTokenType ≤ type :=
        fun heq => heq ▸ Nat.le_add_right _ _
      rw [List.mem_append, List.mem_singleton, h.given, le_maxType_iff, maxType_snoc,
        Nat.le_iff_lt_or_eq (m := firstTokenType + t.names.length), and_or_left,
        and_iff_right_of_imp hnew]

theorem Numbered.rename (h : t.Numbered types) (htype : type ∈ types) (name : String) :
    (t.rename name type).Numbered types := by
  have hhanded := h.handed.rename ((h.given type).mp htype) name
  unfold TokenTable.rename at hhanded ⊢
  split at hhanded
  · exact h
  · exact ⟨hhanded, fun i name' hi => extends_snoc _ _ _ (h.named i name' hi), h.given⟩

theorem Numbered.nodup (h : t.Numbered types) : t.names.Nodup := by
  refine List.nodup_iff_getElem?_ne_getElem?.mpr fun i j hij hj heq => ?_
  have hname : t.names[j]? = some t.names[j] := List.getElem?_eq_getElem hj
  have htypes := (h.named i _ (heq.trans hname)).symm.trans (h.named j _ hname)
  exact Nat.ne_of_lt hij (Nat.add_left_cancel (Option.some.inj htypes))

/-- A type that was handed out is the type of its name. -/
theorem Numbered.exists_name (h : t.Numbered types) (htype : type ∈ types) :
    ∃ name, t.name? type = some name ∧ t.type? name = some type := by
  obtain ⟨hle, hmax⟩ := (h.given type).mp htype
  obtain ⟨i, rfl⟩ := Nat.exists_eq_add_of_le hle
  rw [le_maxType_iff, Nat.add_lt_add_iff_left] at hmax
  have hname : t.names[i]? = some t.names[i] := List.getElem?_eq_getElem hmax
  refine ⟨t.names[i], ?_, h.named i _ hname⟩
  rw [name?, if_neg (Nat.not_lt_of_le hle), Nat.add_sub_cancel_left, hname]

end TokenTable

/-! ### All entries -/

/-- One entry after the other, the types stay numbered. -/
theorem numbered_after {es : List Entry} (h : Proper es) :
    (after es).tokens.Numbered (types es) := by
  induction es using List.reverseRecOn with
  | nil => exact TokenTable.numbered_empty
  | append_singleton es e ih =>
    obtain ⟨hes, he⟩ := proper_snoc_iff.mp h
    rw [after_snoc, types_snoc]
    cases e with
    | token name => exact (ih hes).define name
    | rename name type =>
      rw [given, Option.toList_none, List.append_nil]
      exact (ih hes).rename (he name type rfl) name
    | rule name id =>
      rw [given, Option.toList_none, List.append_nil, tokens_enter_rule]
      exact ih hes

/-- How the types of tokens are numbered after some entries. -/
structure Numbering (es : List Entry) : Prop where
  given : ∀ type, type ∈ types es ↔ firstTokenType ≤ type ∧ type ≤ (after es).tokens.maxType
  named : ∀ type ∈ types es, ∃ name, (after es).tokens.name? type = some name ∧
    (after es).tokens.type? name = some type
  nodup : (after es).tokens.names.Nodup
  /-- What has a type after the first entries keeps it. -/
  kept : ∀ first rest name type, es = first ++ rest →
    (after first).tokens.type? name = some type → (after es).tokens.type? name = some type ∧
      firstTokenType ≤ type ∧ type ≤ (after es).tokens.maxType
  /-- Rules, and where they are entered, do not matter. -/
  apart : ∀ es', es'.filter Entry.concernsTokens = es.filter Entry.concernsTokens →
    (after es').tokens = (after es).tokens ∧ types es' = types es

theorem numbering_of_proper {es : List Entry} (h : Proper es) : Numbering es where
  given := (numbered_after h).given
  named _ := (numbered_after h).exists_name
  nodup := (numbered_after h).nodup
  kept first rest name type hes hname := by
    have hkept : (after es).tokens.type? name = some type := by
      rw [hes, after_append]
      exact extends_foldl _ _ _ _ hname
    exact ⟨hkept, (numbered_after h).handed name type hkept⟩
  apart es' hes' := by
    obtain ⟨htokens, htypes⟩ := types_filter es
    obtain ⟨htokens', htypes'⟩ := types_filter es'
    rw [hes'] at htokens' htypes'
    exact ⟨htokens'.symm.trans htokens, htypes'.symm.trans htypes⟩

/-! ### The entries of a grammar -/

/-- Names come to stand for this by some entries. -/
def Symbols.Reached (s : Symbols) : Prop := ∃ es, Proper es ∧ after es = s

namespace Symbols.Reached
variable {s : Symbols} {rules : List (String × RuleId)} {t t' : TokenTable}

theorem numbered (h : s.Reached) : ∃ types, s.tokens.Numbered types := by
  obtain ⟨es, hproper, rfl⟩ := h
  exact ⟨types es, numbered_after hproper⟩

theorem enter (h : s.Reached) (e : Entry)
    (he : ∀ name type, e = .rename name type → firstTokenType ≤ type ∧ type ≤ s.tokens.maxType) :
    (s.enter e).Reached := by
  obtain ⟨es, hproper, rfl⟩ := h
  refine ⟨es ++ [e], proper_snoc_iff.mpr ⟨hproper, fun name type heq => ?_⟩, after_snoc⟩
  exact ((numbered_after hproper).given type).mpr (he name type heq)

theorem grows (h : Reached ⟨t, rules⟩) (hgrows : t.Grows t') : Reached ⟨t', rules⟩ := by
  cases hgrows with
  | same => exact h
  | token name => exact h.enter (.token name) nofun
  | named name name' =>
    obtain ⟨_, hnumbered⟩ := h.numbered
    have htoken : Reached ⟨(t.define name).2, rules⟩ := h.enter (.token name) nofun
    refine htoken.enter (.rename name' (t.define name).1) fun _ _ heq => ?_
    obtain ⟨rfl, rfl⟩ := Entry.rename.inj heq
    exact hnumbered.handed.define_type name

/-- Rules with names of their own are all entered. -/
theorem append (h : Reached ⟨t, rules⟩) {added : List (String × RuleId)}
    (hnodup : ((rules ++ added).map (·.1)).Nodup) : Reached ⟨t, rules ++ added⟩ := by
  induction added generalizing rules with
  | nil => rwa [List.append_nil]
  | cons r added ih =>
    have hnew : r.1 ∉ rules.map (·.1) := fun hmem => by
      rw [List.map_append] at hnodup
      exact (List.nodup_append.mp hnodup).2.2 r.1 hmem r.1 (.head _) rfl
    have hlookup : rules.lookup r.1 = none := List.lookup_eq_none_iff.mpr fun r' hr' =>
      bne_iff_ne.mpr fun heq => hnew (heq ▸ List.mem_map_of_mem hr')
    have hentered : Reached ⟨t, rules ++ [r]⟩ := by
      have henter := h.enter (.rule r.1 r.2) nofun
      simpa only [Symbols.enter, Symbols.defineRule, hlookup] using henter
    rw [List.append_cons] at hnodup ⊢
    exact ih hentered hnodup

end Symbols.Reached

namespace GrammarDefinition
variable {d : GrammarDefinition} {g : Grammar}

/-- What the names of a grammar stand for comes from entries: the rules that someone wrote, then
tokens and other names of them, then the rules that are made. -/
theorem reached_of_build (h : d.build = .ok g) : (Symbols.ofGrammar g).Reached := by
  obtain ⟨lowered, draft, hbuilt⟩ := exists_built h
  obtain ⟨made, hmade⟩ := (prefix_addLiterals lowered _).trans hbuilt.prefix_rules
  let entry (r : Rule) : String × RuleId := (r.name, r.id)
  have hnodup : ((lowered.map entry ++ made.map entry).map (·.1)).Nodup := by
    rw [← List.map_append, hmade, List.map_map]
    exact nodup_names_of_build h
  have hstart : Reached ⟨.empty, []⟩ := ⟨[], proper_nil, rfl⟩
  have hwritten : Reached ⟨.empty, lowered.map entry⟩ := by
    refine hstart.append ?_
    rw [List.map_append] at hnodup
    exact (List.nodup_append.mp hnodup).1
  have htokens : Reached ⟨g.tokens, lowered.map entry⟩ := by
    rw [hbuilt.tokens]
    exact Assignment.tokens_induction (P := fun t => Reached ⟨t, lowered.map entry⟩) hwritten
      fun _ _ h hgrows => h.grows hgrows
  rw [ofGrammar, ← hmade, List.map_append]
  exact htokens.append hnodup

/-! ### Names of rules -/

/-- The rules are the same but for their names, and a rule that makes tokens has the same name. -/
structure Renamed (r r' : RuleDefinition) : Prop where
  body : r.body = r'.body
  fragment : r.fragment = r'.fragment
  kind : RuleKind.ofName r.name = RuleKind.ofName r'.name
  token : RuleKind.ofName r.name = .lexer → r.fragment = false → r.name = r'.name

theorem defineRule_renamed {r r' : RuleDefinition} (h : Renamed r r') (a : Assignment) :
    a.defineRule r = a.defineRule r' := by
  by_cases hmakes : RuleKind.ofName r.name = .lexer ∧ r.fragment = false
  · have hname := h.token hmakes.1 hmakes.2
    rw [Assignment.defineRule, Assignment.defineRule, hname, h.body, h.fragment]
  · have hmakes' : ¬(RuleKind.ofName r'.name = .lexer ∧ r'.fragment = false) := by
      rwa [← h.kind, ← h.fragment]
    rw [Assignment.defineRule, Assignment.defineRule, if_neg hmakes, if_neg hmakes']

theorem mentionAll_renamed {r r' : RuleDefinition} (h : Renamed r r') (kind : GrammarKind)
    (a : Assignment) : Assignment.mentionAll kind a r = Assignment.mentionAll kind a r' := by
  rw [Assignment.mentionAll, Assignment.mentionAll, h.kind, h.body]

theorem assignment_renamed {d' : GrammarDefinition} (hkind : d.kind = d'.kind)
    (htokens : d.tokens = d'.tokens) {rules rules' : List RuleDefinition}
    (h : List.Forall₂ Renamed rules rules') : d.assignment rules = d'.assignment rules' := by
  have hfoldl {f : Assignment → RuleDefinition → Assignment}
      (hf : ∀ r r', Renamed r r' → ∀ a, f a r = f a r') (a : Assignment) :
      rules.foldl f a = rules'.foldl f a :=
    List.rel_foldl (P := Eq) (fun _ _ ha _ _ hr => ha ▸ hf _ _ hr _) rfl h
  rw [assignment, assignment, hkind, htokens, hfoldl fun _ _ h => defineRule_renamed h,
    hfoldl fun _ _ h => mentionAll_renamed h _]

/-- The types of tokens do not depend on how other rules are called. -/
theorem tokens_renamed {d' : GrammarDefinition} {g' : Grammar} (h : d.build = .ok g)
    (h' : d'.build = .ok g') (hkind : d.kind = d'.kind) (htokens : d.tokens = d'.tokens)
    (hrules : List.Forall₂ Renamed d.rules d'.rules) : g.tokens = g'.tokens := by
  obtain ⟨_, _, hbuilt⟩ := exists_built h
  obtain ⟨_, _, hbuilt'⟩ := exists_built h'
  rw [hbuilt.tokens, hbuilt'.tokens, hbuilt.accepted_eq.1, hbuilt'.accepted_eq.1,
    assignment_renamed hkind htokens hrules]

/-- **The numbers of tokens are one to one.** After any entries in any order, where other names are
given to types that were handed out, the types that were handed out are those from the first to
the highest, each of them is the type of its name, no name is listed twice, what has a type keeps
it, and rules have no part in it. The names of every grammar that is built come to stand for what
they do by such entries, and rules that make no tokens may be called anything. -/
theorem tokens_numbered :
    (∀ es, Proper es → Numbering es) ∧
      (∀ (d : GrammarDefinition) g, d.build = .ok g →
        ∃ es, Proper es ∧ after es = .ofGrammar g) ∧
      ∀ (d d' : GrammarDefinition) g g', d.build = .ok g → d'.build = .ok g' → d.kind = d'.kind →
        d.tokens = d'.tokens → List.Forall₂ Renamed d.rules d'.rules → g.tokens = g'.tokens :=
  ⟨fun _ => numbering_of_proper, fun _ _ => reached_of_build, fun _ _ _ _ => tokens_renamed⟩

/-- A name that is given to the type of another token before it is entered as a token. -/
def early : List Entry := [.rule "B" 0, .token "A", .rename "B" 4, .token "B", .token "C"]

theorem proper_early : Proper early := by
  have hrule : Proper ([] ++ [.rule "B" 0]) := proper_snoc_iff.mpr ⟨proper_nil, nofun⟩
  have htoken : Proper ([.rule "B" 0] ++ [.token "A"]) := proper_snoc_iff.mpr ⟨hrule, nofun⟩
  have hrename : Proper ([.rule "B" 0, .token "A"] ++ [.rename "B" 4]) := by
    refine proper_snoc_iff.mpr ⟨htoken, fun name type heq => ?_⟩
    obtain ⟨rfl, rfl⟩ := Entry.rename.inj heq
    decide
  have hagain : Proper ([.rule "B" 0, .token "A", .rename "B" 4] ++ [.token "B"]) :=
    proper_snoc_iff.mpr ⟨hrename, nofun⟩
  have hlast : Proper ([.rule "B" 0, .token "A", .rename "B" 4, .token "B"] ++ [.token "C"]) :=
    proper_snoc_iff.mpr ⟨hagain, nofun⟩
  exact hlast

/-- The definition with another name for its first rule, which nothing refers to. -/
def assortedStart : GrammarDefinition :=
  { assorted with
    rules := match assorted.rules with
      | s :: rules => { s with name := "start" } :: rules
      | [] => [] }

/-- `B` is no token of its own. -/
theorem tokens_numbered_early :
    Numbering early ∧ types early = [4, 4, 5] ∧ (after early).tokens.names = ["A", "C"] ∧
      assorted.grammar.tokens.names = ["A", "B", quote "x"] ∧
      (∃ es, Proper es ∧ after es = .ofGrammar assorted.grammar) ∧
      assorted.grammar.tokens = assortedStart.grammar.tokens := by
  obtain ⟨hnumbering, hentries, hrenamed⟩ := tokens_numbered
  have hbuild : assorted.build = .ok assorted.grammar := build_eq_ok (by decide +kernel)
  have hbuildStart : assortedStart.build = .ok assortedStart.grammar :=
    build_eq_ok (by decide +kernel)
  have hrules : List.Forall₂ Renamed assorted.rules assortedStart.rules :=
    .cons ⟨rfl, rfl, by decide +kernel, by decide +kernel⟩
      (List.forall₂_same.mpr fun _ _ => ⟨rfl, rfl, rfl, fun _ _ => rfl⟩)
  exact ⟨hnumbering _ proper_early, by decide, by decide, by decide +kernel, hentries _ _ hbuild,
    hrenamed _ _ _ _ hbuild hbuildStart rfl rfl hrules⟩

end GrammarDefinition
end Lookahead
