import Lookahead.Proofs.Grammar.Meaning
import Lookahead.Proofs.Network.Dispatch
import Lookahead.Proofs.Recognition.Soundness
import Lookahead.Proofs.Recognition.Straying
import Lookahead.Recognition.Tokenizer

/-! How long the tokens are.

The next token comes in two layers: a choice between the rules that make tokens, and the choices
inside the rule that is chosen. Where some rule matches more of the text, the chosen one has a way
that begins with as much, since only the rule that chooses calls there and runs of two rules never
meet. The way need not come to an end there. So the chosen rule need not match as much, and the
other rule may have been the better choice. The second layer may then stray from the way: a rule
that is called in several places is left where any of them goes on with the symbols ahead, and the
place that goes on need not be the one that has called. -/
namespace Lookahead
open Network

/-- The text of what is read has the symbols that are read. -/
theorem Stream.Reads.text {s t : Stream Char} {w : List Symbol} (h : s.Reads w t) :
    (t.text s.index t.index).toList.map Symbolic.symbol = w := by
  have htake : (t.items.take t.index).drop s.index = s.ahead.take w.length := by
    rw [h.items, h.index, List.drop_take, Nat.add_sub_cancel_left]
    rfl
  rw [Stream.text, String.toList_ofList, htake, List.map_take, h.ahead, List.take_left]

namespace Recognizer
variable {σ : Type} {r : Recognizer σ} {p q : Progress Char σ} {token : Token}

/-- The token comes from this alternative of the choice of the next token: it stands for the
rule, and these events of the rule make the token. -/
structure Tokenizes (r : Recognizer σ) (p : Progress Char σ) (token : Token) (q : Progress Char σ)
    (d : DecisionId) (alt : Ordinal) (rule : Rule) (es : List Event) : Prop where
  decision : r.tokensDecision? = some d
  chosen : r.analysis.grammar.tokenRuleFor? alt = some rule
  derives : r.analysis.grammar.Derives rule.id es
  does : ∃ p₁, r.Step p (.choice d alt) p₁ ∧ r.Does p₁ es q
  type : token.type = rule.tokenType.getD invalidTokenType
  text : token.text.toList.map Symbolic.symbol = Event.symbols es

/-- There is no more text, or a choice leads to a rule that moves on. -/
theorem nextToken_cases {next : Option Token} (hends : Ends r.nextToken p (.ok next) q) :
    (next = none ∧ q = p ∧ p.input.ahead = []) ∨
      ∃ d alt p₁ rule, r.tokensDecision? = some d ∧ Ends (r.predict d) p (.ok alt) p₁ ∧
        r.analysis.grammar.tokenRuleFor? alt = some rule ∧ Ends (r.run rule.id) p₁ (.ok ()) q ∧
        q.input.index ≠ p.input.index ∧
        next = some ⟨rule.tokenType.getD invalidTokenType,
          q.input.text p.input.index q.input.index, p.input.index, q.input.index⟩ := by
  unfold nextToken at hends
  rw [ends_get_bind] at hends
  dsimp only at hends
  split at hends
  · next hnone =>
    obtain ⟨hnext, rfl⟩ := ends_pure_ok.mp hends
    rw [Stream.symbol?_one, Option.isNone_iff_eq_none, Option.map_eq_none_iff,
      List.head?_eq_none_iff] at hnone
    exact .inl ⟨hnext, rfl, hnone⟩
  · right
    cases hd : r.tokensDecision? with
    | none =>
      simp only [hd] at hends
      exact nomatch (ends_throw.mp hends).1
    | some d =>
      simp only [hd] at hends
      obtain ⟨alt, p₁, hpredict, hends⟩ := ends_bind_ok.mp hends
      cases hrule : r.analysis.grammar.tokenRuleFor? alt with
      | none =>
        simp only [hrule] at hends
        exact nomatch (ends_throw.mp hends).1
      | some rule =>
        simp only [hrule] at hends
        obtain ⟨_, p₂, hrun, hends⟩ := ends_bind_ok.mp hends
        rw [ends_get_bind] at hends
        split at hends
        · exact nomatch (ends_throw.mp hends).1
        · next hmoved =>
          obtain ⟨hnext, rfl⟩ := ends_pure_ok.mp hends
          exact ⟨d, alt, p₁, rule, rfl, hpredict, hrule, hrun, hmoved, hnext⟩

/-- A token is what a chosen rule reads. -/
theorem exists_tokenizes (h : r.Reliable Char) (hends : Ends r.nextToken p (.ok (some token)) q) :
    ∃ d alt rule es, r.Tokenizes p token q d alt rule es := by
  obtain ⟨d, alt, p₁, rule, hd, hpredict, hrule, hrun, _, htoken⟩ :=
    (nextToken_cases hends).resolve_left fun hnone => nomatch hnone.1
  obtain rfl := Option.some.inj htoken
  have hfound := h.wellFormed.rule?_id (Grammar.mem_of_tokenRuleFor? hrule)
  have hlt : rule.id < r.analysis.grammar.rules.length :=
    (List.getElem?_eq_some_iff.mp hfound).1
  obtain ⟨es, hes, hdoes⟩ := (follows_run h hlt p₁).ok hrun
  have hstep := step_of_predict hpredict
  have hreads : p.input.Reads (Event.symbols es) q.input := hstep.reads.trans hdoes.reads
  exact ⟨d, alt, rule, es, hd, hrule, hes, ⟨p₁, hstep, hdoes⟩, rfl, hreads.text⟩

/-! ### Analysed grammars -/

section
variable {definition : GrammarDefinition} {a : Analyzer} (hgrammar : definition.build = .ok a.grammar)

include hgrammar in
/-- What a lexer rule that is no fragment derives, one that may be chosen does. -/
theorem exists_target {id : RuleId} {d : DecisionId} {targets : List RuleId}
    (h : a.grammar.Chooses id d targets) {rule : Rule} (hrule : rule ∈ a.grammar.rules)
    (hkind : rule.kind = .lexer) (hfragment : rule.fragment = false) {w : List Symbol}
    (hw : a.grammar.Language rule.id w) : ∃ target ∈ targets, a.grammar.Language target w := by
  rcases GrammarDefinition.isSome_tokenType hgrammar hrule hkind hfragment with htype | htokens
  · exact ⟨rule.id, h.making rule hrule htype, hw⟩
  · obtain rfl := Option.some.inj (h.tokensRule?.symm.trans htokens)
    exact h.exists_language hw

variable (hpredicates : a.grammar.predicates = []) {analysis : Analysis} {reports : List Report}
  (hanalysis : a.analyze = (.ok analysis, reports)) {host : Host σ} {d : DecisionId} {alt : Ordinal}
  {chosen : Rule} {es : List Event}
include hgrammar hanalysis

theorem Tokenizes.exists_chooses (h : Tokenizes ⟨analysis, host⟩ p token q d alt chosen es) :
    ∃ id targets i, a.grammar.Chooses id d targets ∧ alt = i + 1 ∧
      targets[i]? = some chosen.id := by
  obtain ⟨_, hsame, _⟩ := Analyzer.analyze_eq_ok hanalysis
  have hdecision : a.grammar.tokensRule.bind (·.block.decision) = some d := hsame ▸ h.decision
  have htokens : a.grammar.tokensRule? ≠ none := fun hnone => by
    simp [Grammar.tokensRule, hnone] at hdecision
  obtain ⟨_, _, hbuilt⟩ := GrammarDefinition.exists_built hgrammar
  obtain ⟨id, d', targets, hchooses⟩ := hbuilt.chooses htokens
  rw [hchooses.tokensRule] at hdecision
  obtain rfl : d' = d := Option.some.inj hdecision
  obtain ⟨i, target, rfl, htarget, hrule⟩ :=
    hchooses.exists_of_tokenRuleFor? (hsame ▸ h.chosen)
  have hid : chosen.id = target :=
    Grammar.eq_of_map_eq_range (definition.wellFormed_of_build hgrammar).ruleIds hrule
  exact ⟨id, targets, i, hchooses, rfl, hid ▸ htarget⟩

include hpredicates

/-- What a lexer rule matches ahead, the chosen rule has a way to begin with. -/
theorem Tokenizes.offers (h : Tokenizes ⟨analysis, host⟩ p token q d alt chosen es) {rule : Rule}
    (hrule : rule ∈ a.grammar.rules) (hkind : rule.kind = .lexer) (hfragment : rule.fragment = false)
    {w : List Symbol} (hahead : w <+: p.input.ahead.map Symbolic.symbol)
    (hw : a.grammar.Language rule.id w) : a.grammar.Offers [.call chosen.id] w := by
  have hwf := definition.wellFormed_of_build hgrammar
  have hforesighted : Foresighted Char ⟨analysis, host⟩ a.grammar a.terrain reports :=
    foresighted_of_analyze hgrammar hpredicates hanalysis host
  obtain ⟨id, targets, i, hchooses, rfl, hi⟩ := h.exists_chooses hgrammar hanalysis
  obtain ⟨target, htarget, fs, ⟨n, hfs⟩, rfl⟩ :=
    exists_target hgrammar hchooses hrule hkind hfragment hw
  obtain ⟨j, hj⟩ := List.getElem?_of_mem htarget
  have hreads : ReadsOn a.terrain d (j + 1) (Event.symbols fs) := by
    have hreads := hchooses.readsOn_of_admits hwf rfl hforesighted.gateValue_ne hj (hfs.admits .nil)
    rwa [List.append_nil] at hreads
  obtain ⟨p₁, hstep, _⟩ := h.does
  rcases readsOn_of_step hgrammar hpredicates hanalysis hstep hreads hahead with
    hreads | ⟨_, other, hne, hmeet⟩
  · exact hchooses.offers_of_readsOn hwf rfl hi hreads
  · exact absurd (hchooses.eq_of_meet hwf rfl hmeet).symm hne

/-- **Where a longer match is missed, a choice has strayed.** A token is what a chosen rule reads.
If any lexer rule that is no fragment matches more of the text ahead, a choice inside the chosen
rule strays: another alternative there leads on through the whole longer match, and lookahead
does not tell the two apart, or the decision has been reported as one between three or more
alternatives. The way through the longer match may go on behind it. Whether the chosen rule
matches as much, or any more than it has read, is not said. -/
theorem nextToken_longest
    (hends : Ends (nextToken ⟨analysis, host⟩) p (.ok (some token)) q) :
    ∃ d alt chosen es, Tokenizes ⟨analysis, host⟩ p token q d alt chosen es ∧
      ∀ rule ∈ a.grammar.rules, rule.kind = .lexer → rule.fragment = false →
        ∀ cs, cs <+: p.input.ahead → a.grammar.Language rule.id (cs.map Symbolic.symbol) →
          cs.length ≤ token.text.length ∨ ∃ before d' alt' after,
            es = before ++ .choice d' alt' :: after ∧
              Strays a.terrain reports (a.grammar.Admits [.call chosen.id])
                (cs.map Symbolic.symbol) before d' alt' := by
  have hwf := definition.wellFormed_of_build hgrammar
  have hforesighted : Foresighted Char ⟨analysis, host⟩ a.grammar a.terrain reports :=
    foresighted_of_analyze hgrammar hpredicates hanalysis host
  obtain ⟨_, hsame, _⟩ := Analyzer.analyze_eq_ok hanalysis
  obtain ⟨d, alt, chosen, es, htoken⟩ :=
    exists_tokenizes (reliable_of_analyze hgrammar hanalysis host) hends
  refine ⟨d, alt, chosen, es, htoken, fun rule hrule hkind hfragment cs hcs hlanguage => ?_⟩
  have hahead : cs.map Symbolic.symbol <+: p.input.ahead.map Symbolic.symbol := hcs.map _
  obtain ⟨fs, hfs, hsymbols⟩ :=
    htoken.offers hgrammar hpredicates hanalysis hrule hkind hfragment hahead hlanguage
  have hlength : token.text.length = (Event.symbols es).length := by
    rw [← htoken.text, List.length_map, String.length_toList]
  obtain ⟨id, targets, i, hchooses, _, hi⟩ := htoken.exists_chooses hgrammar hanalysis
  obtain ⟨p₁, hstep, hdoes⟩ := htoken.does
  obtain ⟨n, hes⟩ := htoken.derives
  rw [hsame] at hes
  have hfares := hforesighted.tracks_rule hes [] (hchooses.along_stop hwf rfl hi) p₁ q fs hdoes hfs
    (by rwa [hsymbols, hstep.input_choice])
  have hword : cs.length = (Event.symbols fs).length := by rw [hsymbols, List.length_map]
  rw [hlength, hword, ← hsymbols]
  cases hfares with
  | keeps hgs hread =>
    cases hgs
    exact .inl (by simp [hread])
  | past hle => exact .inl hle.length_le
  | strays hstrays => exact .inr ⟨_, _, _, _, rfl, hstrays⟩

end

/-! ### Longer matches that are missed -/

/-- Says yes to every predicate. -/
def agreeing : Host Unit := ⟨fun _ => return true, fun _ => return⟩

/-- Before the first character. -/
def beforeText (text : List Char) : Progress Char Unit := ⟨.ofList text, (), []⟩

/-- The next token is shorter than what some lexer rule matches that is no fragment, though there
are no predicates and the analysis succeeds with these reports. -/
def Misses (definition : GrammarDefinition) (reports : List Report) (text : List Char) : Prop :=
  definition.kind = .lexer ∧ ∃ a : Analyzer, definition.build = .ok a.grammar ∧
    a.grammar.predicates = [] ∧ ∃ analysis, a.analyze = (.ok analysis, reports) ∧
      ∃ token q, Ends (nextToken ⟨analysis, agreeing⟩) (beforeText text) (.ok (some token)) q ∧
        ¬∀ rule ∈ a.grammar.rules, rule.kind = .lexer → rule.fragment = false →
          ∀ cs, cs <+: text → a.grammar.Language rule.id (cs.map Symbolic.symbol) →
            cs.length ≤ token.text.length

/-- `F` may end with a `y`. `A` is `F`, and in `B` a `y` and a `z` come after `F`. -/
def sharedEnd : GrammarDefinition where
  name := "SharedEnd"
  kind := .lexer
  rules := [⟨"F", .seq [.literal "x", .repeated .optional (.literal "y")], true⟩,
    ⟨"A", .ref "F", false⟩,
    ⟨"B", .seq [.literal "q", .ref "F", .literal "y", .literal "z"], false⟩]
  tokens := []

def sharedEndAnalyzer : Analyzer := ⟨sharedEnd.grammar, .standard, none⟩

theorem sharedEnd_builds : sharedEnd.build = .ok sharedEndAnalyzer.grammar :=
  GrammarDefinition.build_eq_ok (by decide +kernel)

theorem sharedEnd_analyze :
    sharedEndAnalyzer.analyze = (.ok sharedEndAnalyzer.analysis, []) := by
  have hreports : sharedEndAnalyzer.analyze.2 = [] := by decide +kernel
  rw [← hreports]
  exact Analyzer.analyze_eq_analysis (by decide +kernel)

theorem sharedEnd_nextToken : ∃ q, Ends (nextToken ⟨sharedEndAnalyzer.analysis, agreeing⟩)
    (beforeText ['x', 'y', 'z']) (.ok (some ⟨4, "x", 0, 1⟩)) q :=
  ⟨_, ends_of_fst (by decide +kernel)⟩

/-- An element of a literal. -/
abbrev literalElement (c : Char) : Element := .symbols (.single (.ofChar c))

theorem mem_literal (c : Char) : Symbol.ofChar c ∈ SymbolSet.single (.ofChar c) :=
  SymbolSet.mem_single.mpr rfl

theorem derives_optional {calls : RuleId → List Event → Prop} (d : DecisionId) (c : Char) :
    Derives calls (.element (.block .optional (some d) [⟨1, [literalElement c]⟩]))
      [.choice d 1, .symbol (.ofChar c)] :=
  .optional (i := 0) rfl (.cons (.symbols (mem_literal c)) .nil)

/-- `A` matches an `x` and a `y`. -/
theorem sharedEnd_language : ∃ rule ∈ sharedEndAnalyzer.grammar.rules, rule.kind = .lexer ∧
    rule.fragment = false ∧
      sharedEndAnalyzer.grammar.Language rule.id (['x', 'y'].map Symbolic.symbol) := by
  have hfound : sharedEndAnalyzer.grammar.rule? 0 =
    some ⟨0, "F", .lexer, true, false, none, ⟨.single, none, [⟨1, [literalElement 'x',
      .block .optional (some 0) [⟨1, [literalElement 'y']⟩]]⟩]⟩⟩ := rfl
  have hfragment : sharedEndAnalyzer.grammar.DerivesIn 1 0
      [.symbol (.ofChar 'x'), .choice 0 1, .symbol (.ofChar 'y')] :=
    ⟨_, hfound, .single (i := 0) rfl
      (.cons (.symbols (mem_literal _)) (.cons (derives_optional 0 'y') .nil))⟩
  have hrule : sharedEndAnalyzer.grammar.rule? 1 =
    some ⟨1, "A", .lexer, false, false, some 4, ⟨.single, none, [⟨1, [.call 0]⟩]⟩⟩ := rfl
  exact ⟨_, List.mem_of_getElem? hrule, rfl, rfl, _,
    ⟨2, _, hrule, .single (i := 0) rfl (.cons (.call hfragment) .nil)⟩, rfl⟩

/-- An `x` is read in three ways, two of them with a `y`. Another `y` and a `z` may follow. -/
def threeWays : GrammarDefinition where
  name := "ThreeWays"
  kind := .lexer
  rules := [⟨"A", .seq [.choice [.literal "x",
      .seq [.literal "x", .repeated .optional (.literal "y")], .seq [.literal "x", .literal "y"]],
    .repeated .optional (.literal "y"), .repeated .optional (.literal "z")], false⟩]
  tokens := []

def threeWaysAnalyzer : Analyzer := ⟨threeWays.grammar, .standard, none⟩

/-- The three ways to read an `x`. -/
def threeWaysStart : Element :=
  .block .single (some 0) [⟨1, [literalElement 'x']⟩,
    ⟨2, [literalElement 'x', .block .optional (some 1) [⟨1, [literalElement 'y']⟩]]⟩,
    ⟨3, [literalElement 'x', literalElement 'y']⟩]

/-- `A` matches an `x`, two `y`s and a `z`. -/
theorem threeWays_language : ∃ rule ∈ threeWaysAnalyzer.grammar.rules, rule.kind = .lexer ∧
    rule.fragment = false ∧
      threeWaysAnalyzer.grammar.Language rule.id (['x', 'y', 'y', 'z'].map Symbolic.symbol) := by
  have hfound : threeWaysAnalyzer.grammar.rule? 0 =
    some ⟨0, "A", .lexer, false, false, some 4, ⟨.single, none, [⟨1, [threeWaysStart,
      .block .optional (some 2) [⟨1, [literalElement 'y']⟩],
      .block .optional (some 3) [⟨1, [literalElement 'z']⟩]]⟩]⟩⟩ := rfl
  have hstart : Derives (threeWaysAnalyzer.grammar.DerivesIn 0) (.element threeWaysStart)
      [.choice 0 3, .symbol (.ofChar 'x'), .symbol (.ofChar 'y')] :=
    .single (i := 2) rfl
      (.cons (.symbols (mem_literal _)) (.cons (.symbols (mem_literal _)) .nil))
  have hderives : threeWaysAnalyzer.grammar.DerivesIn 1 0
      [.choice 0 3, .symbol (.ofChar 'x'), .symbol (.ofChar 'y'), .choice 2 1,
        .symbol (.ofChar 'y'), .choice 3 1, .symbol (.ofChar 'z')] :=
    ⟨_, hfound, .single (i := 0) rfl (.cons hstart
      (.cons (derives_optional 2 'y') (.cons (derives_optional 3 'z') .nil)))⟩
  exact ⟨_, List.mem_of_getElem? hfound, rfl, rfl, _, ⟨1, hderives⟩, rfl⟩

/-- In the one grammar `F` is left before the `y` since `B` goes on with `yz`, but it is `A` that
has called, and nothing is reported. In the other one the first of three alternatives is taken
where only the other two read on. -/
theorem not_longest : Misses sharedEnd [] ['x', 'y', 'z'] ∧
    Misses threeWays [.ambiguity 0 1 [1, 2], .ambiguity 0 1 [1, 2, 3], .ambiguity 1 1 [1, 2]]
      ['x', 'y', 'y', 'z'] := by
  constructor
  · obtain ⟨rule, hrule, hkind, hfragment, hlanguage⟩ := sharedEnd_language
    obtain ⟨q, hends⟩ := sharedEnd_nextToken
    refine ⟨rfl, sharedEndAnalyzer, sharedEnd_builds, rfl, _, sharedEnd_analyze, _, q, hends,
      fun hlongest => ?_⟩
    exact absurd (hlongest rule hrule hkind hfragment _ ⟨['z'], rfl⟩ hlanguage) (by decide +kernel)
  · obtain ⟨rule, hrule, hkind, hfragment, hlanguage⟩ := threeWays_language
    have hreports : threeWaysAnalyzer.analyze.2 =
      [.ambiguity 0 1 [1, 2], .ambiguity 0 1 [1, 2, 3], .ambiguity 1 1 [1, 2]] := by decide +kernel
    have hanalyze :=
      hreports ▸ Analyzer.analyze_eq_analysis (a := threeWaysAnalyzer) (by decide +kernel)
    have hends := ends_of_fst (m := nextToken ⟨threeWaysAnalyzer.analysis, agreeing⟩)
      (s := beforeText ['x', 'y', 'y', 'z']) (r := .ok (some ⟨4, "xy", 0, 2⟩)) (by decide +kernel)
    refine ⟨rfl, threeWaysAnalyzer, GrammarDefinition.build_eq_ok (by decide +kernel), rfl, _,
      hanalyze, _, _, hends, fun hlongest => ?_⟩
    exact absurd (hlongest rule hrule hkind hfragment _ ⟨[], rfl⟩ hlanguage) (by decide +kernel)

/-- A choice in `F` strays from what `A` matches. -/
theorem nextToken_longest_sharedEnd : ∃ d alt chosen es q prior d' alt' after,
    Tokenizes ⟨sharedEndAnalyzer.analysis, agreeing⟩ (beforeText ['x', 'y', 'z']) ⟨4, "x", 0, 1⟩ q
      d alt chosen es ∧
    es = prior ++ .choice d' alt' :: after ∧
      Strays sharedEndAnalyzer.terrain [] (sharedEndAnalyzer.grammar.Admits [.call chosen.id])
        (['x', 'y'].map Symbolic.symbol) prior d' alt' := by
  obtain ⟨rule, hrule, hkind, hfragment, hlanguage⟩ := sharedEnd_language
  obtain ⟨q, hends⟩ := sharedEnd_nextToken
  obtain ⟨d, alt, chosen, es, htoken, hlongest⟩ :=
    nextToken_longest sharedEnd_builds rfl sharedEnd_analyze hends
  rcases hlongest rule hrule hkind hfragment ['x', 'y'] ⟨['z'], rfl⟩ hlanguage with
    hle | ⟨prior, d', alt', after, hes, hstrays⟩
  · exact absurd hle (by decide +kernel)
  · exact ⟨d, alt, chosen, es, q, prior, d', alt', after, htoken, hes, hstrays⟩

end Recognizer
end Lookahead
