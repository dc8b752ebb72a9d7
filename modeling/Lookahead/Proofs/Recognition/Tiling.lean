import Lookahead.Proofs.Grammar.Records
import Lookahead.Proofs.Recognition.LongestMatch

/-! Tokens cover the text.

Each call for the next token starts where the one before has stopped, and a token is what has
been read in between. So the tokens of a run of calls lie side by side (`Tiles`), and their texts
together are what has been read. That holds for the tokens so far wherever the run ends, by an
error or at the end of the text. -/
namespace Lookahead

/-- Tokens side by side in a text, from one place to another. None is empty, and each has the text
between its ends. -/
inductive Tiles (items : List Char) : Nat → List Token → Nat → Prop where
  | nil {place} : Tiles items place [] place
  | cons {start token tokens stop} (starts : token.start = start) (nonempty : start < token.stop)
    (within : token.stop ≤ items.length)
    (text : token.text.toList = (items.take token.stop).drop start)
    (rest : Tiles items token.stop tokens stop) : Tiles items start (token :: tokens) stop

namespace Tiles
variable {items : List Char} {start stop : Nat} {tokens : List Token}

/-- The last token stops where they all stop, in the text. -/
theorem stop_eq (h : Tiles items start tokens stop) {token : Token}
    (hlast : tokens.getLast? = some token) : token.stop = stop ∧ stop ≤ items.length := by
  induction h with
  | nil => exact nomatch hlast
  | @cons _ first tokens _ _ _ within _ rest ih =>
    cases rest with
    | nil =>
      obtain rfl := Option.some.inj hlast
      exact ⟨rfl, within⟩
    | cons => exact ih (List.getLast?_cons_cons ▸ hlast)

/-- The texts of the tokens are what lies between the two places. -/
theorem texts (h : Tiles items start tokens stop) :
    tokens.flatMap (·.text.toList) ++ items.drop stop = items.drop start := by
  induction h with
  | nil => rfl
  | @cons start token tokens stop _ nonempty _ text _ ih =>
    have hsplit := List.take_append_drop (token.stop - start) (items.drop start)
    rw [List.drop_drop, Nat.add_sub_cancel' (Nat.le_of_lt nonempty), ← List.drop_take] at hsplit
    rw [List.flatMap_cons, List.append_assoc, ih, text, hsplit]

end Tiles

/-- An alternative of the choice of the next token calls a rule that makes tokens of this type,
and the text of the token is a word of the rule. -/
def Grammar.Mints (g : Grammar) (token : Token) : Prop :=
  ∃ choice alt rule, g.tokensRule = some choice ∧
    ⟨alt, [.call rule.id]⟩ ∈ choice.block.alternatives ∧ g.rule? rule.id = some rule ∧
    rule.tokenType = some token.type ∧ firstTokenType ≤ token.type ∧
    g.Language rule.id (token.text.toList.map Symbolic.symbol)

namespace Recognizer
variable {σ : Type}

/-- Calls for the next token, one after the other, each of which returns one. -/
inductive Draws (r : Recognizer σ) : Progress Char σ → List Token → Progress Char σ → Prop where
  | nil {p} : Draws r p [] p
  | cons {p token p' tokens q} (first : Ends r.nextToken p (.ok (some token)) p')
    (rest : Draws r p' tokens q) : Draws r p (token :: tokens) q

variable {r : Recognizer σ} {p q : Progress Char σ} {token : Token} {tokens : List Token}

/-! ### One token -/

/-- A token is the text between the places before and after the call. -/
theorem reads_of_nextToken (h : r.Reliable Char)
    (hends : Ends r.nextToken p (.ok (some token)) q) :
    ∃ w, w ≠ [] ∧ p.input.Reads w q.input ∧ token.start = p.input.index ∧
      token.stop = q.input.index ∧
      token.text.toList = (p.input.items.take q.input.index).drop p.input.index := by
  obtain ⟨d, alt, rule, es, htokenizes⟩ := exists_tokenizes h hends
  obtain ⟨_, _, _, _, _, _, _, _, hmoved, htoken⟩ :=
    (nextToken_cases hends).resolve_left fun hnone => nomatch hnone.1
  obtain rfl := Option.some.inj htoken
  obtain ⟨p₁, hstep, hdoes⟩ := htokenizes.does
  have hreads : p.input.Reads (Event.symbols es) q.input := hstep.reads.trans hdoes.reads
  refine ⟨_, fun hnil => hmoved (hreads.index_eq_iff.mpr hnil), hreads, rfl, rfl, ?_⟩
  rw [Stream.text, hreads.items, String.toList_ofList]

theorem tiles_cons (h : r.Reliable Char) (hends : Ends r.nextToken p (.ok (some token)) q)
    {stop : Nat} (hrest : Tiles q.input.items q.input.index tokens stop) :
    Tiles p.input.items p.input.index (token :: tokens) stop := by
  obtain ⟨w, hne, hreads, hstart, hstop, htext⟩ := reads_of_nextToken h hends
  have hpos : 0 < w.length := List.length_pos_iff.mpr hne
  have hindex := hreads.index
  have hlength := hreads.length_ahead
  rw [Stream.ahead, List.length_drop] at hlength
  rw [hreads.items] at hrest
  exact .cons hstart (by omega) (by omega) (hstop ▸ htext) (hstop ▸ hrest)

/-! ### Runs of calls -/

theorem Draws.tiles (h : r.Draws p tokens q) (hreliable : r.Reliable Char) :
    q.input.items = p.input.items ∧ Tiles p.input.items p.input.index tokens q.input.index := by
  induction h with
  | nil => exact ⟨rfl, .nil⟩
  | cons first _ ih =>
    obtain ⟨hitems, hrest⟩ := ih
    obtain ⟨_, _, hreads, _⟩ := reads_of_nextToken hreliable first
    exact ⟨hitems.trans hreads.items, tiles_cons hreliable first hrest⟩

theorem Draws.forall_mem {P : Token → Prop} (h : r.Draws p tokens q)
    (hmade : ∀ p token q, Ends r.nextToken p (.ok (some token)) q → P token) :
    ∀ token ∈ tokens, P token := by
  induction h with
  | nil => exact nofun
  | cons first _ ih => exact List.forall_mem_cons.mpr ⟨hmade _ _ _ first, ih⟩

/-- Enough calls come to the end of the text. -/
theorem draws_of_tokens (hreliable : r.Reliable Char) {fuel : Nat}
    (hfuel : p.input.ahead.length < fuel) (hends : Ends (r.tokens fuel) p (.ok tokens) q) :
    r.Draws p tokens q ∧ q.input.ahead = [] := by
  induction fuel generalizing p tokens with
  | zero => exact absurd hfuel (Nat.not_lt_zero _)
  | succ fuel ih =>
    obtain ⟨next, p', hnext, hends⟩ := ends_bind_ok.mp hends
    cases next with
    | none =>
      obtain ⟨rfl, rfl⟩ := ends_pure_ok.mp hends
      obtain ⟨_, rfl, hahead⟩ := (nextToken_cases hnext).resolve_right (by simp)
      exact ⟨.nil, hahead⟩
    | some token =>
      obtain ⟨rest, q', hrest, hends⟩ := ends_bind_ok.mp hends
      obtain ⟨rfl, rfl⟩ := ends_pure_ok.mp hends
      obtain ⟨w, hne, hreads, _⟩ := reads_of_nextToken hreliable hnext
      have hpos : 0 < w.length := List.length_pos_iff.mpr hne
      have hlength := hreads.length_ahead
      obtain ⟨hdraws, hahead⟩ := ih (by omega) hrest
      exact ⟨.cons hnext hdraws, hahead⟩

/-- An error comes from a call after others that returned tokens. -/
theorem exists_draws_of_error {fuel : Nat} {e : Stop}
    (hends : Ends (r.tokens fuel) p (.error e) q) :
    ∃ tokens p', r.Draws p tokens p' ∧ Ends r.nextToken p' (.error e) q := by
  induction fuel generalizing p with
  | zero => exact nomatch (ends_pure.mp hends).1
  | succ fuel ih =>
    rcases ends_bind.mp hends with ⟨e', hnext, he⟩ | ⟨next, p', hnext, hends⟩
    · obtain rfl := Except.error.inj he
      exact ⟨[], p, .nil, hnext⟩
    · cases next with
      | none => exact nomatch (ends_pure.mp hends).1
      | some token =>
        rcases ends_bind.mp hends with ⟨e', hrest, he⟩ | ⟨_, _, _, hends⟩
        · obtain rfl := Except.error.inj he
          obtain ⟨tokens, p₂, hdraws, hfails⟩ := ih hrest
          exact ⟨token :: tokens, p₂, .cons hnext hdraws, hfails⟩
        · exact nomatch (ends_pure.mp hends).1

/-! ### Analysed grammars -/

section
variable {definition : GrammarDefinition} {a : Analyzer}
  (hgrammar : definition.build = .ok a.grammar)
  {analysis : Analysis} {reports : List Report} (hanalysis : a.analyze = (.ok analysis, reports))
include hgrammar hanalysis

theorem mints_of_nextToken {host : Host σ}
    (hends : Ends (nextToken ⟨analysis, host⟩) p (.ok (some token)) q) :
    a.grammar.Mints token := by
  obtain ⟨_, hsame, _⟩ := Analyzer.analyze_eq_ok hanalysis
  obtain ⟨_, _, hbuilt⟩ := GrammarDefinition.exists_built hgrammar
  have hwf := definition.wellFormed_of_build hgrammar
  obtain ⟨d, alt, rule, es, htoken⟩ :=
    exists_tokenizes (reliable_of_analyze hgrammar hanalysis host) hends
  have hchosen : a.grammar.tokenRuleFor? alt = some rule := hsame ▸ htoken.chosen
  obtain ⟨choice, target, hchoice, hcall, htarget, hrule⟩ :=
    (hbuilt.choosesTokens hwf).exists_of_tokenRuleFor? hchosen
  obtain ⟨made, hmade, rfl, type, htype, hfirst, _⟩ := hbuilt.exists_of_mem_choices htarget
  obtain rfl : made = rule := Option.some.inj ((hwf.rule?_id hmade).symm.trans hrule)
  have heq : token.type = type := by rw [htoken.type, htype, Option.getD_some]
  exact ⟨choice, alt, made, hchoice, hcall, hrule, heq ▸ htype, heq ▸ hfirst,
    htoken.text ▸ ⟨es, hsame ▸ htoken.derives, rfl⟩⟩

/-- **Tokens cover the text.** However many calls return tokens, these lie side by side from the
first place on. No token is empty, and a rule of the choice of the next token makes each. If the
text is taken apart, the tokens are those of such calls, they cover all that is ahead, and the
last one stops at the end. If that fails, it is because the next call fails after such calls. -/
theorem tokenize_tiles (host : Host σ) (p : Progress Char σ) :
    (∀ tokens q, Draws ⟨analysis, host⟩ p tokens q →
      Tiles p.input.items p.input.index tokens q.input.index ∧
        tokens.flatMap (·.text.toList) ++ q.input.ahead = p.input.ahead ∧
        ∀ token ∈ tokens, a.grammar.Mints token) ∧
    (∀ tokens q, Ends (tokenize ⟨analysis, host⟩) p (.ok tokens) q →
      Draws ⟨analysis, host⟩ p tokens q ∧ tokens.flatMap (·.text.toList) = p.input.ahead ∧
        ∀ token, tokens.getLast? = some token → token.stop = p.input.items.length) ∧
    ∀ e q, Ends (tokenize ⟨analysis, host⟩) p (.error e) q →
      ∃ tokens p', Draws ⟨analysis, host⟩ p tokens p' ∧
        Ends (nextToken ⟨analysis, host⟩) p' (.error e) q := by
  have hreliable : Reliable Char ⟨analysis, host⟩ := reliable_of_analyze hgrammar hanalysis host
  have htexts {tokens : List Token} {q : Progress Char σ} (h : Draws ⟨analysis, host⟩ p tokens q) :
      tokens.flatMap (·.text.toList) ++ q.input.ahead = p.input.ahead := by
    obtain ⟨hitems, htiles⟩ := h.tiles hreliable
    rw [Stream.ahead, hitems]
    exact htiles.texts
  refine ⟨fun tokens q h => ⟨(h.tiles hreliable).2, htexts h,
    h.forall_mem fun _ _ _ => mints_of_nextToken hgrammar hanalysis⟩, fun tokens q h => ?_,
    fun e q h => exists_draws_of_error h⟩
  obtain ⟨hdraws, hahead⟩ := draws_of_tokens hreliable (Nat.lt_succ_self _) h
  obtain ⟨hitems, htiles⟩ := hdraws.tiles hreliable
  have hcovers := htexts hdraws
  rw [hahead, List.append_nil] at hcovers
  refine ⟨hdraws, hcovers, fun token hlast => ?_⟩
  obtain ⟨hstop, hle⟩ := htiles.stop_eq hlast
  -- The end is reached, and the last token stops in the text.
  have hend : p.input.items.length ≤ q.input.index := by
    rwa [Stream.ahead, hitems, List.drop_eq_nil_iff] at hahead
  exact hstop.trans (Nat.le_antisymm hle hend)

end

/-- Numbers of several digits, and a sign that only a parser rule has. -/
def sums : GrammarDefinition where
  name := "Sums"
  kind := .combined
  rules := [⟨"s", .seq [.ref "N", .repeated .star (.seq [.literal "+", .ref "N"])], false⟩,
    ⟨"D", .range '0' '9', true⟩, ⟨"N", .repeated .plus (.ref "D"), false⟩]
  tokens := []

def sumsAnalyzer : Analyzer := ⟨sums.grammar, .standard, none⟩

/-- Before the third character. -/
def fromThird (text : List Char) : Progress Char Unit := ⟨⟨text, 2⟩, (), []⟩

/-- From the third character on three tokens cover the one text. In the other one no token starts
with the second sign, and what comes before it is covered. -/
theorem tokenize_tiles_sums :
    sums.build = .ok sumsAnalyzer.grammar ∧
    sumsAnalyzer.analyze = (.ok sumsAnalyzer.analysis, []) ∧
    (∃ q, Ends (tokenize ⟨sumsAnalyzer.analysis, agreeing⟩)
        (fromThird ['1', '+', '2', '3', '+', '4'])
        (.ok [⟨4, "23", 2, 4⟩, ⟨5, "+", 4, 5⟩, ⟨4, "4", 5, 6⟩]) q ∧
      Tiles ['1', '+', '2', '3', '+', '4'] 2
        [⟨4, "23", 2, 4⟩, ⟨5, "+", 4, 5⟩, ⟨4, "4", 5, 6⟩] q.input.index ∧
      sumsAnalyzer.grammar.Mints ⟨5, "+", 4, 5⟩) ∧
    ∃ e q tokens p', Ends (tokenize ⟨sumsAnalyzer.analysis, agreeing⟩)
        (fromThird ['1', '+', '2', '3', '-', '4']) (.error e) q ∧
      Ends (nextToken ⟨sumsAnalyzer.analysis, agreeing⟩) p' (.error e) q ∧
      Tiles ['1', '+', '2', '3', '-', '4'] 2 tokens p'.input.index := by
  have hbuild : sums.build = .ok sumsAnalyzer.grammar :=
    GrammarDefinition.build_eq_ok (by decide +kernel)
  have hreports : sumsAnalyzer.analyze.2 = [] := by decide +kernel
  have hanalyze : sumsAnalyzer.analyze = (.ok sumsAnalyzer.analysis, []) :=
    hreports ▸ Analyzer.analyze_eq_analysis (by decide +kernel)
  refine ⟨hbuild, hanalyze, ?_, ?_⟩
  · have hends := ends_of_fst (m := tokenize ⟨sumsAnalyzer.analysis, agreeing⟩)
      (s := fromThird ['1', '+', '2', '3', '+', '4'])
      (r := .ok [⟨4, "23", 2, 4⟩, ⟨5, "+", 4, 5⟩, ⟨4, "4", 5, 6⟩]) (by decide +kernel)
    obtain ⟨hdraws, hall, _⟩ := tokenize_tiles hbuild hanalyze agreeing
      (fromThird ['1', '+', '2', '3', '+', '4'])
    obtain ⟨htiles, _, hmints⟩ := hdraws _ _ (hall _ _ hends).1
    exact ⟨_, hends, htiles, hmints _ (.tail _ (.head _))⟩
  · have hends := ends_of_fst (m := tokenize ⟨sumsAnalyzer.analysis, agreeing⟩)
      (s := fromThird ['1', '+', '2', '3', '-', '4'])
      (r := .error (.error (.noViableAlternative "Tokens" 2 (some 45) 4))) (by decide +kernel)
    obtain ⟨hdraws, _, hfails⟩ := tokenize_tiles hbuild hanalyze agreeing
      (fromThird ['1', '+', '2', '3', '-', '4'])
    obtain ⟨tokens, p', hdrawn, hnext⟩ := hfails _ _ hends
    exact ⟨_, _, tokens, p', hends, hnext, (hdraws _ _ hdrawn).1⟩

end Recognizer
end Lookahead
