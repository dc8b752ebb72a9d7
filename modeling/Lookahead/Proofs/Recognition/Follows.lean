import Lookahead.Proofs.Recognition.Progress

/-! Actions of a recognizer and what they follow.

An action follows some derivations if its events are derived where it ends well. Where it ends
with an error, its events are those of a derivation that is cut off, and the error is the one
that comes there. -/
namespace Lookahead.Recognizer
variable {α σ : Type} {r : Recognizer σ} {p q : Progress α σ} {rule : String}

/-! ### Ends of single steps -/

theorem ends_index_bind {β : Type} {f : Nat → Recognize α σ β} {res : Except Stop β} :
    Ends (index >>= f) p res q ↔ Ends (f p.input.index) p res q := Iff.rfl

theorem ends_inHost {β : Type} {act : StateM σ β} {res : Except Stop β} :
    Ends (inHost act : Recognize α σ β) p res q ↔
      res = .ok (act.run p.host).1 ∧ q = { p with host := (act.run p.host).2 } := by
  rw [inHost, ends_modifyGet]
  exact Iff.rfl

/-- The value of a predicate: the one that is known, or the host's answer. -/
theorem ends_predicate {id : PredicateId} {predicate : Predicate}
    (hp : r.analysis.grammar.predicates[id]? = some predicate) {res : Except Stop Unit} :
    Ends (r.predicate rule id : Recognize α σ Unit) p res q ↔ ∃ value host,
      (r.analysis.staticValue id = some value ∧ host = p.host ∨
        r.analysis.staticValue id = none ∧ (r.host.test predicate).run p.host = (value, host)) ∧
      (value = true ∧ res = .ok () ∧ q = { p with host := host } ∨
        value = false ∧ res = .error (.error (.failedPredicate rule predicate.text)) ∧
          q = { p with host := host, reports := p.reports ++ [.failure rule predicate.text] }) := by
  have hrest (value : Bool) (p : Progress α σ) :
      Ends (if (!value) = true then do
        report (.failure rule predicate.text)
        fail (.failedPredicate rule predicate.text)
      else pure () : Recognize α σ Unit) p res q ↔
      (value = true ∧ res = .ok () ∧ q = p ∨
        value = false ∧ res = .error (.error (.failedPredicate rule predicate.text)) ∧
          q = { p with reports := p.reports ++ [.failure rule predicate.text] }) := by
    cases value with
    | true => simp [ends_pure]
    | false => simp [report, fail, ends_modify_bind, ends_throw]
  simp only [Recognizer.predicate, hp]
  cases hs : r.analysis.staticValue id with
  | some value =>
    dsimp only
    rw [pure_bind, hrest]
    constructor
    · rintro (⟨rfl, hres, rfl⟩ | ⟨rfl, hres, rfl⟩)
      · exact ⟨true, q.host, .inl ⟨rfl, rfl⟩, .inl ⟨rfl, hres, rfl⟩⟩
      · exact ⟨false, p.host, .inl ⟨rfl, rfl⟩, .inr ⟨rfl, hres, rfl⟩⟩
    · rintro ⟨value', host, ⟨hvalue, rfl⟩ | ⟨hnone, _⟩, h⟩
      · obtain rfl := Option.some.inj hvalue
        exact h
      · cases hnone
  | none =>
    dsimp only
    rw [ends_bind]
    simp only [ends_inHost]
    constructor
    · rintro (⟨_, ⟨he, _⟩, _⟩ | ⟨value, p', ⟨hvalue, rfl⟩, h⟩)
      · cases he
      · obtain rfl := Except.ok.inj hvalue
        exact ⟨_, _, .inr ⟨trivial, rfl⟩, (hrest _ _).mp h⟩
    · rintro ⟨value, host, ⟨hsome, _⟩ | ⟨_, hrun⟩, h⟩
      · cases hsome
      · refine .inr ⟨value, { p with host := host }, ?_, (hrest _ _).mpr h⟩
        rw [hrun]
        exact ⟨rfl, rfl⟩

/-! ### Actions that follow derivations -/

variable [Symbolic α]

/-- From `p` on, the action does only what is derived, and an error comes where a derivation
is cut off. -/
structure Follows {β : Type} (r : Recognizer σ) (p : Progress α σ) (m : Recognize α σ β)
    (derived : β → List Event → Prop) (begun : List Event → Cut → Prop) : Prop where
  ok : ∀ {b q}, Ends m p (.ok b) q → ∃ es, derived b es ∧ r.Does p es q
  error : ∀ {e q}, Ends m p (.error (.error e)) q →
    ∃ es c p', begun es c ∧ r.Does p es p' ∧ r.Raises p' c e q

section
variable {β γ : Type} {m : Recognize α σ β} {f : β → Recognize α σ γ}
  {derived : β → List Event → Prop} {derived' : γ → List Event → Prop}
  {begun begun' : List Event → Cut → Prop}

theorem Follows.imp {later : β → List Event → Prop} (h : r.Follows p m derived begun)
    (hderived : ∀ b es, derived b es → later b es) (hbegun : ∀ es c, begun es c → begun' es c) :
    r.Follows p m later begun' where
  ok hends := by
    obtain ⟨es, hes, hdoes⟩ := h.ok hends
    exact ⟨es, hderived _ _ hes, hdoes⟩
  error hends := by
    obtain ⟨es, c, p', hes, hdoes, hraises⟩ := h.error hends
    exact ⟨es, c, p', hbegun _ _ hes, hdoes, hraises⟩

/-- What comes second adds its events to those of the first. -/
theorem Follows.bind (h : r.Follows p m derived begun)
    (hf : ∀ b es p', derived b es → r.Does p es p' →
      r.Follows p' (f b) (fun c fs => derived' c (es ++ fs)) (fun fs c => begun' (es ++ fs) c))
    (hbegun : ∀ es c, begun es c → begun' es c) : r.Follows p (m >>= f) derived' begun' where
  ok hends := by
    obtain ⟨b, p', hm, hf'⟩ := ends_bind_ok.mp hends
    obtain ⟨es, hes, hdoes⟩ := h.ok hm
    obtain ⟨fs, hfs, hdoes'⟩ := (hf b es p' hes hdoes).ok hf'
    exact ⟨es ++ fs, hfs, hdoes.append hdoes'⟩
  error hends := by
    rcases ends_bind.mp hends with ⟨_, hm, he⟩ | ⟨b, p', hm, hf'⟩
    · obtain rfl := Except.error.inj he
      obtain ⟨es, c, p', hes, hdoes, hraises⟩ := h.error hm
      exact ⟨es, c, p', hbegun _ _ hes, hdoes, hraises⟩
    · obtain ⟨es, hes, hdoes⟩ := h.ok hm
      obtain ⟨fs, c, q', hfs, hdoes', hraises⟩ := (hf b es p' hes hdoes).error hf'
      exact ⟨es ++ fs, c, q', hfs, hdoes.append hdoes', hraises⟩

theorem follows_pure {b : β} (h : derived b []) :
    r.Follows p (pure b : Recognize α σ β) derived begun where
  ok hends := by
    obtain ⟨rfl, rfl⟩ := ends_pure_ok.mp hends
    exact ⟨[], h, .nil⟩
  error hends := nomatch (ends_pure.mp hends).1

theorem follows_tooDeep : r.Follows p (throw .tooDeep : Recognize α σ β) derived begun where
  ok hends := nomatch (ends_throw.mp hends).1
  error hends := nomatch Except.error.inj (ends_throw.mp hends).1

theorem follows_fail {e : RecognitionError} {c : Cut} (hbegun : begun [] c)
    (h : r.Raises p c e p) : r.Follows p (fail e : Recognize α σ β) derived begun where
  ok hends := nomatch (ends_throw.mp hends).1
  error hends := by
    obtain ⟨he, rfl⟩ := ends_throw.mp hends
    obtain rfl := Stop.error.inj (Except.error.inj he)
    exact ⟨[], c, _, hbegun, .nil, h⟩

theorem follows_get_bind {f : Progress α σ → Recognize α σ γ}
    (h : r.Follows p (f p) derived' begun') : r.Follows p (get >>= f) derived' begun' :=
  ⟨h.ok, h.error⟩

theorem follows_index_bind {f : Nat → Recognize α σ γ}
    (h : r.Follows p (f p.input.index) derived' begun') :
    r.Follows p (index >>= f) derived' begun' :=
  ⟨h.ok, h.error⟩

end

/-! ### Single actions -/

theorem alternative_eq (r : Recognizer σ) (call : RuleId → Recognize α σ Unit) (rule : String)
    (as : List (Alternative Element)) (n : Nat) :
    r.alternative call rule as n = as[n]?.map fun a => r.sequence call rule a.elements := by
  induction as generalizing n with
  | nil => rfl
  | cons a as ih =>
    cases n with
    | zero => rfl
    | succ n => exact ih n

variable {calls : RuleId → List Event → Prop} {begun : RuleId → List Event → Cut → Prop}

/-- A set of at most one range has the symbols that are found in it. -/
theorem contains_iff_of_plain {set : SymbolSet} (h : (Element.symbols set).Plain) {x : Symbol} :
    set.contains x = true ↔ x ∈ set := by
  refine SymbolSet.contains_iff ?_
  rcases set with ⟨_ | ⟨range, _ | ⟨range', ranges⟩⟩⟩
  · exact List.Pairwise.nil
  · exact List.pairwise_singleton ..
  · exact absurd h (by simp [Element.Plain])

theorem ends_symbols {set : SymbolSet} (hplain : (Element.symbols set).Plain)
    {res : Except Stop Unit} :
    Ends (symbols rule set : Recognize α σ Unit) p res q ↔
      (∃ x, p.input.symbol? 1 = some x ∧ x ∈ set ∧ res = .ok () ∧
        q = { p with input := p.input.consume }) ∨
      ((∀ x, p.input.symbol? 1 = some x → x ∉ set) ∧ q = p ∧ res = .error (.error
        (.mismatchedSymbol rule set (p.input.symbol? 1) p.input.index))) := by
  simp only [symbols, ends_get_bind]
  cases hx : p.input.symbol? 1 with
  | none =>
    simp only [fail, ends_throw]
    grind
  | some x =>
    by_cases hset : x ∈ set
    · simp only [if_pos ((contains_iff_of_plain hplain).mpr hset), ends_modify]
      grind
    · simp only [if_neg fun h => hset ((contains_iff_of_plain hplain).mp h), fail, ends_throw]
      grind

theorem follows_symbols {set : SymbolSet} (hplain : (Element.symbols set).Plain) :
    r.Follows p (symbols rule set : Recognize α σ Unit)
      (fun _ => Derives calls (.element (.symbols set)))
      (Begins calls begun rule (.element (.symbols set))) where
  ok hends := by
    rcases (ends_symbols hplain).mp hends with ⟨x, hx, hset, _, rfl⟩ | ⟨_, _, he⟩
    · exact ⟨[.symbol x], .symbols hset, .single (.symbol hx)⟩
    · exact nomatch he
  error hends := by
    rcases (ends_symbols hplain).mp hends with ⟨_, _, _, he, _⟩ | ⟨hset, rfl, he⟩
    · exact nomatch he
    · obtain rfl := Stop.error.inj (Except.error.inj he)
      exact ⟨[], _, _, .symbols set, .nil, .symbols hset⟩

theorem follows_predicate {id : PredicateId} (hid : id < r.analysis.grammar.predicates.length) :
    r.Follows p (r.predicate rule id : Recognize α σ Unit)
      (fun _ => Derives calls (.element (.predicate id)))
      (Begins calls begun rule (.element (.predicate id))) where
  ok hends := by
    have hp := List.getElem?_eq_getElem hid
    obtain ⟨value, host, hvalue, ⟨rfl, _, rfl⟩ | ⟨_, he, _⟩⟩ := (ends_predicate hp).mp hends
    · refine ⟨[.predicate id], .predicate id, .single ?_⟩
      rcases hvalue with ⟨hs, rfl⟩ | ⟨hs, hrun⟩
      · exact .known hs
      · exact .asked hp hs hrun
    · exact nomatch he
  error hends := by
    have hp := List.getElem?_eq_getElem hid
    obtain ⟨value, host, hvalue, ⟨_, he, _⟩ | ⟨rfl, he, rfl⟩⟩ := (ends_predicate hp).mp hends
    · exact nomatch he
    · obtain rfl := Stop.error.inj (Except.error.inj he)
      refine ⟨[], _, _, .predicate id, .nil, ?_⟩
      rcases hvalue with ⟨hs, rfl⟩ | ⟨hs, hrun⟩
      · exact .known hp hs
      · exact .asked hp hs hrun

theorem follows_action {id : ActionId} (hid : id < r.analysis.grammar.actions.length) :
    r.Follows p (r.action id : Recognize α σ Unit) (fun _ => Derives calls (.element (.action id)))
      (Begins calls begun rule (.element (.action id))) := by
  have ha := List.getElem?_eq_getElem hid
  simp only [Recognizer.action, ha]
  refine ⟨fun hends => ?_, fun hends => nomatch (ends_inHost.mp hends).1⟩
  obtain ⟨_, rfl⟩ := ends_inHost.mp hends
  exact ⟨[.action id], .action id, .single (.action ha)⟩

/-- What a prediction in the recognizer comes to. -/
theorem ends_predict {d : DecisionId} {automaton : Automaton}
    (ha : r.analysis.automaton? d = some automaton) {res : Except Stop Ordinal} :
    Ends (r.predict d : Recognize α σ Ordinal) p res q ↔ ∃ result report host,
      (automaton.predict r.host.test p.input).run p.host = (⟨result, report⟩, host) ∧
      q = { p with host := host, reports := p.reports ++ report.toList } ∧
      res = result.mapError .error := by
  rcases hrun : (automaton.predict r.host.test p.input).run p.host with ⟨⟨result, report⟩, host⟩
  have hends : Ends (r.predict d : Recognize α σ Ordinal) p (result.mapError .error)
      { p with host := host, reports := p.reports ++ report.toList } := by
    simp only [Recognizer.predict, ha, ends_get_bind]
    refine ends_bind.mpr (.inr ⟨⟨result, report⟩, { p with host := host }, ?_, ?_⟩)
    · rw [ends_inHost, hrun]
      exact ⟨rfl, rfl⟩
    · cases report with
      | none =>
        rw [Option.toList_none, List.append_nil]
        unfold Ends
        cases result <;> rfl
      | some report =>
        unfold Ends
        cases result <;> rfl
  constructor
  · intro h
    obtain ⟨rfl, rfl⟩ := h.unique hends
    exact ⟨result, report, host, rfl, rfl, rfl⟩
  · rintro ⟨_, _, _, heq, rfl, rfl⟩
    obtain ⟨hverdict, rfl⟩ := Prod.mk.inj heq
    obtain ⟨rfl, rfl⟩ := Verdict.mk.inj hverdict
    exact hends

/-- An alternative that is predicted is chosen. -/
theorem step_of_predict {d : DecisionId} {alt : Ordinal}
    (h : Ends (r.predict d : Recognize α σ Ordinal) p (.ok alt) q) :
    r.Step p (.choice d alt) q := by
  cases ha : r.analysis.automaton? d with
  | none =>
    simp only [Recognizer.predict, ha] at h
    exact nomatch (ends_throw.mp h).1
  | some automaton =>
    obtain ⟨result, report, host, hrun, rfl, hres⟩ := (ends_predict ha).mp h
    cases result with
    | error e => exact nomatch hres
    | ok alt' =>
      obtain rfl := Except.ok.inj hres
      exact .choice ha hrun

end Lookahead.Recognizer
