import Lookahead.Proofs.Recognition.Follows

/-! Results do not depend on how deeply calls may be nested.

A bound on the depth of calls cuts off only runs that come to it. What does not end too deep ends
alike where calls may go deeper (`Deepens`), and this carries over from the calls in a rule to the
rule. So two bounds under which a rule does not go too deep give the same result (`rule_agrees`),
and the numbers in `depthLimit` show in no result but this one (`invoke_deepens`). -/
namespace Lookahead.Recognizer
variable {α σ β γ : Type}

/-- The second action ends as the first one does, unless that one goes too deep. -/
def Deepens (m m' : Recognize α σ β) : Prop :=
  ∀ p res q, Ends m p res q → res ≠ .error .tooDeep → Ends m' p res q

namespace Deepens
variable {m m' : Recognize α σ β}

theorem refl (m : Recognize α σ β) : Deepens m m := fun _ _ _ h _ => h

/-- Parts that are bound one after the other. -/
theorem bind (h : Deepens m m') {f f' : β → Recognize α σ γ} (hf : ∀ b, Deepens (f b) (f' b)) :
    Deepens (m >>= f) (m' >>= f') := by
  intro p res q hends hres
  rcases ends_bind.mp hends with ⟨e, hm, rfl⟩ | ⟨b, p', hm, hends⟩
  · have hne : e ≠ .tooDeep := fun he => hres (congrArg Except.error he)
    exact ends_bind.mpr (.inl ⟨e, h _ _ _ hm fun he => hne (Except.error.inj he), rfl⟩)
  · exact ends_bind.mpr (.inr ⟨b, p', h _ _ _ hm nofun, hf b _ _ _ hends hres⟩)

theorem get_bind {f f' : Progress α σ → Recognize α σ β} (h : ∀ p, Deepens (f p) (f' p)) :
    Deepens (get >>= f) (get >>= f') :=
  (refl get).bind h

end Deepens

variable [Symbolic α] {r : Recognizer σ} {p q : Progress α σ}

/-! ### Elements -/

section
variable {call call' : RuleId → Recognize α σ Unit} {rule : String}
  {as : List (Alternative Element)}

/-- Each alternative of a block is deepened by other calls. -/
abbrev DeepensEach (r : Recognizer σ) (call call' : RuleId → Recognize α σ Unit) (rule : String)
    (as : List (Alternative Element)) : Prop :=
  ∀ a ∈ as, Deepens (r.sequence call rule a.elements) (r.sequence call' rule a.elements)

theorem deepens_branch (has : r.DeepensEach call call' rule as) (n : Nat) :
    Deepens ((r.alternative call rule as n).getD (pure ()))
      ((r.alternative call' rule as n).getD (pure ())) := by
  rw [alternative_eq, alternative_eq]
  cases ha : as[n]? with
  | none => exact .refl _
  | some a => exact has a (List.mem_of_getElem? ha)

theorem deepens_loop (choose : Recognize α σ Ordinal) (has : r.DeepensEach call call' rule as)
    (fuel : Nat) :
    Deepens (loop choose (fun alt => r.alternative call rule as (alt - 1)) fuel)
      (loop choose (fun alt => r.alternative call' rule as (alt - 1)) fuel) := by
  induction fuel with
  | zero => exact .refl _
  | succ fuel ih =>
    rw [loop, loop]
    refine (Deepens.refl choose).bind fun alt => ?_
    rw [alternative_eq, alternative_eq]
    cases ha : as[alt - 1]? with
    | none => exact .refl _
    | some a =>
      refine (Deepens.refl index).bind fun before => ?_
      refine (has a (List.mem_of_getElem? ha)).bind fun _ =>
        (Deepens.refl index).bind fun after => ?_
      split
      · exact .refl _
      · exact ih.bind fun _ => .refl _

mutual
/-- Where calls go deeper, so does the element that makes them. -/
theorem deepens_element (hcall : ∀ id, Deepens (call id) (call' id)) :
    (e : Element) → Deepens (r.element call rule e) (r.element call' rule e)
  | .symbols _ | .predicate _ | .action _ => .refl _
  | .call id => hcall id
  | .block .single d as => (Deepens.refl (r.choose d)).bind fun alt =>
    deepens_branch (deepens_alternatives hcall as) (alt - 1)
  | .block .optional d as => (Deepens.refl (r.choose d)).bind fun alt =>
    deepens_branch (deepens_alternatives hcall as) (alt - 1)
  | .block .star _ as => .get_bind fun _ =>
    (deepens_loop _ (deepens_alternatives hcall as) _).bind fun _ => .refl _
  | .block .plus _ as => .get_bind fun _ =>
    (deepens_loop _ (deepens_alternatives hcall as) _).bind fun _ => .refl _

theorem deepens_sequence (hcall : ∀ id, Deepens (call id) (call' id)) :
    (es : List Element) → Deepens (r.sequence call rule es) (r.sequence call' rule es)
  | [] => .refl _
  | e :: es => (deepens_element hcall e).bind fun _ => deepens_sequence hcall es

theorem deepens_alternatives (hcall : ∀ id, Deepens (call id) (call' id)) :
    (as : List (Alternative Element)) → r.DeepensEach call call' rule as
  | [] => nofun
  | a :: as => List.forall_mem_cons.mpr
    ⟨deepens_sequence hcall a.elements, deepens_alternatives hcall as⟩
end

end

/-! ### Rules -/

/-- A rule whose calls may be nested more deeply ends as before, unless it went too deep. -/
theorem deepens_rule (r : Recognizer σ) {depth depth' : Nat} (hle : depth ≤ depth') (id : RuleId) :
    Deepens (r.rule depth id : Recognize α σ Unit) (r.rule depth' id) := by
  induction depth generalizing depth' id with
  | zero => exact fun _ _ _ hends hres => absurd (ends_throw.mp hends).1 hres
  | succ depth ih =>
    obtain ⟨depth', rfl⟩ := Nat.exists_eq_add_of_lt (Nat.lt_of_succ_le hle)
    rw [rule, rule]
    cases r.analysis.grammar.rule? id with
    | none => exact .refl _
    | some found => exact deepens_element (fun id => ih (Nat.le_add_right _ _) id) _

/-- Two bounds under which a rule does not go too deep give the same result. -/
theorem rule_agrees {depth depth' : Nat} {id : RuleId} {res res' : Except Stop Unit}
    {q q' : Progress α σ} (h : Ends (r.rule depth id) p res q) (hres : res ≠ .error .tooDeep)
    (h' : Ends (r.rule depth' id) p res' q') (hres' : res' ≠ .error .tooDeep) :
    res = res' ∧ q = q' :=
  (r.deepens_rule (Nat.le_max_left depth depth') id _ _ _ h hres).unique
    (r.deepens_rule (Nat.le_max_right depth depth') id _ _ _ h' hres')

/-- **The bound on calls shows in no result but its own.** What a recognizer comes to, if not
that it goes too deep, it comes to wherever calls may be nested at least as deeply. -/
theorem invoke_deepens {name : String} {found : Rule}
    (hname : r.analysis.grammar.ruleNamed? name = some found) {res : Except Stop Unit}
    (hends : Ends (r.invoke name) p res q) (hres : res ≠ .error .tooDeep) {depth : Nat}
    (hdepth : r.depthLimit p.input.ahead.length ≤ depth) :
    Ends (r.rule depth found.id) p res q := by
  simp only [invoke, hname] at hends
  exact r.deepens_rule hdepth found.id _ _ _ (ends_get_bind.mp hends) hres

end Lookahead.Recognizer
