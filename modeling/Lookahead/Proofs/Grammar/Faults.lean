import Lookahead.Proofs.Grammar.Literals
import Lookahead.Proofs.Grammar.Records

/-! When something is wrong with a definition.

Errors come up in four places: a rule is not accepted, a declared token may not have its literal,
a body is lowered that has no meaning, or the name of the last rule is taken. For each place one
lemma says when it raises none. What lowering notes is counted with it (`Checks`): errors are
only added, and none is exactly if every part of the body can be looked up (`checks_lower`). -/
namespace Lookahead

/-! ### Bodies -/

/-- Taking apart the alternatives of a body or the body itself leads to the same parts. -/
theorem Expr.atomsOf_alternatives (e : Expr) : Expr.atomsOf e.alternatives = e.atoms := by
  unfold Expr.alternatives
  split
  · rw [Expr.atoms]
  · rw [Expr.atomsOf, Expr.atomsOf, List.append_nil]

namespace Expr

mutual
/-- The body of a lexer rule adds no element to a sequence. -/
def isBare : Expr → Bool
  | .seq items => areBare items
  | .choice [] => true
  | .choice [e] => isBare e
  | .literal text => text.toList.isEmpty
  | .empty => true
  | _ => false

def areBare : List Expr → Bool
  | [] => true
  | e :: es => isBare e && areBare es
end

end Expr

namespace Grammar

/-- A part of a body can be looked up in a rule of this kind. -/
def Resolves (grammar : GrammarKind) (tokens : TokenTable) (ruleNames : List String)
    (ruleKind : RuleKind) : Expr → Prop
  | .range _ _ => ruleKind = .lexer
  | .literal text =>
    ruleKind = .parser → grammar = .combined ∧ (tokens.type? (quote text)).isSome
  | .ref name =>
    if ruleKind = .parser ∧ RuleKind.ofName name = .lexer then (tokens.type? name).isSome = true
    else name ∈ ruleNames ∧ ¬(ruleKind = .lexer ∧ RuleKind.ofName name = .parser)
  | _ => True

def Scope.Resolves (s : Scope) : Expr → Prop :=
  Grammar.Resolves s.grammar s.tokens s.ruleNames s.ruleKind

/-! ### What a step notes -/

/-- Computing something takes back no errors, and notes none exactly if a condition holds. -/
def Checks {α : Type} (m : StateM Draft α) (P : Prop) : Prop :=
  ∀ d, d.errors <+: (m.run d).2.errors ∧ ((m.run d).2.errors = d.errors ↔ P)

section
variable {α β : Type} {m : StateM Draft α} {f : α → StateM Draft β} {P Q : Prop}

theorem Checks.silent (h : ∀ d, (m.run d).2.errors = d.errors) (hP : P) : Checks m P :=
  fun d => ⟨h d ▸ List.prefix_refl _, iff_of_true (h d) hP⟩

theorem Checks.pure (a : α) (hP : P) : Checks (pure a) P := .silent (fun _ => rfl) hP

theorem Checks.congr (h : Checks m P) (hiff : P ↔ Q) : Checks m Q :=
  fun d => (h d).imp_right fun h => h.trans hiff

/-- The condition of the second step may be about what the first one has found. -/
theorem Checks.bind_of {Q' : α → Prop} (hm : Checks m P) (hf : ∀ a, Checks (f a) (Q' a))
    (hQ : ∀ d, P → (Q' (m.run d).1 ↔ Q)) : Checks (m >>= f) (P ∧ Q) := by
  intro d
  obtain ⟨hlong, hP⟩ := hm d
  obtain ⟨hlonger, hQ'⟩ := hf (m.run d).1 (m.run d).2
  rw [run_bind]
  refine ⟨hlong.trans hlonger, fun h => ?_, fun ⟨h, h'⟩ => ?_⟩
  · -- The errors in between are as many as before and after.
    have hmid : (m.run d).2.errors = d.errors :=
      (hlong.eq_of_length_le (h ▸ hlonger.length_le)).symm
    have hfound := hP.mp hmid
    exact ⟨hfound, (hQ d hfound).mp (hQ'.mp (h.trans hmid.symm))⟩
  · exact (hQ'.mpr ((hQ d h).mpr h')).trans (hP.mpr h)

theorem Checks.bind (hm : Checks m P) (hf : ∀ a, Checks (f a) Q) : Checks (m >>= f) (P ∧ Q) :=
  hm.bind_of hf fun _ _ => Iff.rfl

/-- What goes on without errors changes nothing. -/
theorem Checks.bind_true (hm : Checks m P) (hf : ∀ a, Checks (f a) True) : Checks (m >>= f) P :=
  (hm.bind hf).congr (and_iff_left trivial)

theorem Checks.true_bind (hm : Checks m True) (hf : ∀ a, Checks (f a) Q) : Checks (m >>= f) Q :=
  (hm.bind hf).congr (and_iff_right trivial)

theorem Checks.note (e : GrammarError) (hP : ¬P) : Checks (Draft.note e) P :=
  fun _ => ⟨List.prefix_append _ _,
    iff_of_false (fun h => nomatch List.append_right_eq_self.mp h) hP⟩

theorem Checks.error (e : GrammarError) (a : α) (hP : ¬P) :
    Checks (do Draft.note e; return a) P :=
  (Checks.note e hP).bind_true fun _ => .pure a trivial

end

/-! ### Lowering -/

variable {s : Scope}

theorem checks_openDecision (s : Scope) (kind : BlockKind) (count : Nat) :
    Checks (openDecision s kind count) True := by
  cases kind with
  | single =>
    simp only [openDecision]
    split
    · exact .silent (fun _ => rfl) trivial
    · exact .pure none trivial
  | optional | star | plus => exact .silent (fun _ => rfl) trivial

theorem checks_literal (text : String) :
    Checks (lowerLiteral s text) (s.Resolves (.literal text)) := by
  unfold lowerLiteral
  split
  · next hkind => exact .pure _ fun h => nomatch hkind ▸ h
  · next hkind =>
    have hiff : s.Resolves (.literal text) ↔
        s.grammar = .combined ∧ (s.tokens.type? (quote text)).isSome := by
      simp [Scope.Resolves, Resolves, hkind]
    rw [hiff]
    split
    · next htype =>
      rw [htype]
      split
      · next hgrammar => exact .pure _ ⟨hgrammar, rfl⟩
      · next hgrammar => exact .error _ _ fun h => hgrammar h.1
    · next htype =>
      rw [htype]
      exact .error _ _ fun h => nomatch h.2

theorem checks_ref (name : String) : Checks (lowerRef s name) (s.Resolves (.ref name)) := by
  unfold lowerRef
  split
  · next htoken =>
    have hiff : s.Resolves (.ref name) ↔ (s.tokens.type? name).isSome := by
      simp only [Scope.Resolves, Resolves, if_pos htoken]
    rw [hiff]
    split
    · next htype => exact .pure _ (htype ▸ rfl)
    · next htype => exact .error _ _ (htype ▸ nofun)
  · next hrule =>
    have hiff : s.Resolves (.ref name) ↔
        name ∈ s.ruleNames ∧ ¬(s.ruleKind = .lexer ∧ RuleKind.ofName name = .parser) := by
      simp only [Scope.Resolves, Resolves, if_neg hrule]
    rw [hiff]
    split
    · next rule hfound =>
      obtain ⟨hlt, hname, _⟩ := List.findIdx?_eq_some_iff_getElem.mp hfound
      have hmem : name ∈ s.ruleNames := eq_of_beq hname ▸ List.getElem_mem hlt
      split
      · next hkind => exact .error _ _ fun h => h.2 hkind
      · next hkind => exact .pure _ ⟨hmem, hkind⟩
    · next hnone =>
      refine .error _ _ fun h => ?_
      exact absurd (List.findIdx?_eq_none_iff.mp hnone name h.1) (by simp)

/-- A body is lowered without errors exactly if each of its parts can be looked up. -/
theorem checks_lower (s : Scope) :
    (∀ e, Checks (lower s e) (∀ x ∈ e.atoms, s.Resolves x)) ∧
    (∀ es, Checks (lowerEach s es) (∀ x ∈ Expr.atomsOf es, s.Resolves x)) ∧
    ∀ es, Checks (lowerSeq s es) (∀ x ∈ Expr.atomsOf es, s.Resolves x) := by
  have hone {e : Expr} : (∀ x ∈ [e], s.Resolves x) ↔ s.Resolves e := List.forall_mem_singleton
  have hcons {e : Expr} {es : List Expr} : (∀ x ∈ e.atoms, s.Resolves x) ∧
      (∀ x ∈ Expr.atomsOf es, s.Resolves x) ↔ ∀ x ∈ Expr.atomsOf (e :: es), s.Resolves x := by
    rw [Expr.atomsOf, List.forall_mem_append]
  apply lower.mutual_induct s
  case case1 =>
    intro items ih
    rw [lower, Expr.atoms]
    exact ih
  case case2 | case15 | case17 => exact .pure _ (List.forall_mem_nil _)
  case case3 =>
    intro e ih
    rw [lower, Expr.atoms]
    exact ih.congr (by rw [Expr.atomsOf, Expr.atomsOf, List.append_nil])
  case case4 =>
    intro e f es he hf hes
    rw [lower, Expr.atoms]
    exact (checks_openDecision s _ _).true_bind fun _ =>
      (he.bind fun _ =>
        (hf.bind fun _ => hes.bind_true fun _ => .pure _ trivial).congr hcons).congr hcons
  case case5 =>
    intro times e es he hes
    rw [lower, Expr.atoms, Expr.atoms]
    exact (checks_openDecision s _ _).true_bind fun _ =>
      (he.bind fun _ => hes.bind_true fun _ => .pure _ trivial).congr hcons
  case case6 =>
    intro times body hbody ih
    rw [lower, Expr.atoms]
    · exact (checks_openDecision s _ _).true_bind fun _ => ih.bind_true fun _ => .pure _ trivial
    · exact hbody
  case case7 | case8 =>
    exact .pure _ (hone.mpr trivial)
  case case9 =>
    intro a b hs
    rw [lower, hs]
    exact .pure _ (hone.mpr hs)
  case case10 =>
    intro a b hs
    rw [lower, hs]
    exact .error _ _ fun h => by cases hs.symm.trans (hone.mp h)
  case case11 =>
    intro text
    rw [lower]
    exact (checks_literal text).congr hone.symm
  case case12 =>
    intro name
    rw [lower]
    exact (checks_ref name).congr hone.symm
  case case13 | case14 =>
    intros
    rw [lower]
    refine .bind_true (.silent (fun _ => rfl) ?_) fun _ => .pure _ trivial
    exact hone.mpr trivial
  case case16 =>
    intro e es he hes
    rw [lowerEach]
    exact (he.bind fun _ => hes.bind_true fun _ => .pure _ trivial).congr hcons
  case case18 =>
    intro e es he hes
    rw [lowerSeq]
    exact (he.bind fun _ => hes.bind_true fun _ => .pure _ trivial).congr hcons

/-! ### Rules without text -/

/-- In a lexer rule without errors those bodies add nothing that are bare. -/
theorem isEmpty_lower (hkind : s.ruleKind = .lexer) :
    (∀ e, (∀ x ∈ e.atoms, s.Resolves x) → ∀ d, ((lower s e).run d).1.isEmpty = e.isBare) ∧
    (∀ es, (∀ x ∈ Expr.atomsOf es, s.Resolves x) →
      ∀ d, ((lowerEach s es).run d).1.all List.isEmpty = es.all Expr.isBare) ∧
    ∀ es, (∀ x ∈ Expr.atomsOf es, s.Resolves x) →
      ∀ d, ((lowerSeq s es).run d).1.isEmpty = Expr.areBare es := by
  apply lower.mutual_induct s
  case case1 =>
    intro items ih hresolves d
    rw [lower, Expr.isBare]
    exact ih (by rwa [Expr.atoms] at hresolves) d
  case case3 =>
    intro e ih hresolves d
    rw [lower, Expr.isBare]
    exact ih (by rwa [Expr.atoms, Expr.atomsOf, Expr.atomsOf, List.append_nil] at hresolves) d
  case case2 | case7 | case8 | case15 | case17 => exact fun _ _ => rfl
  case case4 =>
    intro e f es _ _ _ _ d
    rw [lower]
    rfl
  case case5 =>
    intro times e es _ _ _ d
    rw [lower]
    rfl
  case case6 =>
    intro times body hbody _ _ d
    rw [lower]
    · rfl
    · exact hbody
  case case9 =>
    intro a b hs _ d
    rw [lower, hs]
    rfl
  case case10 =>
    intro a b hs
    cases hkind.symm.trans hs
  case case11 =>
    intro text _ d
    rw [lower, lowerLiteral, hkind, Expr.isBare, run_pure, List.isEmpty_map]
  case case12 =>
    intro name hresolves d
    have hname : name ∈ s.ruleNames ∧ ¬(s.ruleKind = .lexer ∧ RuleKind.ofName name = .parser) := by
      simpa [Expr.atoms, Scope.Resolves, Resolves, hkind] using hresolves
    rw [lower, lowerRef, if_neg fun h => RuleKind.noConfusion (hkind.symm.trans h.1)]
    split
    · rw [if_neg hname.2]
      rfl
    · next hnone => exact absurd (List.findIdx?_eq_none_iff.mp hnone name hname.1) (by simp)
  case case13 | case14 =>
    intros
    rw [lower]
    rfl
  case case16 =>
    intro e es he hes hresolves d
    rw [Expr.atomsOf, List.forall_mem_append] at hresolves
    rw [lowerEach, run_bind, run_bind, run_pure, List.all_cons, List.all_cons,
      he hresolves.1, hes hresolves.2]
  case case18 =>
    intro e es he hes hresolves d
    rw [Expr.atomsOf, List.forall_mem_append] at hresolves
    rw [lowerSeq, run_bind, run_bind, run_pure, Expr.areBare, ← he hresolves.1 d,
      ← hes hresolves.2 ((lower s e).run d).2]
    cases ((lower s e).run d).1 <;> rfl

end Grammar

namespace GrammarDefinition
open Grammar

/-- A rule that is lowered without errors: its parts can be looked up, and if it makes tokens some
alternative adds an element. -/
structure Faultless (grammar : GrammarKind) (tokens : TokenTable) (ruleNames : List String)
    (r : RuleDefinition) : Prop where
  resolves : ∀ x ∈ r.body.atoms, Resolves grammar tokens ruleNames (.ofName r.name) x
  full : RuleKind.ofName r.name = .lexer → r.fragment = false →
    ∃ e ∈ r.body.alternatives, e.isBare = false

section
variable {kind : GrammarKind} {tokens : TokenTable} {names : List String}

theorem checks_lowerRule (id : RuleId) (r : RuleDefinition) :
    Checks (lowerRule kind tokens names id r) (Faultless kind tokens names r) := by
  let s : Scope := ⟨kind, tokens, names, id, r.name, .ofName r.name⟩
  have hbody : Checks (lowerBody s r.body) (∀ x ∈ r.body.atoms, s.Resolves x) := by
    rw [← r.body.atomsOf_alternatives]
    exact (checks_openDecision s _ _).true_bind fun _ =>
      ((checks_lower s).2.1 _).bind_true fun _ => .pure _ trivial
  have hbare (hlexer : RuleKind.ofName r.name = .lexer) (h : ∀ x ∈ r.body.atoms, s.Resolves x)
      (d : Draft) : ((lowerBody s r.body).run d).1.alternatives.all (·.elements.isEmpty) =
        r.body.alternatives.all Expr.isBare := by
    rw [← r.body.atomsOf_alternatives] at h
    rw [← (isEmpty_lower (s := s) hlexer).2.1 _ h ((openDecision s .single _).run d).2,
      ← Alternative.map_elements_numbered ((lowerEach s _).run _).1, List.all_map]
    rfl
  have hfull (d : Draft) (h : ∀ x ∈ r.body.atoms, s.Resolves x) :
      ¬(RuleKind.ofName r.name = .lexer ∧ r.fragment = false ∧
        ((lowerBody s r.body).run d).1.alternatives.all (·.elements.isEmpty)) ↔
      (RuleKind.ofName r.name = .lexer → r.fragment = false →
        ∃ e ∈ r.body.alternatives, e.isBare = false) := by
    rw [not_and, forall_congr' fun hlexer => not_and.trans (by rw [hbare hlexer h d])]
    simp
  have hnote (block : Block) : Checks (do
      if RuleKind.ofName r.name = .lexer ∧ r.fragment = false ∧
          block.alternatives.all (·.elements.isEmpty) then
        Draft.note (.emptyRule r.name)
      return (⟨id, r.name, .ofName r.name, r.fragment, false, tokenTypeOf tokens r, block⟩ : Rule))
      ¬(RuleKind.ofName r.name = .lexer ∧ r.fragment = false ∧
        block.alternatives.all (·.elements.isEmpty)) := by
    split
    · next hempty => exact .error _ _ (not_not_intro hempty)
    · next hempty => exact .pure _ hempty
  exact (hbody.bind_of hnote hfull).congr
    ⟨fun h => ⟨h.1, h.2⟩, fun h => ⟨h.resolves, h.full⟩⟩

/-- Rules are lowered without errors exactly if each of them is. -/
theorem checks_lowerRules (id : RuleId) (rs : List RuleDefinition) :
    Checks (lowerRules kind tokens names id rs) (∀ r ∈ rs, Faultless kind tokens names r) := by
  induction rs generalizing id with
  | nil => exact .pure _ nofun
  | cons r rs ih =>
    exact ((checks_lowerRule id r).bind fun _ => (ih _).bind_true fun _ => .pure _ trivial).congr
      List.forall_mem_cons.symm

end

/-! ### Rules and tokens -/

variable {d : GrammarDefinition}

/-- All rules are accepted exactly if the grammar may have them and their names differ. -/
theorem accepted_eq_nil_iff : d.accepted.2 = [] ↔
    (∀ r ∈ d.rules, excludes d.kind (.ofName r.name) = false) ∧ (d.rules.map (·.name)).Nodup := by
  have hall (rs : List RuleDefinition) (sofar : List RuleDefinition × List GrammarError)
      (herrors : sofar.2 = []) (hkinds : ∀ r ∈ rs, excludes d.kind (.ofName r.name) = false)
      (hnames : ((sofar.1 ++ rs).map (·.name)).Nodup) :
      (rs.foldl (accept d.kind) sofar).2 = [] := by
    induction rs generalizing sofar with
    | nil => exact herrors
    | cons r rs ih =>
      have hnew : ¬(sofar.1.any (·.name == r.name)) = true := by
        rw [List.map_append, List.map_cons] at hnames
        intro hany
        obtain ⟨r', hr', hname⟩ := List.any_eq_true.mp hany
        exact (List.nodup_append.mp hnames).2.2 _ (List.mem_map_of_mem hr') _ (.head _)
          (eq_of_beq hname)
      have hstep : accept d.kind sofar r = (sofar.1 ++ [r], sofar.2) := by
        rw [accept, if_neg (ne_true_of_eq_false (hkinds r (.head _))), if_neg hnew]
      rw [List.foldl_cons, hstep]
      exact ih _ herrors (fun r hr => hkinds r (.tail _ hr)) (by simpa using hnames)
  constructor
  · intro h
    obtain ⟨_, hrules, hkinds⟩ := foldl_accept h
    have hnames := nodup_accepted d
    rw [accepted, hrules] at hnames
    exact ⟨hkinds, hnames⟩
  · exact fun ⟨hkinds, hnames⟩ => hall d.rules ([], []) rfl hkinds hnames

theorem accepted_eq_rules (h : d.accepted.2 = []) : d.accepted.1 = d.rules :=
  (foldl_accept h).2.1

namespace Assignment
variable {kind : GrammarKind} {a : Assignment}

theorem errors_declare_iff (t : TokenDefinition) : (declare kind a t).errors = [] ↔
    a.errors = [] ∧ (t.literal.isSome → kind = .combined) := by
  unfold declare
  cases t.literal with
  | none => simp
  | some literal => cases kind <;> simp

theorem errors_defineRule (r : RuleDefinition) : (defineRule a r).errors = a.errors := by
  rw [defineRule_eq]

theorem errors_mention (e : Expr) : (mention kind a e).errors = a.errors := by
  unfold mention
  split
  · split <;> rfl
  · split <;> rfl
  · rfl

end Assignment
open Assignment

/-- Only the literals of declared tokens may be wrong. -/
theorem errors_assignment_iff (rules : List RuleDefinition) : (d.assignment rules).errors = [] ↔
    ∀ t ∈ d.tokens, t.literal.isSome → d.kind = .combined := by
  have hdeclared (ts : List TokenDefinition) (a : Assignment) :
      (ts.foldl (declare d.kind) a).errors = [] ↔
        a.errors = [] ∧ ∀ t ∈ ts, t.literal.isSome → d.kind = .combined := by
    induction ts generalizing a with
    | nil => simp
    | cons t ts ih => rw [List.foldl_cons, ih, errors_declare_iff, List.forall_mem_cons, and_assoc]
  let P (a : Assignment) : Prop := a.errors = (d.tokens.foldl (declare d.kind) .empty).errors
  have hstart : P (d.tokens.foldl (declare d.kind) .empty) := rfl
  have hend : P (d.assignment rules) := assignment_of_declared hstart
    (fun a h r _ => (errors_defineRule r).trans h)
    fun a h _ _ _ _ e _ => (errors_mention e).trans h
  rw [hend, hdeclared]
  exact and_iff_right rfl

/-! ### The whole definition -/

/-- What lowering the accepted rules leads to. -/
def lowering (d : GrammarDefinition) : List Rule × Draft :=
  (lowerRules d.kind (d.assignment d.accepted.1).tokens (d.accepted.1.map (·.name)) 0
    d.accepted.1).run .empty

/-- A grammar comes out if no place raises an error. -/
theorem exists_build_iff : (∃ g, d.build = .ok g) ↔
    d.accepted.2 = [] ∧ (d.assignment d.accepted.1).errors = [] ∧
    (∀ r ∈ d.accepted.1, Faultless d.kind (d.assignment d.accepted.1).tokens
      (d.accepted.1.map (·.name)) r) ∧
    ¬((d.kind ≠ .parser ∧ dispatch (d.rulesWith d.lowering.1) ≠ []) ∧
      (d.rulesWith d.lowering.1).any (·.name == tokensRuleName) = true) := by
  have hchecks : d.lowering.2.errors = [] ↔ ∀ r ∈ d.accepted.1,
      Faultless d.kind (d.assignment d.accepted.1).tokens (d.accepted.1.map (·.name)) r :=
    (checks_lowerRules 0 d.accepted.1 .empty).2
  rw [← hchecks]
  constructor
  · rintro ⟨g, h⟩
    obtain ⟨lowered, draft, hbuilt⟩ := exists_built h
    have hrun : d.lowering = (lowered, draft) := hbuilt.run
    rw [hrun]
    refine ⟨hbuilt.accepted, hbuilt.assigned, hbuilt.drafted, fun ⟨hchooses, htaken⟩ => ?_⟩
    rcases hbuilt.rules with ⟨_, _, hfree, _⟩ | ⟨hnot, _⟩
    · exact ne_true_of_eq_false hfree htaken
    · exact hnot hchooses
  · rintro ⟨haccepted, hassigned, hdrafted, hfree⟩
    unfold build
    simp only
    split
    next lowered draft hrun =>
      have hlowering : d.lowering = (lowered, draft) := hrun
      rw [hlowering] at hdrafted hfree
      dsimp only [rulesWith] at hdrafted hfree
      rw [if_neg hfree, haccepted, hassigned, hdrafted]
      simp only [List.append_nil, ne_eq, not_true_eq_false, if_false]
      split <;> exact ⟨_, rfl⟩

end GrammarDefinition
end Lookahead
