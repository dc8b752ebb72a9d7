import Lookahead.Proofs.Text
import Lookahead.Script.Basic

/-! Predicates of scripts mean what they say.

A condition is a tree, and `Condition.Written` says which texts write it: any white space may
stand between the parts, and any number of parentheses around operands and conditions. Nothing
parses these texts. A test looks for a negation, for parentheses around the whole and for the
first comparison sign. What makes this right is that each written part closes the parentheses
that it opens (`Written.paired`), so the parentheses around a left operand are never taken for
ones around the whole (`enclosed?_eq_none_of_closed`), and that no sign is found where a longer
one stands (`comparison?_eq_some`). -/
namespace Lookahead.Script
open Text

/-! ### Conditions and how they are written -/

inductive Operand where
  | counter (name : String)
  | number (n : Numeral)

inductive Condition where
  | constant (b : Bool)
  | flag (name : String)
  | compare (c : Comparison) (left right : Operand)
  | not (c : Condition)

/-- The characters of comparison signs, one of which also denies. -/
def signs : List Char := ['!', '<', '>', '=']

/-- The characters that are no part of a name. -/
def marks : List Char := '(' :: ')' :: signs

/-- A word without marks and without white space around it. -/
structure IsName (name : String) : Prop where
  firm : Firm name.toList
  unmarked : ∀ c ∈ name.toList, c ∉ marks

namespace Operand

def text : Operand → List Char
  | counter name => name.toList
  | number n => n.text

/-- A name that is not read as an integer, or an integer. -/
def Proper : Operand → Prop
  | counter name => IsName name ∧ ∀ n : Numeral, n.Proper → n.text ≠ name.toList
  | number n => n.Proper

/-- A counter that is not set is zero. -/
def value (s : Script) : Operand → Int
  | counter name => (s.counters.lookup name).getD 0
  | number n => n.value

/-- The operand with any number of parentheses around it. -/
inductive Written (o : Operand) : List Char → Prop where
  | plain (proper : o.Proper) : Written o o.text
  | parens {before cs after : List Char} (hcs : Written o cs) (hbefore : Blanks before)
    (hafter : Blanks after) : Written o ('(' :: (before ++ cs ++ after ++ [')']))

end Operand

namespace Condition

/-- A flag that is not set is false. -/
def value (s : Script) : Condition → Bool
  | constant b => b
  | flag name => (s.flags.lookup name).getD false
  | compare c left right => c.holds (left.value s) (right.value s)
  | not c => !value s c

/-- The condition in parts with any white space between them. -/
inductive Written : Condition → List Char → Prop where
  | true : Written (.constant true) "true".toList
  | false : Written (.constant false) "false".toList
  | flag {name : String} (hname : IsName name) (htrue : name ≠ "true") (hfalse : name ≠ "false") :
    Written (.flag name) name.toList
  | compare (c : Comparison) {o p : Operand} {left between behind right : List Char}
    (hleft : o.Written left) (hbetween : Blanks between) (hbehind : Blanks behind)
    (hright : p.Written right) :
    Written (.compare c o p) (left ++ between ++ c.sign ++ behind ++ right)
  | not {c : Condition} {before cs : List Char} (hcs : Written c cs) (hbefore : Blanks before) :
    Written (.not c) ('!' :: (before ++ cs))
  | parens {c : Condition} {before cs after : List Char} (hcs : Written c cs)
    (hbefore : Blanks before) (hafter : Blanks after) :
    Written c ('(' :: (before ++ cs ++ after ++ [')']))

end Condition

/-! ### Parentheses -/

/-- Each parenthesis is closed in the text that opens it. -/
def Paired (cs : List Char) : Prop := balanced 0 cs = true

section
variable {cs ds inner rest : List Char} {c : Char} {depth outer : Nat}

theorem balanced_cons_of_ne (hopen : c ≠ '(') (hclose : c ≠ ')') :
    balanced depth (c :: cs) = balanced depth cs := by
  cases depth <;> simp [balanced, hclose]

/-- What closes all that it opens leaves the parentheses that were open before. -/
theorem balanced_append (h : balanced depth cs = true) :
    balanced (depth + outer) (cs ++ ds) = balanced outer ds := by
  induction cs generalizing depth with
  | nil =>
    obtain rfl : depth = 0 := by simpa [balanced] using h
    rw [Nat.zero_add, List.nil_append]
  | cons c cs ih =>
    rw [List.cons_append]
    by_cases hopen : c = '('
    · subst hopen
      rw [balanced] at h ⊢
      rw [Nat.add_right_comm]
      exact ih h
    · by_cases hclose : c = ')'
      · subst hclose
        cases depth with
        | zero => exact nomatch h
        | succ depth =>
          rw [balanced] at h
          rw [Nat.add_right_comm, balanced]
          exact ih h
      · rw [balanced_cons_of_ne hopen hclose] at h ⊢
        exact ih h

theorem Paired.balanced_append (h : Paired cs) : balanced depth (cs ++ ds) = balanced depth ds := by
  have happend : balanced (0 + depth) (cs ++ ds) = balanced depth ds := Script.balanced_append h
  rwa [Nat.zero_add] at happend

theorem Paired.append (hcs : Paired cs) (hds : Paired ds) : Paired (cs ++ ds) :=
  hcs.balanced_append.trans hds

theorem Paired.parens (h : Paired cs) : Paired ('(' :: (cs ++ [')'])) := by
  rw [Paired, balanced]
  exact h.balanced_append.trans rfl

/-- A text without parentheses. -/
theorem Paired.of_forall (h : ∀ c ∈ cs, c ≠ '(' ∧ c ≠ ')') : Paired cs := by
  induction cs with
  | nil => rfl
  | cons c cs ih =>
    obtain ⟨⟨hopen, hclose⟩, hcs⟩ := List.forall_mem_cons.mp h
    rw [Paired, balanced_cons_of_ne hopen hclose]
    exact ih hcs

/-! ### What stands in parentheses -/

theorem enclosed?_parens (h : Paired inner) : enclosed? ('(' :: (inner ++ [')'])) = some inner := by
  have hafter : after? ['('] ('(' :: (inner ++ [')'])) = some (inner ++ [')']) :=
    after?_eq_some_iff.mpr rfl
  have hbefore : before? [')'] (inner ++ [')']) = some inner := before?_eq_some_iff.mpr rfl
  rw [enclosed?, hafter]
  simp only [hbefore]
  exact if_pos h

theorem enclosed?_cons_of_ne (h : c ≠ '(') : enclosed? (c :: cs) = none := by
  rw [enclosed?, after?_cons_of_ne h.symm]

/-- A parenthesis that is closed before the end is not around the whole. -/
theorem enclosed?_eq_none_of_closed (h : Paired inner) (hrest : rest ≠ []) :
    enclosed? ('(' :: (inner ++ ')' :: rest)) = none := by
  have hafter : after? ['('] ('(' :: (inner ++ ')' :: rest)) = some (inner ++ ')' :: rest) :=
    after?_eq_some_iff.mpr rfl
  rw [enclosed?, hafter]
  simp only
  split
  · rfl
  · next whole hbefore =>
    rw [before?_eq_some_iff] at hbefore
    obtain ⟨last, c, rfl⟩ := List.eq_nil_or_concat rest |>.resolve_left hrest
    have hwhole : whole = inner ++ ')' :: last := by
      rw [List.concat_eq_append, ← List.cons_append, ← List.append_assoc] at hbefore
      exact (List.append_inj' hbefore rfl).1.symm
    have hclosed : balanced 0 whole = false := by
      rw [hwhole, h.balanced_append]
      rfl
    exact if_neg (by simp [hclosed])

end

/-! ### Finding the sign of a comparison -/

/-- No comparison sign can start or end in the text. -/
def Unsigned (cs : List Char) : Prop := ∀ x ∈ cs, x ∉ signs

instance (cs : List Char) : Decidable (Unsigned cs) :=
  List.decidableBAll (· ∉ signs) cs

section
variable {cs ds left right : List Char}

theorem Unsigned.append (hcs : Unsigned cs) (hds : Unsigned ds) : Unsigned (cs ++ ds) :=
  fun x hx => (List.mem_append.mp hx).elim (hcs x) (hds x)

theorem Unsigned.count {x : Char} (h : Unsigned cs) (hx : x ∈ signs) : cs.count x = 0 :=
  List.count_eq_zero.mpr fun hmem => h x hmem hx

theorem Unsigned.of_blanks (h : Blanks cs) : Unsigned cs := by
  have hsigns : Solid signs := by decide
  intro x hx hsign
  exact absurd ((h x hx).symm.trans (hsigns x hsign)) Bool.noConfusion

/-- Signs with more of some character than the text are passed over. -/
theorem comparison?_append {earlier later : List Comparison}
    (h : ∀ e ∈ earlier, ∃ x, cs.count x < e.sign.count x) :
    comparison? cs (earlier ++ later) = comparison? cs later := by
  induction earlier with
  | nil => rfl
  | cons e earlier ih =>
    obtain ⟨⟨x, hx⟩, hearlier⟩ := List.forall_mem_cons.mp h
    rw [List.cons_append, comparison?, splitOnce?_eq_none hx]
    exact ih hearlier

/-- The sign of `e` has more of some character than that of `c`. -/
def Outweighs (e c : Comparison) : Prop := ∃ x ∈ signs, c.sign.count x < e.sign.count x

instance (e c : Comparison) : Decidable (Outweighs e c) :=
  List.decidableBEx (fun x => c.sign.count x < e.sign.count x) signs

/-- No sign is looked for before one that has it inside. -/
theorem inOrder_eq (c : Comparison) : ∃ earlier later, Comparison.inOrder = earlier ++ c :: later ∧
    ∀ e ∈ earlier, Outweighs e c := by
  cases c with
  | le => exact ⟨[], [.ge, .eq, .ne, .lt, .gt], rfl, by decide⟩
  | ge => exact ⟨[.le], [.eq, .ne, .lt, .gt], rfl, by decide⟩
  | eq => exact ⟨[.le, .ge], [.ne, .lt, .gt], rfl, by decide⟩
  | ne => exact ⟨[.le, .ge, .eq], [.lt, .gt], rfl, by decide⟩
  | lt => exact ⟨[.le, .ge, .eq, .ne], [.gt], rfl, by decide⟩
  | gt => exact ⟨[.le, .ge, .eq, .ne, .lt], [], rfl, by decide⟩

theorem exists_sign_eq (c : Comparison) : ∃ first rest, c.sign = first :: rest ∧ first ∈ signs := by
  cases c <;> exact ⟨_, _, rfl, by decide⟩

theorem comparison?_eq_some (c : Comparison) (hleft : Unsigned left) (hright : Unsigned right) :
    comparison? (left ++ c.sign ++ right) Comparison.inOrder = some (c, left, right) := by
  obtain ⟨earlier, later, horder, hearlier⟩ := inOrder_eq c
  rw [horder, comparison?_append fun e he => ?_]
  · obtain ⟨first, rest, hsign, hfirst⟩ := exists_sign_eq c
    rw [comparison?, hsign, splitOnce?_eq_some fun hmem => hleft _ hmem hfirst]
  · obtain ⟨x, hx, hlt⟩ := hearlier e he
    refine ⟨x, ?_⟩
    rwa [List.count_append, List.count_append, hleft.count hx, hright.count hx, Nat.zero_add,
      Nat.add_zero]

/-- A comparison is no word without signs. -/
theorem append_sign_ne {c : Comparison} {word : List Char} (hword : Unsigned word) :
    left ++ c.sign ++ right ≠ word := by
  rintro rfl
  obtain ⟨first, rest, hsign, hfirst⟩ := exists_sign_eq c
  exact hword first (by simp [hsign]) hfirst

theorem comparison?_eq_none (h : Unsigned cs) : comparison? cs Comparison.inOrder = none := by
  rw [← List.append_nil Comparison.inOrder, comparison?_append fun e _ => ?_]
  · rfl
  · obtain ⟨first, rest, hsign, hfirst⟩ := exists_sign_eq e
    exact ⟨first, by simp [h.count hfirst, hsign]⟩

end

/-! ### Written operands -/

theorem paired_of_unmarked {cs : List Char} (h : ∀ x ∈ cs, x ∉ marks) : Paired cs := by
  refine .of_forall fun x hx => ⟨?_, ?_⟩
  · rintro rfl
    exact h _ hx (by decide)
  · rintro rfl
    exact h _ hx (by decide)

theorem paired_of_blanks {cs : List Char} (h : Blanks cs) : Paired cs := by
  have hmarks : Solid marks := by decide
  exact paired_of_unmarked fun x hx hmark =>
    absurd ((h x hx).symm.trans (hmarks x hmark)) Bool.noConfusion

theorem Paired.spaced {cs before after : List Char} (h : Paired cs) (hbefore : Blanks before)
    (hafter : Blanks after) : Paired (before ++ cs ++ after) :=
  ((paired_of_blanks hbefore).append h).append (paired_of_blanks hafter)

/-- A text without marks is no negation and not in parentheses. -/
theorem plain_of_unmarked {cs : List Char} (hfirm : Firm cs) (h : ∀ x ∈ cs, x ∉ marks) :
    after? ['!'] cs = none ∧ enclosed? cs = none := by
  obtain ⟨x, rest, rfl, _⟩ := hfirm.start
  constructor
  · refine after?_cons_of_ne ?_
    rintro rfl
    exact h _ (.head _) (by decide)
  · refine enclosed?_cons_of_ne ?_
    rintro rfl
    exact h _ (.head _) (by decide)

theorem firm_parens (cs : List Char) : Firm ('(' :: (cs ++ [')'])) :=
  ⟨⟨'(', cs ++ [')'], rfl, by decide⟩, ⟨'(' :: cs, ')', rfl, by decide⟩⟩

/-- Parentheses do not matter to signs. -/
theorem Unsigned.parens {cs : List Char} (h : Unsigned cs) : Unsigned ('(' :: (cs ++ [')'])) := by
  have hopen : Unsigned ['('] := by decide
  have hclose : Unsigned [')'] := by decide
  exact hopen.append (h.append hclose)

namespace Operand
variable {o : Operand} {cs before after : List Char}

/-- The parts of a numeral are digits and signs of numbers. -/
theorem unmarked_numeral (n : Numeral) : ∀ x ∈ n.text, x ∉ marks ∧ isBlank x = false := by
  have hdigits : ∀ d, digitChar d ∉ marks ∧ isBlank (digitChar d) = false := by decide
  obtain ⟨sign, ds⟩ := n
  intro x hx
  rcases List.mem_append.mp hx with hx | hx
  · cases sign with
    | none => exact nomatch hx
    | some sign =>
      cases sign with
      | plus | minus =>
        obtain rfl := List.mem_singleton.mp hx
        decide
  · obtain ⟨d, _, rfl⟩ := List.mem_map.mp hx
    exact hdigits d

theorem unmarked_text (h : o.Proper) : ∀ x ∈ o.text, x ∉ marks := by
  cases o with
  | counter name => exact h.1.unmarked
  | number n => exact fun x hx => (unmarked_numeral n x hx).1

theorem firm_text (h : o.Proper) : Firm o.text := by
  cases o with
  | counter name => exact h.1.firm
  | number n =>
    refine Solid.firm (fun hnil => h.digits ?_) fun x hx => (unmarked_numeral n x hx).2
    exact List.map_eq_nil_iff.mp (List.append_eq_nil_iff.mp hnil).2

theorem Written.proper (h : o.Written cs) : o.Proper := by
  induction h with
  | plain proper => exact proper
  | parens _ _ _ ih => exact ih

theorem Written.unsigned (h : o.Written cs) : Unsigned cs := by
  induction h with
  | plain proper => exact fun x hx hsign => unmarked_text proper x hx (.tail _ (.tail _ hsign))
  | parens _ hbefore hafter ih =>
    exact (((Unsigned.of_blanks hbefore).append ih).append (.of_blanks hafter)).parens

theorem Written.firm (h : o.Written cs) : Firm cs := by
  cases h with
  | plain proper => exact firm_text proper
  | parens => exact firm_parens _

theorem Written.paired (h : o.Written cs) : Paired cs := by
  induction h with
  | plain proper => exact paired_of_unmarked (unmarked_text proper)
  | parens _ hbefore hafter ih => exact (ih.spaced hbefore hafter).parens

/-- What is left of an operand without its parentheses. -/
theorem Written.bare_eq (h : o.Written cs) (hbefore : Blanks before) (hafter : Blanks after)
    {fuel : Nat} (hfuel : cs.length ≤ fuel) : bare fuel (before ++ cs ++ after) = o.text := by
  have htrim := h.firm.trim_spaced hbefore hafter
  induction h generalizing before after fuel with
  | plain proper =>
    cases fuel with
    | zero => exact htrim
    | succ fuel =>
      rw [bare, htrim, (plain_of_unmarked (firm_text proper) (unmarked_text proper)).2]
  | @parens before' cs after' hcs hbefore' hafter' ih =>
    obtain ⟨fuel, rfl⟩ := Nat.exists_eq_add_one.mpr (Nat.lt_of_lt_of_le (Nat.succ_pos _) hfuel)
    rw [bare, htrim, enclosed?_parens (hcs.paired.spaced hbefore' hafter')]
    refine ih hbefore' hafter' ?_ (hcs.firm.trim_spaced hbefore' hafter')
    simp only [List.length_cons, List.length_append] at hfuel
    omega

/-- Where more follows an operand, its parentheses are not around the whole. -/
theorem Written.enclosed?_append (h : o.Written cs) {rest : List Char} (hrest : rest ≠ []) :
    enclosed? (cs ++ rest) = none := by
  cases h with
  | plain proper =>
    obtain ⟨x, others, htext, _⟩ := (firm_text proper).start
    rw [htext, List.cons_append]
    refine enclosed?_cons_of_ne ?_
    rintro rfl
    exact unmarked_text proper '(' (htext ▸ .head _) (.head _)
  | @parens before cs after hcs hbefore hafter =>
    rw [List.cons_append, List.append_assoc (before ++ cs ++ after)]
    exact enclosed?_eq_none_of_closed (hcs.paired.spaced hbefore hafter) hrest

theorem value_written (s : Script) (h : o.Written cs) (hbefore : Blanks before)
    (hafter : Blanks after) : s.value (before ++ cs ++ after) = o.value s := by
  have hbare : bare (before ++ cs ++ after).length (before ++ cs ++ after) = o.text :=
    h.bare_eq hbefore hafter (by simp only [List.length_append]; omega)
  rw [Script.value, hbare]
  cases o with
  | counter name =>
    have hname : integer? name.toList = none := integer?_eq_none_iff.mpr h.proper.2
    simp only [text, hname, String.ofList_toList]
    rfl
  | number n =>
    have hnumber : integer? n.text = some n.value :=
      integer?_eq_some_iff.mpr ⟨n, h.proper, rfl, rfl⟩
    simp only [text, hnumber]
    rfl

end Operand

/-! ### Written conditions -/

/-- Signs stand between the parentheses of operands and not across them. -/
theorem paired_sign (c : Comparison) : Paired c.sign := by
  cases c <;> rfl

namespace Condition
variable {c : Condition} {cs before after : List Char}

theorem Written.firm (h : c.Written cs) : Firm cs := by
  induction h with
  | true | false => exact Solid.firm (by decide) (by decide)
  | flag hname => exact hname.firm
  | @compare c _ _ _ between behind _ hleft _ _ hright =>
    have happend := hleft.firm.append hright.firm (between ++ c.sign ++ behind)
    simpa only [List.append_assoc] using happend
  | @not c before cs _ _ ih =>
    obtain ⟨rest, x, rfl, hx⟩ := ih.stop
    exact ⟨⟨'!', _, rfl, by decide⟩, ⟨'!' :: (before ++ rest), x, by simp, hx⟩⟩
  | parens => exact firm_parens _

theorem Written.paired (h : c.Written cs) : Paired cs := by
  induction h with
  | true | false => rfl
  | flag hname => exact paired_of_unmarked hname.unmarked
  | compare c hleft hbetween hbehind hright =>
    exact (((hleft.paired.append (paired_of_blanks hbetween)).append (paired_sign c)).append
      (paired_of_blanks hbehind)).append hright.paired
  | not _ hbefore ih =>
    rw [Paired, balanced_cons_of_ne (by decide) (by decide)]
    exact (paired_of_blanks hbefore).append ih
  | parens _ hbefore hafter ih => exact (ih.spaced hbefore hafter).parens

/-- A text that is no negation and not in parentheses is tested as it is. -/
theorem testChars_simple (s : Script) {text : List Char} (htrim : trim text = cs)
    (hbang : after? ['!'] cs = none) (hclosed : enclosed? cs = none) (fuel : Nat) :
    s.testChars fuel text = s.simpleTest cs := by
  cases fuel with
  | zero => rw [testChars, htrim]
  | succ fuel =>
    rw [testChars, htrim, hbang]
    simp only [hclosed]

theorem Written.testChars_eq (s : Script) (h : c.Written cs) (hbefore : Blanks before)
    (hafter : Blanks after) {fuel : Nat} (hfuel : cs.length ≤ fuel) :
    s.testChars fuel (before ++ cs ++ after) = c.value s := by
  have htrim := h.firm.trim_spaced hbefore hafter
  induction h generalizing before after fuel with
  | true | false => rw [testChars_simple s htrim rfl rfl]; rfl
  | @flag name hname htrue hfalse =>
    obtain ⟨hbang, hclosed⟩ := plain_of_unmarked hname.firm hname.unmarked
    have hunsigned : Unsigned name.toList :=
      fun x hx hsign => hname.unmarked x hx (.tail _ (.tail _ hsign))
    have hword {word : List Char} (hne : name ≠ String.ofList word) : name.toList ≠ word :=
      fun heq => hne (by rw [← heq, String.ofList_toList])
    rw [testChars_simple s htrim hbang hclosed, simpleTest, if_neg (hword htrue),
      if_neg (hword hfalse), comparison?_eq_none hunsigned]
    simp only [String.ofList_toList]
    rfl
  | @compare c o p left between behind right hleft hbetween hbehind hright =>
    have hsplit : left ++ between ++ c.sign ++ behind ++ right =
        (left ++ between) ++ c.sign ++ (behind ++ right) := by
      simp only [List.append_assoc]
    have hfound : comparison? ((left ++ between) ++ c.sign ++ (behind ++ right))
        Comparison.inOrder = some (c, left ++ between, behind ++ right) :=
      comparison?_eq_some c (hleft.unsigned.append (.of_blanks hbetween))
        ((Unsigned.of_blanks hbehind).append hright.unsigned)
    have hleftValue : s.value (left ++ between) = o.value s := by
      have hvalue := Operand.value_written s hleft .nil hbetween
      rwa [List.nil_append] at hvalue
    have hrightValue : s.value (behind ++ right) = p.value s := by
      have hvalue := Operand.value_written s hright hbehind .nil
      rwa [List.append_nil] at hvalue
    rw [testChars_simple s htrim ?_ ?_, hsplit, simpleTest, if_neg (append_sign_ne (by decide)),
      if_neg (append_sign_ne (by decide)), hfound]
    · simp only [hleftValue, hrightValue]
      rfl
    · obtain ⟨x, rest, rfl, _⟩ := hleft.firm.start
      refine after?_cons_of_ne ?_
      rintro rfl
      exact hleft.unsigned _ (.head _) (.head _)
    · simp only [List.append_assoc]
      refine hleft.enclosed?_append fun hnil => ?_
      obtain ⟨first, rest, hsign, _⟩ := exists_sign_eq c
      simp [hsign] at hnil
  | @not c before' cs hcs hbefore' ih =>
    obtain ⟨fuel, rfl⟩ := Nat.exists_eq_add_one.mpr (Nat.lt_of_lt_of_le (Nat.succ_pos _) hfuel)
    have hbang : after? ['!'] ('!' :: (before' ++ cs)) = some (before' ++ cs) :=
      after?_eq_some_iff.mpr rfl
    have hrest : s.testChars fuel (before' ++ cs ++ []) = c.value s := by
      refine ih hbefore' .nil ?_ (hcs.firm.trim_spaced hbefore' .nil)
      simp only [List.length_cons, List.length_append] at hfuel
      omega
    rw [List.append_nil] at hrest
    rw [testChars, htrim, hbang]
    simp only [hrest]
    rfl
  | @parens c before' cs after' hcs hbefore' hafter' ih =>
    obtain ⟨fuel, rfl⟩ := Nat.exists_eq_add_one.mpr (Nat.lt_of_lt_of_le (Nat.succ_pos _) hfuel)
    have hbang : after? ['!'] ('(' :: (before' ++ cs ++ after' ++ [')'])) = none :=
      after?_cons_of_ne (by decide)
    rw [testChars, htrim, hbang, enclosed?_parens (hcs.paired.spaced hbefore' hafter')]
    refine ih hbefore' hafter' ?_ (hcs.firm.trim_spaced hbefore' hafter')
    simp only [List.length_cons, List.length_append] at hfuel
    omega

end Condition

/-- **A written predicate is worth what it says.** Whatever condition a text writes, with any
parentheses, any nesting and any white space between its parts and around it, a test of the text
comes to the value of the condition, where flags that are not set are false and counters that
are not set are zero. -/
theorem test_written {c : Condition} {cs before after : List Char} (h : c.Written cs)
    (hbefore : Blanks before) (hafter : Blanks after) (s : Script) :
    s.test (String.ofList (before ++ cs ++ after)) = c.value s := by
  rw [test, String.toList_ofList]
  refine h.testChars_eq s hbefore hafter ?_
  simp only [List.length_append]
  omega

namespace Nested

def minusThree : Numeral := ⟨some .minus, [⟨0, by decide⟩, ⟨3, by decide⟩]⟩

/-- `n` is something other than minus three, denied. -/
def condition : Condition := .not (.compare .ne (.counter "n") (.number minusThree))

theorem isName : IsName "n" where
  firm := Solid.firm (by decide) (by decide)
  unmarked x hx := by
    obtain rfl := List.mem_singleton.mp hx
    decide

theorem written : condition.Written "! ((( n ))!= (-03) )".toList := by
  have hblank : Blanks [' '] := by decide
  have hcounter : (Operand.counter "n").Proper := ⟨isName, integer?_eq_none_iff.mp (by decide)⟩
  have hnumber : (Operand.number minusThree).Proper :=
    (⟨by decide, by decide, by decide⟩ : minusThree.Proper)
  have hn : (Operand.counter "n").Written "(( n ))".toList :=
    .parens (.parens (.plain hcounter) hblank hblank) .nil .nil
  have hthree : (Operand.number minusThree).Written "(-03)".toList :=
    .parens (.plain hnumber) .nil .nil
  exact .not (.parens (.compare .ne hn .nil hblank hthree) .nil hblank) hblank

end Nested

/-- The first mark of this text denies, the second one is part of a sign, and neither the first
nor the last parenthesis of the comparison belongs to all of it. -/
theorem test_written_nested :
    Nested.condition.Written "! ((( n ))!= (-03) )".toList ∧
      (empty.setCounter "n" (-3)).test " ! ((( n ))!= (-03) )" =
        Nested.condition.value (empty.setCounter "n" (-3)) ∧
      Nested.condition.value (empty.setCounter "n" (-3)) = true ∧
      Nested.condition.value empty = false := by
  have hblank : Blanks [' '] := by decide
  have htest := test_written Nested.written hblank .nil (empty.setCounter "n" (-3))
  exact ⟨Nested.written, htest, by decide, by decide⟩

end Lookahead.Script
