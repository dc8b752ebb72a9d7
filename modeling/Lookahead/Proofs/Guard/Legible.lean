import Lookahead.Guard.Text
import Lookahead.Proofs.Guard.Predicates
import Lookahead.Proofs.Guard.Same

/-! The text of a guard says which guard it is.

As an operand a canonical guard is a word, or an exclamation mark before an operand, or operands
in parentheses with signs between them. The first character tells which, and a word ends where
a character follows that is of no word. So where an operand stands at the beginning of a text,
it can be told which one it is and where it ends (`told_of_readable`), and with it the operands
that follow up to the parenthesis that closes the junction. So guards with the same text are the
same (`same_of_text_eq`). -/
namespace Lookahead

/-- What stands between the operands of a junction. -/
def Junction.sign : Junction → List Char
  | .all => [' ', '&', '&', ' ']
  | .any => [' ', '|', '|', ' ']

namespace Guard
variable {g h k : Guard} {gs hs : List Guard} {i j : Junction} {ps : List Predicate}
  {r s w v : List Char}

/-! ### Words -/

def isWordChar (c : Char) : Bool := Text.isAlphanumeric c || c = '_' || c = '.'

theorem isWord_iff : isWord w = true ↔ ∀ c ∈ w, isWordChar c = true := List.all_eq_true

theorem isWordChar_space : isWordChar ' ' = false := by decide
theorem isWordChar_mark : isWordChar '!' = false := by decide
theorem isWordChar_open : isWordChar '(' = false := by decide
theorem isWordChar_close : isWordChar ')' = false := by decide

/-- The text goes on with no character of a word. -/
def EndsWord (r : List Char) : Prop := r.takeWhile isWordChar = []

/-- Words that are followed by no character of a word are told apart by the text. -/
theorem eq_of_word_append (hw : isWord w = true) (hv : isWord v = true) (hr : EndsWord r)
    (hs : EndsWord s) (h : w ++ r = v ++ s) : w = v ∧ r = s := by
  have htake : (w ++ r).takeWhile isWordChar = (v ++ s).takeWhile isWordChar := by rw [h]
  rw [List.takeWhile_append_of_pos (isWord_iff.mp hw),
    List.takeWhile_append_of_pos (isWord_iff.mp hv), hr, hs, List.append_nil,
    List.append_nil] at htake
  subst htake
  exact ⟨rfl, List.append_cancel_left h⟩

/-- Each predicate reads as a word, and that word is no constant's and no other predicate's. -/
structure Legible (ps : List Predicate) : Prop where
  word : ∀ p ∈ ps, isWord p.text.toList = true
  nonempty : ∀ p ∈ ps, p.text ≠ ""
  notTrue : ∀ p ∈ ps, p.text ≠ "true"
  notFalse : ∀ p ∈ ps, p.text ≠ "false"
  distinct : ∀ p ∈ ps, ∀ q ∈ ps, p.id ≠ q.id → p.text ≠ q.text

/-- A canonical guard over the predicates. -/
structure Readable (ps : List Predicate) (g : Guard) : Prop where
  canonical : g.Canonical
  within : ∀ p ∈ g.predicates, p ∈ ps

theorem Readable.leaf_mem {p : Predicate} (hg : Readable ps (.leaf p)) : p ∈ ps :=
  hg.within p (List.mem_singleton_self p)

theorem Readable.denied (hg : Readable ps (.not k)) : Readable ps k :=
  ⟨(hg.canonical.part .denied).1, by simpa [predicates] using hg.within⟩

theorem Readable.operand (hg : Readable ps (j.make gs)) (hk : k ∈ gs) : Readable ps k := by
  refine ⟨(hg.canonical.part (.operand hk)).1, fun p hp => hg.within p ?_⟩
  rw [Junction.predicates_make]
  exact mem_predicatesOf.mpr ⟨k, hk, hp⟩

/-! ### Operands -/

/-- A guard as it stands among operands. -/
def operandChars (g : Guard) : List Char :=
  if g.isJunction then parenthesized g.chars else g.chars

/-- The first character of an operand that is not a word. -/
def opener : Guard → Option Char
  | .not _ => some '!'
  | .all _ | .any _ => some '('
  | .never | .always | .leaf _ => none

theorem opener_eq_open_iff : g.opener = some '(' ↔ g.isJunction = true := by
  cases g <;> simp [opener, isJunction]

theorem charsBetween_cons (sign : List Char) (g : Guard) (gs : List Guard) :
    charsBetween sign (g :: gs) = operandChars g ++ charsAfter sign gs := by
  rw [charsBetween, operandChars]

theorem charsAfter_cons (sign : List Char) (g : Guard) (gs : List Guard) :
    charsAfter sign (g :: gs) = sign ++ operandChars g ++ charsAfter sign gs := by
  rw [charsAfter, operandChars]

theorem chars_make (j : Junction) (gs : List Guard) :
    (j.make gs).chars = charsBetween j.sign gs := by
  cases j <;> simp [Junction.make, Junction.sign, chars]

theorem operandChars_make (j : Junction) (gs : List Guard) :
    operandChars (j.make gs) = '(' :: (charsBetween j.sign gs ++ [')']) := by
  have hjunction : (j.make gs).isJunction = true := isJunction_iff.mpr ⟨j, gs, rfl⟩
  rw [operandChars, if_pos hjunction, parenthesized, chars_make, List.cons_append]

/-- What a canonical negation denies stands in it as an operand: only junctions need
parentheses. -/
theorem operandChars_not (hl : Legible ps) (hg : Readable ps (.not k)) :
    operandChars (.not k) = '!' :: operandChars k := by
  cases hg.canonical with
  | not hk proper once =>
    cases k with
    | never => exact absurd (.inl rfl) proper
    | always => exact absurd (.inr rfl) proper
    | not k => exact absurd rfl (once k)
    | leaf p =>
      have hword := hl.word p hg.denied.leaf_mem
      simp [operandChars, isJunction, chars, hword]
    | all gs | any gs => simp [operandChars, isJunction, chars]

theorem word_of_opener (hl : Legible ps) (hg : Readable ps g) (hopener : g.opener = none) :
    operandChars g ≠ [] ∧ isWord (operandChars g) = true := by
  cases g with
  | never | always => exact ⟨by simp [operandChars, isJunction, chars], by decide⟩
  | leaf p =>
    have hp : p ∈ ps := hg.leaf_mem
    simpa [operandChars, isJunction, chars] using And.intro (hl.nonempty p hp) (hl.word p hp)
  | not | all | any => simp [opener] at hopener

/-- The beginning of an operand says whether it is a word. -/
theorem opener_eq_head? (hl : Legible ps) (hg : Readable ps g) (r : List Char) :
    (operandChars g ++ r).head?.filter (fun c => !isWordChar c) = g.opener := by
  cases hopener : g.opener with
  | none =>
    obtain ⟨hne, hword⟩ := word_of_opener hl hg hopener
    obtain ⟨c, cs, hcs⟩ := List.exists_cons_of_ne_nil hne
    have hc : isWordChar c = true := isWord_iff.mp hword c (hcs ▸ .head _)
    simp [hcs, hc]
  | some c =>
    cases g with
    | never | always | leaf => simp [opener] at hopener
    | not k =>
      obtain rfl : '!' = c := Option.some.inj hopener
      simp [operandChars_not hl hg, isWordChar_mark]
    | all gs | any gs =>
      obtain rfl : '(' = c := Option.some.inj hopener
      simp [operandChars, isJunction, parenthesized, isWordChar_open]

/-- Operands with which the same text begins begin with the same character, unless it is one
of a word. -/
theorem opener_eq_of_append (hl : Legible ps) (hg : Readable ps g) (hh : Readable ps h)
    (heq : operandChars g ++ r = operandChars h ++ s) : g.opener = h.opener := by
  rw [← opener_eq_head? hl hg r, ← opener_eq_head? hl hh s, heq]

/-- A predicate that reads as a word is what the word stands for. -/
theorem bare_leaf_eq_of_text (hl : Legible ps) {p : Predicate} (hp : p ∈ ps) (hh : Readable ps h)
    (hopener : h.opener = none) (htext : p.text = String.ofList (operandChars h)) :
    (leaf p).bare = h.bare := by
  cases h with
  | never => exact absurd htext (hl.notFalse p hp)
  | always => exact absurd htext (hl.notTrue p hp)
  | not | all | any => simp [opener] at hopener
  | leaf q =>
    have hsame : p.text = q.text := htext.trans String.ofList_toList
    have hid : p.id = q.id := by
      by_contra hne
      exact hl.distinct p hp q hh.leaf_mem hne hsame
    rw [bare, bare, bareLeaf_eq_iff.mpr hid]

theorem constant_or_leaf_of_opener (hopener : g.opener = none) :
    g.IsConstant ∨ ∃ p, g = .leaf p := by
  cases g with
  | never => exact .inl (.inl rfl)
  | always => exact .inl (.inr rfl)
  | leaf p => exact .inr ⟨p, rfl⟩
  | not | all | any => simp [opener] at hopener

theorem eq_of_constants (hg : g.IsConstant) (hh : h.IsConstant)
    (heq : operandChars g = operandChars h) : g = h := by
  rcases hg with rfl | rfl
  · rcases hh with rfl | rfl
    · rfl
    · exact absurd heq (by decide)
  · rcases hh with rfl | rfl
    · exact absurd heq (by decide)
    · rfl

/-- Guards that read as the same word are the same. -/
theorem bare_eq_of_word (hl : Legible ps) (hg : Readable ps g) (hh : Readable ps h)
    (hgo : g.opener = none) (hho : h.opener = none) (heq : operandChars g = operandChars h) :
    g.bare = h.bare := by
  have hleaf (p : Predicate) : String.ofList (operandChars (.leaf p)) = p.text :=
    String.ofList_toList
  rcases constant_or_leaf_of_opener hgo with hgc | ⟨p, rfl⟩
  · rcases constant_or_leaf_of_opener hho with hhc | ⟨q, rfl⟩
    · rw [eq_of_constants hgc hhc heq]
    · exact (bare_leaf_eq_of_text hl hh.leaf_mem hg hgo (heq ▸ hleaf q).symm).symm
  · exact bare_leaf_eq_of_text hl hg.leaf_mem hh hho (heq ▸ hleaf p).symm

/-! ### Telling operands apart -/

/-- The text goes on with what closes a junction, or not at all. -/
def Closes (r : List Char) : Prop := r = [] ∨ ∃ rest, r = ')' :: rest

theorem closes_nil : Closes [] := .inl rfl

theorem Closes.endsWord (hr : Closes r) : EndsWord r := by
  rcases hr with rfl | ⟨rest, rfl⟩
  · rfl
  · simp [EndsWord, isWordChar_close]

theorem not_closes_charsAfter (j : Junction) (g : Guard) (gs : List Guard) (r : List Char) :
    ¬ Closes (charsAfter j.sign (g :: gs) ++ r) := by
  rw [charsAfter_cons]
  cases j <;> simp [Junction.sign, Closes]

theorem endsWord_charsAfter (j : Junction) (gs : List Guard) (hr : Closes r) :
    EndsWord (charsAfter j.sign gs ++ r) := by
  cases gs with
  | nil => exact hr.endsWord
  | cons g gs =>
    rw [charsAfter_cons]
    cases j <;> simp [Junction.sign, EndsWord, isWordChar_space]

/-- Where the operand stands at the beginning of a text, no other one does, and there is only one
place where it can end. -/
def Told (ps : List Predicate) (g : Guard) : Prop :=
  ∀ ⦃h : Guard⦄ ⦃r s : List Char⦄, Readable ps h → EndsWord r → EndsWord s →
    operandChars g ++ r = operandChars h ++ s → g.bare = h.bare ∧ r = s

theorem told_of_word (hl : Legible ps) (hg : Readable ps g) (hopener : g.opener = none) :
    Told ps g := by
  intro h r s hh hr hs heq
  have hho : h.opener = none := opener_eq_of_append hl hg hh heq ▸ hopener
  obtain ⟨hsame, hrest⟩ := eq_of_word_append (word_of_opener hl hg hopener).2
    (word_of_opener hl hh hho).2 hr hs heq
  exact ⟨bare_eq_of_word hl hg hh hopener hho hsame, hrest⟩

theorem told_not (hl : Legible ps) (hg : Readable ps (.not k)) (hk : Told ps k) :
    Told ps (.not k) := by
  intro h r s hh hr hs heq
  have hopener : some '!' = h.opener := opener_eq_of_append hl hg hh heq
  cases h with
  | never | always | leaf | all | any => simp [opener] at hopener
  | not k' =>
    rw [operandChars_not hl hg, operandChars_not hl hh, List.cons_append, List.cons_append] at heq
    obtain ⟨hbare, hrest⟩ := hk hh.denied hr hs (List.cons.inj heq).2
    exact ⟨by rw [bare, bare, hbare], hrest⟩

/-- The operands after the first one can be told when each of them can. -/
theorem after_inj (hgs : ∀ g ∈ gs, Told ps g) (hhs : ∀ h ∈ hs, Readable ps h) (hcr : Closes r)
    (hcs : Closes s) (heq : charsAfter j.sign gs ++ r = charsAfter j.sign hs ++ s) :
    gs.map bare = hs.map bare ∧ r = s := by
  induction gs generalizing hs with
  | nil =>
    cases hs with
    | nil => exact ⟨rfl, heq⟩
    | cons h hs => exact absurd (heq ▸ hcr) (not_closes_charsAfter j h hs s)
  | cons g gs ih =>
    cases hs with
    | nil => exact absurd (heq.symm ▸ hcs) (not_closes_charsAfter j g gs r)
    | cons h hs =>
      obtain ⟨hg, hgs⟩ := List.forall_mem_cons.mp hgs
      obtain ⟨hh, hhs⟩ := List.forall_mem_cons.mp hhs
      simp only [charsAfter_cons, List.append_assoc, List.append_cancel_left_eq] at heq
      obtain ⟨hbare, hafter⟩ :=
        hg hh (endsWord_charsAfter j gs hcr) (endsWord_charsAfter j hs hcs) heq
      obtain ⟨hbares, hrest⟩ := ih hgs hhs hafter
      exact ⟨by rw [List.map_cons, List.map_cons, hbare, hbares], hrest⟩

/-- A junction can be told by its operands and the sign between the first two. -/
theorem between_inj (hgs : ∀ g ∈ gs, Told ps g) (hhs : ∀ h ∈ hs, Readable ps h)
    (hgs2 : 2 ≤ gs.length) (hhs2 : 2 ≤ hs.length) (hcr : Closes r) (hcs : Closes s)
    (heq : charsBetween i.sign gs ++ r = charsBetween j.sign hs ++ s) :
    (i.make gs).bare = (j.make hs).bare ∧ r = s := by
  match gs, hs with
  | g :: g₂ :: gs, h :: h₂ :: hs =>
    rw [charsBetween_cons, charsBetween_cons, List.append_assoc, List.append_assoc] at heq
    obtain ⟨hg, hgs⟩ := List.forall_mem_cons.mp hgs
    obtain ⟨hh, hhs⟩ := List.forall_mem_cons.mp hhs
    obtain ⟨hbare, hafter⟩ :=
      hg hh (endsWord_charsAfter i _ hcr) (endsWord_charsAfter j _ hcs) heq
    obtain rfl : i = j := by
      cases i <;> cases j <;> simp [charsAfter_cons, Junction.sign] at hafter ⊢
    obtain ⟨hbares, hrest⟩ := after_inj hgs hhs hcr hcs hafter
    have hall : (g :: g₂ :: gs).map bare = (h :: h₂ :: hs).map bare :=
      congrArg₂ List.cons hbare hbares
    exact ⟨by rw [Junction.bare_make, Junction.bare_make, hall], hrest⟩

theorem told_make (hl : Legible ps) (hg : Readable ps (j.make gs)) (hgs : ∀ g ∈ gs, Told ps g) :
    Told ps (j.make gs) := by
  intro h r s hh hr hs heq
  have hjunction : h.isJunction = true := by
    rw [← opener_eq_open_iff, ← opener_eq_of_append hl hg hh heq, opener_eq_open_iff]
    exact isJunction_iff.mpr ⟨j, gs, rfl⟩
  obtain ⟨i, hs, rfl⟩ := isJunction_iff.mp hjunction
  rw [operandChars_make, operandChars_make] at heq
  simp only [List.cons_append, List.append_assoc, List.cons.injEq, true_and, List.nil_append] at heq
  obtain ⟨hbare, hrest⟩ := between_inj hgs (fun k hk => hh.operand hk)
    (canonical_make_iff.mp hg.canonical).2.several (canonical_make_iff.mp hh.canonical).2.several
    (.inr ⟨r, rfl⟩) (.inr ⟨s, rfl⟩) heq
  exact ⟨hbare, (List.cons.inj hrest).2⟩

theorem told_of_readable (hl : Legible ps) (hg : Readable ps g) : Told ps g := by
  obtain ⟨hcanonical, hwithin⟩ := hg
  induction hcanonical with
  | never => exact told_of_word hl ⟨.never, hwithin⟩ rfl
  | always => exact told_of_word hl ⟨.always, hwithin⟩ rfl
  | leaf p => exact told_of_word hl ⟨.leaf p, hwithin⟩ rfl
  | not hk proper once ih =>
    have hg : Readable ps (.not _) := ⟨.not hk proper once, hwithin⟩
    exact told_not hl hg (ih hg.denied.within)
  | all hgs tidy ih =>
    have hg : Readable ps (Junction.all.make _) := ⟨.all hgs tidy, hwithin⟩
    exact told_make hl hg fun k hk => ih k hk (hg.operand hk).within
  | any hgs tidy ih =>
    have hg : Readable ps (Junction.any.make _) := ⟨.any hgs tidy, hwithin⟩
    exact told_make hl hg fun k hk => ih k hk (hg.operand hk).within

/-! ### The whole text -/

theorem operandChars_of_not_isJunction (h : ¬ g.isJunction = true) : operandChars g = g.chars :=
  if_neg h

/-- The text of a junction goes on after an operand with which it begins. -/
theorem chars_make_ne (hl : Legible ps) (hg : Readable ps (j.make gs)) (hh : Readable ps h)
    (hjunction : ¬ h.isJunction = true) : (j.make gs).chars ≠ h.chars := by
  intro heq
  have hseveral : 2 ≤ gs.length := (canonical_make_iff.mp hg.canonical).2.several
  match gs with
  | g₁ :: g₂ :: gs =>
    have htext : operandChars g₁ ++ (charsAfter j.sign (g₂ :: gs) ++ []) =
        operandChars h ++ [] := by
      rw [List.append_nil, List.append_nil, operandChars_of_not_isJunction hjunction, ← heq,
        chars_make, charsBetween_cons]
    have htold : Told ps g₁ := told_of_readable hl (hg.operand (.head _))
    have hrest := (htold hh (endsWord_charsAfter j _ closes_nil) closes_nil.endsWord htext).2
    exact not_closes_charsAfter j g₂ gs [] (.inl hrest)

/-- **No two guards read alike.** Where predicates read as words that tell them apart and are not
those of the constants, canonical guards with the same text are the same. -/
theorem same_of_text_eq (hg : g.Canonical) (hh : h.Canonical)
    (hl : Legible (g.predicates ++ h.predicates)) (htext : g.text = h.text) :
    g.same h = true := by
  have hrg : Readable (g.predicates ++ h.predicates) g :=
    ⟨hg, fun _ hp => List.mem_append_left _ hp⟩
  have hrh : Readable (g.predicates ++ h.predicates) h :=
    ⟨hh, fun _ hp => List.mem_append_right _ hp⟩
  have hchars : g.chars = h.chars := String.ofList_injective htext
  apply same_iff.mpr
  by_cases hjg : g.isJunction = true
  · obtain ⟨i, gs, rfl⟩ := isJunction_iff.mp hjg
    by_cases hjh : h.isJunction = true
    · obtain ⟨j, hs, rfl⟩ := isJunction_iff.mp hjh
      rw [chars_make, chars_make] at hchars
      have happend : charsBetween i.sign gs ++ [] = charsBetween j.sign hs ++ [] := by
        rw [hchars]
      exact (between_inj (fun k hk => told_of_readable hl (hrg.operand hk))
        (fun k hk => hrh.operand hk) (canonical_make_iff.mp hg).2.several
        (canonical_make_iff.mp hh).2.several closes_nil closes_nil happend).1
    · exact absurd hchars (chars_make_ne hl hrg hrh hjh)
  · by_cases hjh : h.isJunction = true
    · obtain ⟨j, hs, rfl⟩ := isJunction_iff.mp hjh
      exact absurd hchars.symm (chars_make_ne hl hrh hrg hjg)
    · have happend : operandChars g ++ [] = operandChars h ++ [] := by
        rw [operandChars_of_not_isJunction hjg, operandChars_of_not_isJunction hjh, hchars]
      exact (told_of_readable hl hrg hrh closes_nil.endsWord closes_nil.endsWord happend).1

/-- A predicate beside the negation of a disjunction. -/
def denial (mode : PredicateMode) : Guard :=
  (leaf ⟨0, "p", mode, "s", none⟩).and
    ((leaf ⟨1, "q", mode, "s", none⟩).or (leaf ⟨2, "n.x_2", mode, "s", none⟩)).negate

theorem canonical_denial (mode : PredicateMode) : (denial mode).Canonical :=
  .and (.leaf _) (Canonical.or (.leaf _) (.leaf _)).negate

/-- Guards that differ only in what their texts leave out. -/
theorem same_of_text_eq_denial :
    denial .validating ≠ denial .gated ∧ (denial .validating).text = "p && !(q || n.x_2)" ∧
      (denial .gated).text = "p && !(q || n.x_2)" ∧
      (denial .validating).same (denial .gated) = true := by
  have htext : (denial .validating).text = "p && !(q || n.x_2)" := by decide +kernel
  have htext' : (denial .gated).text = "p && !(q || n.x_2)" := by decide +kernel
  have hl : Legible ((denial .validating).predicates ++ (denial .gated).predicates) :=
    { word := by decide +kernel
      nonempty := by decide +kernel
      notTrue := by decide +kernel
      notFalse := by decide +kernel
      distinct := by decide +kernel }
  exact ⟨by decide +kernel, htext, htext', same_of_text_eq (canonical_denial _)
    (canonical_denial _) hl (htext.trans htext'.symm)⟩

end Guard
end Lookahead
