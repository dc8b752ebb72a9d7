import Lookahead.Text.Blank
import Lookahead.Text.Integer
import Lookahead.Text.Split

/-! What is found in a text that was put together.

A text that starts and ends with no white space (`Firm`) is what is left of it among white space
(`Firm.trim_spaced`). A mark is found where it was put, if it can not start before
(`splitOnce?_eq_some`), and not found where some character of it is too rare
(`splitOnce?_eq_none`). The integers that can be read are those that a `Numeral` writes
(`integer?_eq_some_iff`). -/
namespace Lookahead.Text

/-! ### White space around a text -/

/-- White space only. -/
def Blanks (cs : List Char) : Prop := ∀ c ∈ cs, isBlank c = true

instance (cs : List Char) : Decidable (Blanks cs) :=
  List.decidableBAll (isBlank · = true) cs

/-- No white space anywhere. -/
def Solid (cs : List Char) : Prop := ∀ c ∈ cs, isBlank c = false

instance (cs : List Char) : Decidable (Solid cs) :=
  List.decidableBAll (isBlank · = false) cs

/-- A text that starts and ends with no white space. -/
structure Firm (cs : List Char) : Prop where
  start : ∃ c rest, cs = c :: rest ∧ isBlank c = false
  stop : ∃ rest c, cs = rest ++ [c] ∧ isBlank c = false

section
variable {cs ds before after : List Char}

theorem Blanks.nil : Blanks [] := fun _ h => nomatch h

theorem Blanks.dropWhile_append (h : Blanks before) :
    (before ++ cs).dropWhile isBlank = cs.dropWhile isBlank :=
  List.dropWhile_append_of_pos h

theorem Firm.trim_spaced (h : Firm cs) (hbefore : Blanks before) (hafter : Blanks after) :
    trim (before ++ cs ++ after) = cs := by
  have hstart : (before ++ cs ++ after).dropWhile isBlank = cs ++ after := by
    obtain ⟨c, rest, rfl, hc⟩ := h.start
    rw [List.append_assoc, hbefore.dropWhile_append, List.cons_append,
      List.dropWhile_cons_of_neg (by simp [hc])]
  have hstop : (after.reverse ++ cs.reverse).dropWhile isBlank = cs.reverse := by
    obtain ⟨rest, c, rfl, hc⟩ := h.stop
    have hreverse : Blanks after.reverse := fun c hc => hafter c (List.mem_reverse.mp hc)
    rw [hreverse.dropWhile_append, List.reverse_append, List.reverse_singleton,
      List.singleton_append, List.dropWhile_cons_of_neg (by simp [hc])]
  rw [trim, hstart, List.reverse_append, hstop, List.reverse_reverse]

theorem Solid.firm (hne : cs ≠ []) (h : Solid cs) : Firm cs := by
  constructor
  · obtain ⟨c, rest, rfl⟩ := List.exists_cons_of_ne_nil hne
    exact ⟨c, rest, rfl, h c (.head _)⟩
  · obtain ⟨rest, c, rfl⟩ := (List.eq_nil_or_concat cs).resolve_left hne
    exact ⟨rest, c, List.concat_eq_append, h c (by simp)⟩

/-- What is between the ends of a text does not matter. -/
theorem Firm.append (hcs : Firm cs) (hds : Firm ds) (between : List Char) :
    Firm (cs ++ between ++ ds) := by
  obtain ⟨c, rest, rfl, hc⟩ := hcs.start
  obtain ⟨rest', c', rfl, hc'⟩ := hds.stop
  exact ⟨⟨c, rest ++ between ++ (rest' ++ [c']), by simp, hc⟩,
    ⟨c :: rest ++ between ++ rest', c', by simp, hc'⟩⟩

end

/-! ### Marks -/

section
variable {mark stop text rest before after : List Char} {c : Char}

theorem before?_eq_some_iff : before? stop text = some rest ↔ text = rest ++ stop := by
  rw [before?, Option.map_eq_some_iff]
  constructor
  · rintro ⟨reversed, hafter, rfl⟩
    rw [after?_eq_some_iff] at hafter
    rw [← List.reverse_reverse text, hafter, List.reverse_append, List.reverse_reverse]
  · rintro rfl
    exact ⟨rest.reverse, by rw [after?_eq_some_iff, List.reverse_append], List.reverse_reverse _⟩

theorem after?_cons_of_ne {s : Char} {start : List Char} (h : s ≠ c) :
    after? (s :: start) (c :: text) = none := by
  rw [after?, if_neg h]

theorem eq_of_splitOnce? (h : splitOnce? mark text = some (before, after)) :
    text = before ++ mark ++ after := by
  induction text generalizing before with
  | nil =>
    obtain ⟨rest, hrest, heq⟩ := Option.map_eq_some_iff.mp h
    obtain ⟨rfl, rfl⟩ := Prod.mk.inj heq
    exact after?_eq_some_iff.mp hrest
  | cons c text ih =>
    rw [splitOnce?] at h
    split at h
    · next rest hrest =>
      obtain ⟨rfl, rfl⟩ := Prod.mk.inj (Option.some.inj h)
      exact after?_eq_some_iff.mp hrest
    · obtain ⟨⟨before', after'⟩, hsplit, heq⟩ := Option.map_eq_some_iff.mp h
      obtain ⟨rfl, rfl⟩ := Prod.mk.inj heq
      rw [ih hsplit]
      rfl

/-- A mark with more of some character than the text is not in it. -/
theorem splitOnce?_eq_none (h : text.count c < mark.count c) : splitOnce? mark text = none := by
  cases hsplit : splitOnce? mark text with
  | none => rfl
  | some parts =>
    rw [eq_of_splitOnce? hsplit, List.count_append, List.count_append] at h
    omega

/-- A mark is found where nothing before it is its first character. -/
theorem splitOnce?_eq_some {first : Char} (h : first ∉ before) :
    splitOnce? (first :: mark) (before ++ first :: mark ++ after) = some (before, after) := by
  induction before with
  | nil =>
    have hafter : after? (first :: mark) (first :: (mark ++ after)) = some after := by
      rw [after?_eq_some_iff]
      rfl
    rw [List.nil_append, List.cons_append, splitOnce?, hafter]
  | cons c before ih =>
    obtain ⟨hne, hbefore⟩ := List.ne_and_not_mem_of_not_mem_cons h
    rw [List.cons_append, List.cons_append, splitOnce?, after?_cons_of_ne hne, ih hbefore]
    rfl

end

/-! ### Integers -/

inductive Sign where
  | plus
  | minus

/-- An integer as it is written: decimal digits, and a sign or none. -/
structure Numeral where
  sign : Option Sign
  digits : List (Fin 10)

def digitChar (d : Fin 10) : Char := Char.ofNat ('0'.toNat + d)

theorem isDigit_digitChar (d : Fin 10) : (digitChar d).isDigit = true := by
  revert d
  decide

theorem toNat_digitChar (d : Fin 10) : (digitChar d).toNat - '0'.toNat = d := by
  revert d
  decide

/-- The digit that a character writes. -/
def digitOf (c : Char) : Fin 10 := Fin.ofNat 10 (c.toNat - '0'.toNat)

theorem digitChar_digitOf {c : Char} (h : c.isDigit = true) : digitChar (digitOf c) = c := by
  simp only [Char.isDigit, Bool.and_eq_true, decide_eq_true_eq] at h
  have hlow : 48 ≤ c.toNat := UInt32.le_iff_toNat_le.mp h.1
  have hhigh : c.toNat ≤ 57 := UInt32.le_iff_toNat_le.mp h.2
  have hnumber : '0'.toNat + (digitOf c).val = c.toNat := by
    show 48 + (c.toNat - 48) % 10 = c.toNat
    omega
  rw [digitChar, hnumber, Char.ofNat_toNat]

namespace Numeral

def magnitude (n : Numeral) : Nat := n.digits.foldl (fun m d => 10 * m + d.val) 0

def value (n : Numeral) : Int :=
  match n.sign with
  | some .minus => -(n.magnitude : Int)
  | _ => n.magnitude

def text (n : Numeral) : List Char :=
  (match n.sign with
    | none => []
    | some .plus => ['+']
    | some .minus => ['-']) ++ n.digits.map digitChar

/-- There is a digit, and the integer has no more than 64 bits. -/
structure Proper (n : Numeral) : Prop where
  digits : n.digits ≠ []
  low : minInteger ≤ n.value
  high : n.value ≤ maxInteger

end Numeral

theorem natural?_eq_some_iff {cs : List Char} {m : Nat} :
    natural? cs = some m ↔
      ∃ ds : List (Fin 10), ds ≠ [] ∧ ds.map digitChar = cs ∧ (Numeral.mk none ds).magnitude = m := by
  have hvalue (ds : List (Fin 10)) :
      digitsValue (ds.map digitChar) = (Numeral.mk none ds).magnitude := by
    simp only [digitsValue, Numeral.magnitude, List.foldl_map, toNat_digitChar]
  constructor
  · intro h
    rw [natural?, Option.ite_none_right_eq_some] at h
    obtain ⟨⟨hne, hdigits⟩, hm⟩ := h
    have hwritten : (cs.map digitOf).map digitChar = cs := by
      rw [List.map_map]
      exact (List.map_congr_left (g := id) fun c hc =>
        digitChar_digitOf (List.all_eq_true.mp hdigits c hc)).trans (List.map_id cs)
    refine ⟨cs.map digitOf, by simpa using hne, hwritten, ?_⟩
    rw [← hvalue, hwritten]
    exact Option.some.inj hm
  · rintro ⟨ds, hne, rfl, rfl⟩
    have hdigits : (ds.map digitChar).all Char.isDigit = true := by
      simp [isDigit_digitChar]
    rw [natural?, if_pos ⟨by simpa using hne, hdigits⟩, hvalue]

/-- The integers that can be read are those that numerals of at most 64 bits write. -/
theorem integer?_eq_some_iff {cs : List Char} {i : Int} :
    integer? cs = some i ↔ ∃ n : Numeral, n.Proper ∧ n.text = cs ∧ n.value = i := by
  unfold integer?
  rw [Option.filter_eq_some_iff, Bool.and_eq_true, decide_eq_true_eq, decide_eq_true_eq]
  constructor
  · rintro ⟨hvalue, hlow, hhigh⟩
    split at hvalue
    case h_1 =>
      simp only [bind_pure_comp, Option.map_eq_map, Option.map_map] at hvalue
      obtain ⟨_, hm, rfl⟩ := Option.map_eq_some_iff.mp hvalue
      obtain ⟨ds, hne, rfl, rfl⟩ := natural?_eq_some_iff.mp hm
      exact ⟨⟨some .minus, ds⟩, ⟨hne, hlow, hhigh⟩, rfl, rfl⟩
    case h_2 =>
      obtain ⟨_, hm, rfl⟩ := Option.map_eq_some_iff.mp hvalue
      obtain ⟨ds, hne, rfl, rfl⟩ := natural?_eq_some_iff.mp hm
      exact ⟨⟨some .plus, ds⟩, ⟨hne, hlow, hhigh⟩, rfl, rfl⟩
    case h_3 =>
      obtain ⟨_, hm, rfl⟩ := Option.map_eq_some_iff.mp hvalue
      obtain ⟨ds, hne, rfl, rfl⟩ := natural?_eq_some_iff.mp hm
      exact ⟨⟨none, ds⟩, ⟨hne, hlow, hhigh⟩, rfl, rfl⟩
  · rintro ⟨⟨sign, ds⟩, ⟨hne, hlow, hhigh⟩, rfl, rfl⟩
    refine ⟨?_, hlow, hhigh⟩
    have hread : natural? (ds.map digitChar) = some (Numeral.mk none ds).magnitude :=
      natural?_eq_some_iff.mpr ⟨ds, hne, rfl, rfl⟩
    cases sign with
    | some sign =>
      cases sign with
      | plus => exact congrArg (Option.map _) hread
      | minus =>
        simp only [bind_pure_comp, Option.map_eq_map, Option.map_map]
        exact congrArg (Option.map _) hread
    | none =>
      -- The first character is a digit and no sign.
      have hdigit {c : Char} {rest : List Char} (heq : ds.map digitChar = c :: rest) :
          c.isDigit = true := by
        obtain ⟨d, _, hd⟩ := List.mem_map.mp (heq ▸ List.mem_cons_self : c ∈ ds.map digitChar)
        exact hd ▸ isDigit_digitChar d
      simp only [Numeral.text, List.nil_append]
      split
      · next heq => exact absurd (hdigit heq) (by decide)
      · next heq => exact absurd (hdigit heq) (by decide)
      · exact congrArg (Option.map _) hread

theorem integer?_eq_none_iff {cs : List Char} :
    integer? cs = none ↔ ∀ n : Numeral, n.Proper → n.text ≠ cs := by
  simp only [Option.eq_none_iff_forall_ne_some, ne_eq, integer?_eq_some_iff]
  constructor
  · exact fun h n hproper htext => h n.value ⟨n, hproper, htext, rfl⟩
  · rintro h i ⟨n, hproper, htext, -⟩
    exact h n hproper htext

end Lookahead.Text
