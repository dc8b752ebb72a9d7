/-! Taking texts apart. -/
namespace Lookahead.Text

/-- What follows `start` in a text that begins with it. -/
def after? : (start text : List Char) → Option (List Char)
  | [], text => some text
  | _ :: _, [] => none
  | s :: start, c :: text => if s = c then after? start text else none

/-- What stands before `stop` in a text that ends with it. -/
def before? (stop text : List Char) : Option (List Char) :=
  (after? stop.reverse text.reverse).map List.reverse

/-- What stands before and after the first place where `mark` occurs. -/
def splitOnce? (mark : List Char) : (text : List Char) → Option (List Char × List Char)
  | [] => (after? mark []).map fun rest => ([], rest)
  | c :: text =>
    match after? mark (c :: text) with
    | some rest => some ([], rest)
    | none => (splitOnce? mark text).map fun (before, rest) => (c :: before, rest)

/-- The parts of a text between the places where `mark` stands. -/
def splitAt (mark : Char) : (text : List Char) → List (List Char)
  | [] => [[]]
  | c :: text =>
    match splitAt mark text with
    | [] => [[]]
    | part :: parts => if c = mark then [] :: part :: parts else (c :: part) :: parts

theorem after?_eq_some_iff {start text rest : List Char} :
    after? start text = some rest ↔ text = start ++ rest := by
  induction start generalizing text with
  | nil => simp [after?]
  | cons s start ih =>
    cases text with
    | nil => simp [after?]
    | cons c text =>
      by_cases h : s = c
      · subst h
        simp [after?, ih]
      · simp [after?, h, Ne.symm h]

end Lookahead.Text
