import Lookahead.Guard.Junction
import Lookahead.Text.Alphanumeric

/-! Guards as text.

A junction inside a junction stands in parentheses. So does what a negation denies,
unless it is a predicate that reads as one word. -/
namespace Lookahead.Guard

/-- A text that reads as one word: letters, digits, underscores and points. -/
def isWord (cs : List Char) : Bool :=
  cs.all fun c => Text.isAlphanumeric c || c = '_' || c = '.'

def isJunction : Guard → Bool
  | .all _ | .any _ => true
  | _ => false

theorem isJunction_iff {g : Guard} :
    g.isJunction = true ↔ ∃ (j : Junction) (gs : List Guard), g = j.make gs := by
  constructor
  · intro hg
    cases g with
    | all gs => exact ⟨.all, gs, rfl⟩
    | any gs => exact ⟨.any, gs, rfl⟩
    | never | always | leaf | not => exact nomatch hg
  · rintro ⟨j, gs, rfl⟩
    cases j <;> rfl

def parenthesized (cs : List Char) : List Char := '(' :: cs ++ [')']

mutual
def chars : Guard → List Char
  | .never => ['f', 'a', 'l', 's', 'e']
  | .always => ['t', 'r', 'u', 'e']
  | .leaf p => p.text.toList
  | .not (.leaf p) =>
    '!' :: if isWord p.text.toList then p.text.toList else parenthesized p.text.toList
  | .not g => '!' :: parenthesized (chars g)
  | .all gs => charsBetween [' ', '&', '&', ' '] gs
  | .any gs => charsBetween [' ', '|', '|', ' '] gs

/-- The operands of a junction with `sign` between them. -/
def charsBetween (sign : List Char) : List Guard → List Char
  | [] => []
  | g :: gs =>
    (if g.isJunction then parenthesized (chars g) else chars g) ++ charsAfter sign gs

def charsAfter (sign : List Char) : List Guard → List Char
  | [] => []
  | g :: gs =>
    sign ++ (if g.isJunction then parenthesized (chars g) else chars g) ++ charsAfter sign gs
end

def text (g : Guard) : String := String.ofList g.chars

end Lookahead.Guard
