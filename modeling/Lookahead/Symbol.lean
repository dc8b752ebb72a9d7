/-! Input symbols.

A symbol is a character's code point or a token's type; automata do not care
which. Both fit in 32 bits. -/
namespace Lookahead

/-- A code point or a token type. -/
abbrev Symbol := UInt32

/-- The number a token stands for in the input of a parser rule. -/
abbrev TokenType := Nat

namespace Symbol

/-- The highest code point, the upper bound of `.` in lexer rules. -/
def maxChar : Symbol := 0x10FFFF

def ofChar (c : Char) : Symbol := c.val

def ofTokenType (t : TokenType) : Symbol := UInt32.ofNat t

/-- A printable ASCII character between quotes; any other symbol as a number. -/
def text (s : Symbol) : String :=
  if 0x20 ≤ s ∧ s < 0x7f then String.ofList ['\'', Char.ofNat s.toNat, '\''] else toString s.toNat

/-- The text of the next symbol, or of the end of the input. -/
def nextText : Option Symbol → String
  | some s => s.text
  | none => "<EOF>"

end Symbol
end Lookahead
