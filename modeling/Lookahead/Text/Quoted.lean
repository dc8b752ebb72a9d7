import Lookahead.Text.Printable

/-! Texts as messages show them.

The control characters that have a letter of their own, the backslash and the
quotes are written after a backslash; what can not be shown is written as its code
point. A character that joins the one before it is shown only after another
one. -/
namespace Lookahead.Text

/-- How one character of a shown text is written. -/
structure Escaping where
  /-- A single quote is written after a backslash. -/
  singleQuotes : Bool
  /-- A character that joins the one before it is written as its code point. -/
  joining : Bool

/-- A code point in lower-case hexadecimal digits. -/
def codePoint (c : Char) : List Char :=
  ['\\', 'u', '\x7b'] ++ Nat.toDigits 16 c.toNat ++ ['\x7d']

def Escaping.char (e : Escaping) (c : Char) : List Char :=
  if c = '\x00' then ['\\', '0']
  else if c = '\t' then ['\\', 't']
  else if c = '\r' then ['\\', 'r']
  else if c = '\n' then ['\\', 'n']
  else if c = '\\' || c = '"' || c = '\'' && e.singleQuotes then ['\\', c]
  else if e.joining && joinsPrevious c then codePoint c
  else if isPrintable c then [c]
  else codePoint c

/-- A text inside single quotes: only the first character has none to join. -/
def escaped : List Char → List Char
  | [] => []
  | c :: rest =>
    Escaping.char ⟨true, true⟩ c ++ rest.flatMap (Escaping.char ⟨true, false⟩)

/-- A text between double quotes, where no character joins another one. -/
def quoted (cs : List Char) : List Char :=
  '"' :: cs.flatMap (Escaping.char ⟨false, true⟩) ++ ['"']

end Lookahead.Text
