/-! Integers of 64 bits in decimal digits. -/
namespace Lookahead.Text

/-- The highest integer of 64 bits. -/
def maxInteger : Int := 9223372036854775807

/-- The lowest integer of 64 bits. -/
def minInteger : Int := -9223372036854775808

/-- The number that some digits write. -/
def digitsValue (cs : List Char) : Nat := cs.foldl (fun n c => 10 * n + (c.toNat - '0'.toNat)) 0

/-- The number that at least one digit writes. -/
def natural? (cs : List Char) : Option Nat :=
  if cs ≠ [] ∧ cs.all Char.isDigit then some (digitsValue cs) else none

/-- The integer that digits write, after a sign if there is one, unless it is too big
or too small. -/
def integer? (cs : List Char) : Option Int :=
  let value : Option Int :=
    match cs with
    | '-' :: digits => (natural? digits).map fun n => -(n : Int)
    | '+' :: digits => (natural? digits).map Int.ofNat
    | digits => (natural? digits).map Int.ofNat
  value.filter fun n => minInteger ≤ n && n ≤ maxInteger

end Lookahead.Text
