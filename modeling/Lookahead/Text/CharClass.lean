/-! Classes of characters as tables.

A class is the ascending list of the code points at which membership changes: the
first one is in the class, those from the second one on are not, and so on. -/
namespace Lookahead.Text

/-- Code point `c` is in the class that changes at the given places. -/
def inClass : List Nat → Nat → Bool
  | [], _ => false
  | place :: rest, c => if c < place then false else !inClass rest c

end Lookahead.Text
