/-! Numbers that grow out of their range. -/
namespace Lookahead

inductive Overflow where
  | add
  | subtract
  deriving DecidableEq, Repr

def Overflow.message : Overflow → String
  | add => "attempt to add with overflow"
  | subtract => "attempt to subtract with overflow"

end Lookahead
