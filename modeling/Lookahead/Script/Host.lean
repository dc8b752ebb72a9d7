import Lookahead.Recognition.Recognizer
import Lookahead.Script.Basic

/-! Scripts as the host of a recognizer. -/
namespace Lookahead.Script

/-- Asks for a predicate and notes that it was asked for. -/
def ask (p : Predicate) : StateM Script Bool := fun s =>
  (s.test p.text, { s with evaluated := s.evaluated ++ [p.text] })

def host : Host Script where
  test := ask
  perform a := modify fun s => s.run a.text

end Lookahead.Script
