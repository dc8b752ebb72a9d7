import Lookahead.Symbol
import Lookahead.Text.Quoted

/-! Tokens and streams of symbols. -/
namespace Lookahead

/-- The type of a token that no rule names. -/
def invalidTokenType : TokenType := 0

/-- A piece of the input, from the character `start` up to the one before `stop`. -/
structure Token where
  type : TokenType
  text : String
  start : Nat
  stop : Nat
  deriving DecidableEq, Repr

def Token.display (t : Token) : String :=
  "[@" ++ toString t.start ++ ".." ++ toString t.stop ++ "='" ++
    String.ofList (Text.escaped t.text.toList) ++ "',<" ++ toString t.type ++ ">]"

/-- What can be read as a symbol. -/
class Symbolic (α : Type) where
  symbol : α → Symbol

instance : Symbolic Char := ⟨Symbol.ofChar⟩

instance : Symbolic Token := ⟨fun t => .ofTokenType t.type⟩

/-- An input and how far it has been read. -/
structure Stream (α : Type) where
  items : List α
  index : Nat
  deriving DecidableEq, Repr

namespace Stream
variable {α : Type}

def ofList (items : List α) : Stream α := ⟨items, 0⟩

/-- What is still to be read. -/
def ahead (s : Stream α) : List α := s.items.drop s.index

/-- The item `i` places ahead; the next one is the first. -/
def peek? (s : Stream α) (i : Nat) : Option α :=
  if i = 0 then none else s.items[s.index + (i - 1)]?

/-- The symbol `i` places ahead. -/
def symbol? [Symbolic α] (s : Stream α) (i : Nat) : Option Symbol :=
  (s.peek? i).map Symbolic.symbol

/-- Moves past the next item, if there is one. -/
def consume (s : Stream α) : Stream α :=
  if s.index < s.items.length then { s with index := s.index + 1 } else s

/-- The text from one place up to another, as far as the input has it. -/
def text (s : Stream Char) (start stop : Nat) : String :=
  String.ofList ((s.items.take stop).drop start)

@[simp] theorem items_consume (s : Stream α) : s.consume.items = s.items := by
  unfold consume
  split <;> rfl

theorem ahead_consume (s : Stream α) : s.consume.ahead = s.ahead.tail := by
  unfold consume ahead
  split
  · simp
  · next h => simp [List.drop_eq_nil_of_le (Nat.not_lt.mp h)]

end Stream
end Lookahead
