import Lookahead.Symbol

/-! Token types by name.

Types are handed out one after the other from `firstTokenType` on, each with the
name that got it. A name keeps the type that it got first. A quoted literal may be
another name of a token that has one already. -/
namespace Lookahead

/-- The lowest type of a token that a grammar defines. -/
def firstTokenType : TokenType := 4

structure TokenTable where
  /-- The names that got types of their own, in the order of the types. -/
  names : List String
  /-- The type of each name and each quoted literal. -/
  types : List (String × TokenType)
  deriving Repr

namespace TokenTable

def empty : TokenTable := ⟨[], []⟩

/-- The highest type that was handed out; one below the first type if none was. -/
def maxType (t : TokenTable) : TokenType := firstTokenType + t.names.length - 1

/-- The type of a name or a quoted literal. -/
def type? (t : TokenTable) (name : String) : Option TokenType := t.types.lookup name

/-- The name that a type was handed out to. -/
def name? (t : TokenTable) (type : TokenType) : Option String :=
  if type < firstTokenType then none else t.names[type - firstTokenType]?

/-- The type of a token, which is defined if it was not. -/
def define (t : TokenTable) (name : String) : TokenType × TokenTable :=
  match t.type? name with
  | some type => (type, t)
  | none =>
    let type := firstTokenType + t.names.length
    (type, ⟨t.names ++ [name], t.types ++ [(name, type)]⟩)

/-- Gives a token another name, unless that name has a type already. -/
def rename (t : TokenTable) (name : String) (type : TokenType) : TokenTable :=
  match t.type? name with
  | some _ => t
  | none => ⟨t.names, t.types ++ [(name, type)]⟩

end TokenTable
end Lookahead
