import Lookahead.Overflow
import Lookahead.Text.Blank
import Lookahead.Text.Integer
import Lookahead.Text.Split

/-! A host whose predicates and actions are written in a small script language.

A predicate is `true`, `false`, the name of a flag, or a comparison of two operands,
which are integers or names of counters. It may be negated with `!` and put in
parentheses, and so may operands be. An unset flag is false, and an unset counter is
zero.

An action is a list of statements with `;` between them. `print:` prints what follows,
or a counter after `$`. `set:name=value` sets a flag or a counter. `name++` and
`name--` count. Other statements do nothing. -/
namespace Lookahead

structure Script where
  flags : List (String × Bool)
  counters : List (String × Int)
  /-- What has been printed. -/
  output : String
  /-- The predicates that were asked for, in order. -/
  evaluated : List String
  /-- A counter has run out of its range, and nothing more is done. -/
  fault : Option Overflow
  deriving Repr

namespace Script

def empty : Script := ⟨[], [], "", [], none⟩

/-- Gives a name a value, in place of the one that it has. -/
def assign (name : String) (value : β) : List (String × β) → List (String × β)
  | [] => [(name, value)]
  | entry :: rest =>
    if entry.1 = name then (name, value) :: rest else entry :: assign name value rest

def setFlag (s : Script) (name : String) (value : Bool) : Script :=
  { s with flags := assign name value s.flags }

def setCounter (s : Script) (name : String) (value : Int) : Script :=
  { s with counters := assign name value s.counters }

def flag (s : Script) (name : String) : Bool := (s.flags.lookup name).getD false

def counter (s : Script) (name : String) : Int := (s.counters.lookup name).getD 0

theorem lookup_assign (name other : String) (value : β) (entries : List (String × β)) :
    (assign name value entries).lookup other =
      if other = name then some value else entries.lookup other := by
  induction entries with
  | nil =>
    by_cases h : other = name
    · simp [assign, h]
    · simp [assign, List.lookup_cons, h, beq_false_of_ne h]
  | cons entry rest ih =>
    obtain ⟨key, v⟩ := entry
    by_cases hk : key = name
    · subst hk
      by_cases h : other = key
      · simp [assign, h]
      · simp [assign, List.lookup_cons, h, beq_false_of_ne h]
    · by_cases h : other = key
      · subst h
        simp [assign, hk]
      · simp [assign, List.lookup_cons, hk, beq_false_of_ne h, ih]

theorem flag_setFlag (s : Script) (name other : String) (value : Bool) :
    (s.setFlag name value).flag other = if other = name then value else s.flag other := by
  simp only [flag, setFlag, lookup_assign]
  split <;> rfl

theorem counter_setCounter (s : Script) (name other : String) (value : Int) :
    (s.setCounter name value).counter other = if other = name then value else s.counter other := by
  simp only [counter, setCounter, lookup_assign]
  split <;> rfl

/-! ### Predicates -/

/-- `depth` parentheses are open before `cs`, none is closed that was not opened, and
all are closed in the end. -/
def balanced : (depth : Nat) → (cs : List Char) → Bool
  | depth, [] => depth == 0
  | depth, '(' :: cs => balanced (depth + 1) cs
  | 0, ')' :: _ => false
  | depth + 1, ')' :: cs => balanced depth cs
  | depth, _ :: cs => balanced depth cs

/-- What stands in one pair of parentheses around a whole text. -/
def enclosed? (cs : List Char) : Option (List Char) :=
  match Text.after? ['('] cs with
  | none => none
  | some rest =>
    match Text.before? [')'] rest with
    | none => none
    | some inner => if balanced 0 inner then some inner else none

/-- An operand without the parentheses around it. Each pair takes two characters, so
`fuel` need not exceed the length of the text. -/
def bare : (fuel : Nat) → List Char → List Char
  | 0, cs => Text.trim cs
  | fuel + 1, cs =>
    match enclosed? (Text.trim cs) with
    | some inner => bare fuel inner
    | none => Text.trim cs

/-- The value of an operand: a number, or what a counter has come to. -/
def value (s : Script) (operand : List Char) : Int :=
  let name := bare operand.length operand
  match Text.integer? name with
  | some n => n
  | none => s.counter (String.ofList name)

inductive Comparison where
  | le
  | ge
  | eq
  | ne
  | lt
  | gt
  deriving DecidableEq, Repr

namespace Comparison

def sign : Comparison → List Char
  | le => ['<', '=']
  | ge => ['>', '=']
  | eq => ['=', '=']
  | ne => ['!', '=']
  | lt => ['<']
  | gt => ['>']

def holds : Comparison → Int → Int → Bool
  | le, a, b => a ≤ b
  | ge, a, b => b ≤ a
  | eq, a, b => a == b
  | ne, a, b => a != b
  | lt, a, b => a < b
  | gt, a, b => b < a

/-- The comparisons in the order in which they are looked for, so that no sign is
taken for a shorter one. -/
def inOrder : List Comparison := [le, ge, eq, ne, lt, gt]

end Comparison

/-- The first of some comparisons that a text has, with its operands. -/
def comparison? (cs : List Char) : List Comparison → Option (Comparison × List Char × List Char)
  | [] => none
  | c :: rest =>
    match Text.splitOnce? c.sign cs with
    | some (left, right) => some (c, left, right)
    | none => comparison? cs rest

/-- The value of a text without white space around it that is no negation and not in
parentheses. -/
def simpleTest (s : Script) (cs : List Char) : Bool :=
  if cs = ['t', 'r', 'u', 'e'] then true
  else if cs = ['f', 'a', 'l', 's', 'e'] then false
  else
    match comparison? cs Comparison.inOrder with
    | some (c, left, right) => c.holds (s.value left) (s.value right)
    | none => s.flag (String.ofList cs)

/-- The value of a predicate. Each negation and each pair of parentheses takes a
character, so `fuel` need not exceed the length of the text. -/
def testChars (s : Script) : (fuel : Nat) → List Char → Bool
  | 0, cs => s.simpleTest (Text.trim cs)
  | fuel + 1, cs =>
    match Text.after? ['!'] (Text.trim cs) with
    | some rest => !testChars s fuel rest
    | none =>
      match enclosed? (Text.trim cs) with
      | some inner => testChars s fuel inner
      | none => s.simpleTest (Text.trim cs)

/-- The value of a predicate. -/
def test (s : Script) (text : String) : Bool := s.testChars text.toList.length text.toList

/-! ### Actions -/

/-- Prints a text, or a counter if the text starts with `$`. -/
def print (s : Script) (cs : List Char) : Script :=
  match Text.after? ['$'] cs with
  | some name => { s with output := s.output ++ toString (s.counter (String.ofList name)) }
  | none => { s with output := s.output ++ String.ofList cs }

/-- Sets a flag or a counter; a value that is neither of the two is left alone. -/
def setTo (s : Script) (cs : List Char) : Script :=
  match Text.splitOnce? ['='] cs with
  | none => s
  | some (left, right) =>
    let name := String.ofList (Text.trim left)
    let value := Text.trim right
    if value = ['t', 'r', 'u', 'e'] then s.setFlag name true
    else if value = ['f', 'a', 'l', 's', 'e'] then s.setFlag name false
    else
      match Text.integer? value with
      | some n => s.setCounter name n
      | none => s

/-- Counts one up. -/
def increment (s : Script) (name : String) : Script :=
  if s.counter name = Text.maxInteger then { s with fault := some .add }
  else s.setCounter name (s.counter name + 1)

/-- Counts one down. -/
def decrement (s : Script) (name : String) : Script :=
  if s.counter name = Text.minInteger then { s with fault := some .subtract }
  else s.setCounter name (s.counter name - 1)

/-- Does what a statement without white space around it says. -/
def statement (s : Script) (cs : List Char) : Script :=
  match Text.after? "print:".toList cs with
  | some text => s.print text
  | none =>
    match Text.after? "set:".toList cs with
    | some assignment => s.setTo assignment
    | none =>
      match Text.before? ['+', '+'] cs with
      | some name => s.increment (String.ofList (Text.trim name))
      | none =>
        match Text.before? ['-', '-'] cs with
        | some name => s.decrement (String.ofList (Text.trim name))
        | none => s

/-- Does one more statement, unless a counter has run out of its range. -/
def next (s : Script) (cs : List Char) : Script := if s.fault.isSome then s else s.statement cs

/-- Performs an action. -/
def run (s : Script) (text : String) : Script :=
  ((Text.splitAt ';' text.toList).map Text.trim).foldl next s

end Script
end Lookahead
