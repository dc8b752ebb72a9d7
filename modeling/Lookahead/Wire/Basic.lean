/-! Plain data, to be stored and sent.

A structure is written as a record of its fields. A value of a type with several
shapes is written as the name of its shape or, if there is more to say, as a record
with that name alone. What may be missing is null where it is. -/
namespace Lookahead

inductive Wire where
  | null
  | bool (b : Bool)
  | number (n : Nat)
  | text (s : String)
  | list (items : List Wire)
  | record (fields : List (String × Wire))
  deriving Repr

namespace Wire

/-- A shape that says more than its name. -/
def shape (name : String) (body : Wire) : Wire := .record [(name, body)]

/-- The value of a field; one that is not there is null. -/
def field (w : Wire) (name : String) : Wire :=
  match w with
  | .record fields => (fields.lookup name).getD .null
  | _ => .null

def ofOption (write : α → Wire) : Option α → Wire
  | some a => write a
  | none => .null

/-- Reads what may be missing. -/
def option? (read : Wire → Option α) : Wire → Option (Option α)
  | .null => some none
  | w => (read w).map some

def bool? : Wire → Option Bool
  | .bool b => some b
  | _ => none

def number? : Wire → Option Nat
  | .number n => some n
  | _ => none

def text? : Wire → Option String
  | .text s => some s
  | _ => none

/-- Reads every item. -/
def readAll (read : Wire → Option α) : List Wire → Option (List α)
  | [] => some []
  | w :: ws =>
    match read w, readAll read ws with
    | some a, some as => some (a :: as)
    | _, _ => none

def list? (read : Wire → Option α) : Wire → Option (List α)
  | .list items => readAll read items
  | _ => none

theorem readAll_map {read : Wire → Option α} {write : α → Wire} {as : List α}
    (h : ∀ a ∈ as, read (write a) = some a) : readAll read (as.map write) = some as := by
  induction as with
  | nil => rfl
  | cons a as ih =>
    simp [readAll, h a (List.mem_cons_self ..), ih fun b hb => h b (List.mem_cons_of_mem _ hb)]

end Wire
end Lookahead
