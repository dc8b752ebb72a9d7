/-! The edit distance of two lists: how many insertions, deletions and substitutions
of single elements turn one into the other.

The table has a row for each head of one list and a column for each head of the other,
the empty head first; its entries are the distances of these heads. An entry comes from
the one to the left, the one above, and the one above that to the left. So two rows are
enough: a row that is finished and the one below it, which is written from the left. Then
the two change places, and the next row is written over the older one. -/
namespace Lookahead.EditDistance

/-- Two rows of a table whose columns are for a list of `n` elements. -/
structure Rows (n : Nat) where
  /-- The row that is finished. -/
  previous : Vector Nat (n + 1)
  /-- Entries that are not yet written are those of an older row. -/
  current : Vector Nat (n + 1)
  deriving Repr

namespace Rows
variable {α : Type} [DecidableEq α] {n : Nat}

/-- The row for the empty head is finished. -/
def start (n : Nat) : Rows n :=
  ⟨⟨(List.range (n + 1)).toArray, by simp⟩, .replicate (n + 1) 0⟩

/-- Begins the row for a head of so many elements. -/
def begin (rows : Rows n) (length : Nat) : Rows n :=
  { rows with current := rows.current.set 0 length }

/-- Writes the entry after column `j` in the row for a head that ends with `x`. -/
def write (bs : Vector α n) (x : α) (j : Nat) (h : j < n) (rows : Rows n) : Rows n :=
  let substituted := rows.previous[j] + if x = bs[j] then 0 else 1
  let entry := min (min substituted (rows.previous[j + 1] + 1)) (rows.current[j] + 1)
  { rows with current := rows.current.set (j + 1) entry }

def swap (rows : Rows n) : Rows n :=
  ⟨rows.current, rows.previous⟩

/-- Finishes the row for a head that ends with `x`, which has the number `i`. -/
def next (bs : Vector α n) (rows : Rows n) (x : α) (i : Nat) : Rows n :=
  (n.fold (write bs x) (rows.begin (i + 1))).swap

/-- The rows once that for `as` is finished. -/
def after (bs : Vector α n) (as : List α) : Rows n :=
  as.zipIdx.foldl (fun rows (x, i) => rows.next bs x i) (start n)

end Rows

def distance {α : Type} [DecidableEq α] (as bs : List α) : Nat :=
  (Rows.after ⟨bs.toArray, bs.size_toArray⟩ as).previous[bs.length]

end Lookahead.EditDistance
