import Lookahead.EditDistance
import Mathlib.Data.List.Induction
import Mathlib.Order.Bounds.Basic

/-! The table of two rows gives the least number of edits.

`Edits n as bs` says that `n` edits, wherever they are made and in whatever order, turn the one
list into the other. `fewest` is the least such number by what becomes of the first elements: no
single edit lowers it by more than one (`fewest_le_of_edit`), and so many edits are enough
(`edits_fewest`). Edits read backwards are edits too, so the last elements may be looked at
instead, which is how an entry comes from its neighbours. While a row is written, the entries up
to some column are those of the new row and all of the row above are in place (`Written`); an
entry is only read after it has been written, so what an older row left behind never counts. -/
namespace Lookahead.EditDistance
variable {α : Type} {as bs cs : List α} {m n : Nat} {x y : α}

/-! ### Edits -/

/-- One element is inserted, left out, or put in the place of another one. -/
inductive Edit : List α → List α → Prop where
  | insert (before : List α) (x : α) (after : List α) :
    Edit (before ++ after) (before ++ x :: after)
  | delete (before : List α) (x : α) (after : List α) :
    Edit (before ++ x :: after) (before ++ after)
  | substitute (before : List α) (x y : α) (after : List α) :
    Edit (before ++ x :: after) (before ++ y :: after)

/-- So many edits, one after another, turn the first list into the second one. -/
inductive Edits : Nat → List α → List α → Prop where
  | none (as : List α) : Edits 0 as as
  | step {n : Nat} {as bs cs : List α} (hfirst : Edit as bs) (hrest : Edits n bs cs) :
    Edits (n + 1) as cs

theorem Edit.symm (h : Edit as bs) : Edit bs as := by
  cases h with
  | insert before x after => exact .delete before x after
  | delete before x after => exact .insert before x after
  | substitute before x y after => exact .substitute before y x after

theorem Edit.cons (x : α) (h : Edit as bs) : Edit (x :: as) (x :: bs) := by
  cases h with
  | insert before y after => exact .insert (x :: before) y after
  | delete before y after => exact .delete (x :: before) y after
  | substitute before y z after => exact .substitute (x :: before) y z after

theorem Edit.reverse (h : Edit as bs) : Edit as.reverse bs.reverse := by
  cases h with
  | insert before x after => simpa using Edit.insert after.reverse x before.reverse
  | delete before x after => simpa using Edit.delete after.reverse x before.reverse
  | substitute before x y after => simpa using Edit.substitute after.reverse x y before.reverse

namespace Edits

theorem map {f : List α → List α} (hf : ∀ {as bs : List α}, Edit as bs → Edit (f as) (f bs))
    (h : Edits n as bs) : Edits n (f as) (f bs) := by
  induction h with
  | none as => exact .none (f as)
  | step hfirst _ ih => exact .step (hf hfirst) ih

theorem concat (h : Edits n as bs) (hlast : Edit bs cs) : Edits (n + 1) as cs := by
  induction h with
  | none as => exact .step hlast (.none cs)
  | step hfirst _ ih => exact .step hfirst (ih hlast)

theorem symm (h : Edits n as bs) : Edits n bs as := by
  induction h with
  | none as => exact .none as
  | step hfirst _ ih => exact ih.concat hfirst.symm

theorem cons (x : α) (h : Edits n as bs) : Edits n (x :: as) (x :: bs) :=
  h.map (Edit.cons x)

theorem delete (x : α) (h : Edits n as bs) : Edits (n + 1) (x :: as) bs :=
  .step (.delete [] x as) h

theorem insert (x : α) (h : Edits n as bs) : Edits (n + 1) as (x :: bs) :=
  h.concat (.insert [] x bs)

theorem substitute (x y : α) (h : Edits n as bs) : Edits (n + 1) (x :: as) (y :: bs) :=
  (h.cons x).concat (.substitute [] x y bs)

theorem lesser (hm : Edits m as bs) (hn : Edits n as bs) : Edits (min m n) as bs := by
  rcases Nat.le_total m n with hle | hle
  · rwa [Nat.min_eq_left hle]
  · rwa [Nat.min_eq_right hle]

end Edits

/-! ### The fewest edits -/

variable [DecidableEq α]

/-- The fewest edits: the first elements are matched or one is put in the place of the other, or
the first one is left out, or the second one inserted. -/
def fewest : List α → List α → Nat
  | [], bs => bs.length
  | _ :: as, [] => as.length + 1
  | a :: as, b :: bs =>
    min (min (fewest as bs + if a = b then 0 else 1) (fewest as (b :: bs) + 1))
      (fewest (a :: as) bs + 1)
termination_by as bs => as.length + bs.length

@[simp] theorem fewest_nil_left (bs : List α) : fewest [] bs = bs.length := by
  rw [fewest]

@[simp] theorem fewest_nil_right (as : List α) : fewest as [] = as.length := by
  cases as <;> simp [fewest]

theorem edits_fewest (as bs : List α) : Edits (fewest as bs) as bs := by
  fun_induction fewest as bs with
  | case1 bs =>
    induction bs with
    | nil => exact .none []
    | cons b bs ih => exact ih.insert b
  | case2 a as =>
    induction as generalizing a with
    | nil => exact (Edits.none []).delete a
    | cons b as ih => exact (ih b).delete a
  | case3 a as b bs hboth hfirst hsecond =>
    have hmatched : Edits (fewest as bs + if a = b then 0 else 1) (a :: as) (b :: bs) := by
      split
      · next heq => exact heq ▸ hboth.cons a
      · exact hboth.substitute a b
    exact (hmatched.lesser (hfirst.delete a)).lesser (hsecond.insert b)

theorem fewest_cons_le (x : α) (as cs : List α) : fewest (x :: as) cs ≤ fewest as cs + 1 := by
  cases cs with
  | nil => simp
  | cons c cs => rw [fewest]; omega

theorem fewest_le_cons (x : α) (as cs : List α) : fewest as cs ≤ fewest (x :: as) cs + 1 := by
  induction cs with
  | nil =>
    rw [fewest_nil_right, fewest_nil_right, List.length_cons]
    omega
  | cons c cs ih =>
    have hinsert : fewest as (c :: cs) ≤ fewest as cs + 1 := by
      cases as with
      | nil => simp
      | cons a as => rw [fewest]; omega
    rw [fewest]
    omega

theorem fewest_cons_le_cons (h : ∀ cs, fewest as cs ≤ fewest bs cs + 1) (x : α) (cs : List α) :
    fewest (x :: as) cs ≤ fewest (x :: bs) cs + 1 := by
  induction cs with
  | nil => simpa using h []
  | cons c cs ih =>
    have htail := h cs
    have hcons := h (c :: cs)
    rw [fewest, fewest]
    omega

/-- Lists that are one edit apart stay so when the same elements are put before both. -/
theorem fewest_append_le_append (h : ∀ cs, fewest as cs ≤ fewest bs cs + 1)
    (before cs : List α) : fewest (before ++ as) cs ≤ fewest (before ++ bs) cs + 1 := by
  induction before generalizing cs with
  | nil => exact h cs
  | cons b before ih => exact fewest_cons_le_cons ih b cs

theorem fewest_substitute_le (x y : α) (as cs : List α) :
    fewest (x :: as) cs ≤ fewest (y :: as) cs + 1 := by
  induction cs with
  | nil => simp
  | cons c cs ih =>
    rw [fewest, fewest]
    split <;> split <;> omega

/-- One edit lowers the number of those that are still needed by one at most. -/
theorem fewest_le_of_edit (h : Edit as bs) (cs : List α) : fewest as cs ≤ fewest bs cs + 1 := by
  cases h with
  | insert before x after => exact fewest_append_le_append (fewest_le_cons x after) before cs
  | delete before x after => exact fewest_append_le_append (fewest_cons_le x after) before cs
  | substitute before x y after =>
    exact fewest_append_le_append (fewest_substitute_le x y after) before cs

theorem fewest_self (as : List α) : fewest as as = 0 := by
  induction as with
  | nil => simp
  | cons a as ih => rw [fewest, ih, if_pos rfl]; omega

theorem fewest_le_of_edits (h : Edits n as bs) : fewest as bs ≤ n := by
  induction h with
  | none as => exact (fewest_self as).le
  | @step n as bs cs hfirst _ ih => exact (fewest_le_of_edit hfirst cs).trans (by omega)

theorem isLeast_fewest (as bs : List α) : IsLeast {n | Edits n as bs} (fewest as bs) :=
  ⟨edits_fewest as bs, fun _ h => fewest_le_of_edits h⟩

theorem fewest_comm (as bs : List α) : fewest as bs = fewest bs as :=
  le_antisymm (fewest_le_of_edits (edits_fewest bs as).symm)
    (fewest_le_of_edits (edits_fewest as bs).symm)

theorem fewest_reverse (as bs : List α) : fewest as.reverse bs.reverse = fewest as bs := by
  refine le_antisymm (fewest_le_of_edits ((edits_fewest as bs).map Edit.reverse)) ?_
  have h := (edits_fewest as.reverse bs.reverse).map Edit.reverse
  rw [List.reverse_reverse, List.reverse_reverse] at h
  exact fewest_le_of_edits h

theorem fewest_le_max (as bs : List α) : fewest as bs ≤ max as.length bs.length := by
  fun_induction fewest as bs with
  | case1 bs => exact Nat.le_max_right ..
  | case2 a as => exact Nat.le_max_left ..
  | case3 a as b bs hboth _ _ =>
    simp only [List.length_cons]
    split <;> omega

theorem fewest_eq_zero_iff : fewest as bs = 0 ↔ as = bs := by
  refine ⟨fun h => ?_, fun h => h ▸ fewest_self as⟩
  have hedits := edits_fewest as bs
  rw [h] at hedits
  cases hedits
  rfl

/-- The fewest edits by what becomes of the last elements. -/
theorem fewest_concat_concat (as bs : List α) (x y : α) :
    fewest (as ++ [x]) (bs ++ [y]) =
      min (min (fewest as bs + if x = y then 0 else 1) (fewest as (bs ++ [y]) + 1))
        (fewest (as ++ [x]) bs + 1) := by
  rw [← fewest_reverse, ← fewest_reverse as bs, ← fewest_reverse as, ← fewest_reverse _ bs]
  simp only [List.reverse_append, List.reverse_singleton, List.singleton_append]
  rw [fewest]

/-! ### The rows -/

namespace Rows
variable {columns : Vector α n} {rows : Rows n} {j : Nat}

/-- The heads of the list that the columns are for. -/
def heads (columns : Vector α n) (j : Nat) : List α :=
  columns.toList.take j

omit [DecidableEq α] in
theorem heads_succ (h : j < n) : heads columns (j + 1) = heads columns j ++ [columns[j]] := by
  have hlt : j < columns.toList.length := by simpa using h
  rw [heads, List.take_succ_eq_append_getElem hlt]
  simp [heads]

/-- The row that is finished is the one for `as`. -/
def Finished (columns : Vector α n) (as : List α) (rows : Rows n) : Prop :=
  ∀ j (hj : j < n + 1), rows.previous[j] = fewest as (heads columns j)

/-- Below the row for `as`, the one for `as` and `x` is written up to column `j`. Nothing is said
about the entries after it. -/
structure Written (columns : Vector α n) (as : List α) (x : α) (j : Nat) (rows : Rows n) :
    Prop where
  above : Finished columns as rows
  entries : ∀ k (hk : k < n + 1), k ≤ j → rows.current[k] = fewest (as ++ [x]) (heads columns k)

theorem finished_start (columns : Vector α n) : Finished columns [] (start n) := by
  intro j hj
  have hle : j ≤ n := Nat.le_of_lt_succ hj
  simp [start, heads, hle]

theorem Finished.begin (h : Finished columns as rows) (x : α) :
    Written columns as x 0 (rows.begin (as.length + 1)) := by
  refine ⟨h, fun k hk hle => ?_⟩
  obtain rfl := Nat.le_zero.mp hle
  simp [Rows.begin, heads]

theorem Written.write (h : Written columns as x j rows) (hj : j < n) :
    Written columns as x (j + 1) (rows.write columns x j hj) := by
  refine ⟨h.above, fun k hk hle => ?_⟩
  simp only [Rows.write, Vector.getElem_set]
  split
  · next heq =>
    -- what is read are two entries of the row above and the one that was written last
    subst heq
    rw [heads_succ hj, fewest_concat_concat, ← heads_succ hj, ← h.above j, ← h.above (j + 1),
      ← h.entries j _ le_rfl]
  · exact h.entries k hk (by omega)

/-- Column by column the whole row is written. -/
theorem Written.fold (h : Written columns as x 0 rows) (m : Nat) (hm : m ≤ n) :
    Written columns as x m
      (m.fold (fun j hj rows => rows.write columns x j (Nat.lt_of_lt_of_le hj hm)) rows) := by
  induction m with
  | zero => exact h
  | succ m ih =>
    rw [Nat.fold_succ]
    exact (ih (Nat.le_of_succ_le hm)).write hm

theorem Finished.next (h : Finished columns as rows) (x : α) :
    Finished columns (as ++ [x]) (rows.next columns x as.length) := by
  intro j hj
  exact ((h.begin x).fold n le_rfl).entries j hj (Nat.le_of_lt_succ hj)

theorem after_concat (columns : Vector α n) (as : List α) (x : α) :
    after columns (as ++ [x]) = (after columns as).next columns x as.length := by
  simp [after, List.zipIdx_append]

theorem finished_after (columns : Vector α n) (as : List α) :
    Finished columns as (after columns as) := by
  induction as using List.reverseRecOn with
  | nil => exact finished_start columns
  | append_singleton as x ih =>
    rw [after_concat]
    exact ih.next x

end Rows

theorem distance_eq_fewest (as bs : List α) : distance as bs = fewest as bs := by
  rw [distance, Rows.finished_after _ as, Rows.heads]
  simp

example : distance "kitten".toList "sitting".toList = 3 := by decide

end Lookahead.EditDistance
