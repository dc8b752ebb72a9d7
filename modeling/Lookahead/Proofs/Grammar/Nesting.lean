import Lookahead.Proofs.Grammar.Derivation
import Mathlib.Data.Finset.Card

/-! How deeply calls have to be nested.

A call inside a derivation derives a part of its word. While the word stays the same, a
derivation need not call a rule twice, so a word is derived with no more nested calls than
there are rules for each length that its parts may have. -/
namespace Lookahead

/-- Calls may be replaced by other ones with the same words. -/
theorem Derives.replace {calls calls' : RuleId → List Event → Prop} {portion : Portion}
    {es : List Event} (h : Derives calls portion es)
    (hcalls : ∀ id fs, calls id fs → Event.symbols fs <:+: Event.symbols es →
      ∃ fs', calls' id fs' ∧ Event.symbols fs' = Event.symbols fs) :
    ∃ es', Derives calls' portion es' ∧ Event.symbols es' = Event.symbols es := by
  have hleft {es fs : List Event} : Event.symbols es <:+: Event.symbols (es ++ fs) := by
    rw [Event.symbols_append]
    exact (List.prefix_append _ _).isInfix
  have hright {es fs : List Event} : Event.symbols fs <:+: Event.symbols (es ++ fs) := by
    rw [Event.symbols_append]
    exact (List.suffix_append _ _).isInfix
  induction h with
  | symbols hx => exact ⟨_, .symbols hx, rfl⟩
  | call h =>
    obtain ⟨fs', hfs', hsymbols⟩ := hcalls _ _ h List.infix_rfl
    exact ⟨fs', .call hfs', hsymbols⟩
  | predicate id => exact ⟨_, .predicate id, rfl⟩
  | action id => exact ⟨_, .action id, rfl⟩
  | single ha _ ih =>
    obtain ⟨es', hes', hsymbols⟩ := ih fun id fs hfs hin => hcalls id fs hfs (hin.trans hright)
    exact ⟨_, .single ha hes', by simp [hsymbols]⟩
  | optional ha _ ih =>
    obtain ⟨es', hes', hsymbols⟩ := ih fun id fs hfs hin => hcalls id fs hfs (hin.trans hright)
    exact ⟨_, .optional ha hes', by simp [hsymbols]⟩
  | skip => exact ⟨_, .skip, rfl⟩
  | star _ ih =>
    obtain ⟨es', hes', hsymbols⟩ := ih hcalls
    exact ⟨es', .star hes', hsymbols⟩
  | plus hn _ ih =>
    obtain ⟨es', hes', hsymbols⟩ := ih hcalls
    exact ⟨es', .plus hn hes', hsymbols⟩
  | nil => exact ⟨[], .nil, rfl⟩
  | cons _ _ ih ih' =>
    obtain ⟨es', hes', hsymbols⟩ := ih fun id fs hfs hin => hcalls id fs hfs (hin.trans hleft)
    obtain ⟨fs', hfs', hsymbols'⟩ := ih' fun id fs hfs hin => hcalls id fs hfs (hin.trans hright)
    exact ⟨_, .cons hes' hfs', by simp [hsymbols, hsymbols']⟩
  | leave => exact ⟨_, .leave, rfl⟩
  | round ha _ _ ih ih' =>
    obtain ⟨es', hes', hsymbols⟩ := ih fun id fs hfs hin =>
      hcalls id fs hfs (hin.trans (hright.trans hleft))
    obtain ⟨fs', hfs', hsymbols'⟩ := ih' fun id fs hfs hin => hcalls id fs hfs (hin.trans hright)
    exact ⟨_, .round ha hes' hfs', by simp [hsymbols, hsymbols']⟩
  | last ha _ hnone ih =>
    obtain ⟨es', hes', hsymbols⟩ := ih fun id fs hfs hin => hcalls id fs hfs (hin.trans hright)
    exact ⟨_, .last ha hes' (hsymbols.trans hnone), by simp [hsymbols]⟩

namespace Grammar
variable {g : Grammar} {n m : Nat} {id : RuleId} {w : List Symbol}

/-- The rule derives the word with calls nested less than `n` times. -/
def ReadsIn (g : Grammar) (n : Nat) (id : RuleId) (w : List Symbol) : Prop :=
  ∃ es, g.DerivesIn n id es ∧ Event.symbols es = w

theorem ReadsIn.lt (h : g.ReadsIn n id w) : id < g.rules.length := by
  obtain ⟨es, hes, _⟩ := h
  cases n with
  | zero => exact hes.elim
  | succ n =>
    obtain ⟨r, hr, _⟩ := hes
    exact (List.getElem?_eq_some_iff.mp hr).1

/-- The calls of a derivation derive parts of its word. -/
theorem ReadsIn.succ (h : g.ReadsIn (n + 1) id w)
    (hcalls : ∀ id v, v <:+: w → g.ReadsIn n id v → g.ReadsIn m id v) : g.ReadsIn (m + 1) id w := by
  obtain ⟨es, ⟨r, hr, hes⟩, rfl⟩ := h
  have hreplace : ∀ id fs, g.DerivesIn n id fs → Event.symbols fs <:+: Event.symbols es →
      ∃ fs', g.DerivesIn m id fs' ∧ Event.symbols fs' = Event.symbols fs :=
    fun id fs hfs hin => hcalls id _ hin ⟨fs, hfs, rfl⟩
  obtain ⟨es', hes', hsymbols⟩ := hes.replace hreplace
  exact ⟨es', ⟨r, hr, hes'⟩, hsymbols⟩

theorem ReadsIn.mono (h : g.ReadsIn n id w) (hle : n ≤ m) : g.ReadsIn m id w := by
  induction n generalizing m id w with
  | zero =>
    obtain ⟨_, hes, _⟩ := h
    exact hes.elim
  | succ n ih =>
    cases m with
    | zero => exact absurd hle (Nat.not_succ_le_zero n)
    | succ m => exact h.succ fun id v _ hv => ih hv (Nat.le_of_succ_le_succ hle)

open Classical in
/-- The rules that derive a word with calls nested less than `n` times. -/
noncomputable def readers (g : Grammar) (n : Nat) (w : List Symbol) : Finset RuleId :=
  (Finset.range g.rules.length).filter (g.ReadsIn n · w)

theorem mem_readers : id ∈ g.readers n w ↔ g.ReadsIn n id w := by
  classical
  rw [readers, Finset.mem_filter, Finset.mem_range]
  exact and_iff_right_of_imp ReadsIn.lt

theorem readers_subset (hle : n ≤ m) : g.readers n w ⊆ g.readers m w :=
  fun _ hid => mem_readers.mpr ((mem_readers.mp hid).mono hle)

theorem card_readers_le : (g.readers n w).card ≤ g.rules.length := by
  classical
  refine Nat.le_trans (Finset.card_filter_le _ _) ?_
  rw [Finset.card_range]

/-- Where one more nested call adds no reader of a word, no further one does, given that
those of its proper parts are complete. -/
theorem readers_stable (hparts : ∀ id v k, v <:+: w → v ≠ w → g.ReadsIn k id v → g.ReadsIn n id v)
    (h : g.readers (n + 1) w ⊆ g.readers n w) : g.readers (n + 1 + 1) w ⊆ g.readers (n + 1) w := by
  intro id hid
  refine mem_readers.mpr ((mem_readers.mp hid).succ fun id' v hin hv => ?_)
  by_cases hvw : v = w
  · subst hvw
    exact mem_readers.mp (h (mem_readers.mpr hv))
  · exact hparts id' v _ hin hvw hv

/-- A word that a rule derives, it derives with calls nested this deeply at the most. -/
theorem ReadsIn.shallow (h : g.ReadsIn n id w) :
    g.ReadsIn (g.rules.length * (w.length + 1)) id w := by
  induction hlength : w.length using Nat.strong_induction_on generalizing n id w with
  | _ length ih =>
    subst hlength
    have hparts : ∀ id v k, v <:+: w → v ≠ w → g.ReadsIn k id v →
        g.ReadsIn (g.rules.length * w.length) id v := by
      intro id v k hin hne hv
      have hlt : v.length < w.length :=
        Nat.lt_of_le_of_ne hin.length_le fun h => hne (hin.eq_of_length h)
      exact (ih v.length hlt hv rfl).mono (Nat.mul_le_mul_left _ hlt)
    have hconstant (k : Nat) (hk : g.rules.length ≤ k) :
        (g.readers (g.rules.length * w.length + k) w).card =
          (g.readers (g.rules.length * w.length + g.rules.length) w).card := by
      refine Nat.stabilises_of_monotone
        (f := fun k => (g.readers (g.rules.length * w.length + k) w).card)
        (fun i j hij => Finset.card_le_card (readers_subset (Nat.add_le_add_left hij _)))
        (fun _ => card_readers_le) (fun k hsame => ?_) hk
      have hsubset := (Finset.eq_of_subset_of_card_le
        (readers_subset (Nat.le_succ (g.rules.length * w.length + k))) hsame.ge).ge
      refine Nat.le_antisymm (Finset.card_le_card (readers_subset (Nat.le_succ _))) ?_
      refine Finset.card_le_card (readers_stable (fun id v j hin hne hv => ?_) hsubset)
      exact (hparts id v j hin hne hv).mono (Nat.le_add_right _ _)
    -- A deeper derivation adds no reader, so it is one of those at the bound.
    rw [Nat.mul_succ]
    have hdeep : id ∈ g.readers (g.rules.length * w.length + max n g.rules.length) w :=
      mem_readers.mpr (h.mono (Nat.le_trans (Nat.le_max_left _ _) (Nat.le_add_left _ _)))
    have hsame := Finset.eq_of_subset_of_card_le
      (readers_subset (g := g) (w := w) (Nat.add_le_add_left (Nat.le_max_right n _) _))
      (hconstant (max n g.rules.length) (Nat.le_max_right _ _)).le
    exact mem_readers.mp (hsame ▸ hdeep)

end Grammar
end Lookahead
