/-! How actions end that may fail and that change a state.

`Ends m s r s'` says that from state `s` the action `m` ends with the result `r`, in state
`s'`. An error keeps the state that it arose in. The lemmas open an action from the front,
one part after the other. -/
namespace Lookahead

def Ends {ε σ α : Type} (m : ExceptT ε (StateM σ) α) (s : σ) (r : Except ε α) (s' : σ) : Prop :=
  m.run.run s = (r, s')

section
variable {ε σ α β : Type} {m : ExceptT ε (StateM σ) α} {f : α → ExceptT ε (StateM σ) β}
  {s s' : σ}

/-- An action ends in one way. -/
theorem Ends.unique {r r' : Except ε α} {s₁ s₂ : σ} (h : Ends m s r s₁) (h' : Ends m s r' s₂) :
    r = r' ∧ s₁ = s₂ :=
  Prod.mk.inj (h.symm.trans h')

/-- An action ends in the state that it comes to. -/
theorem ends_of_fst {r : Except ε α} (h : (m.run.run s).1 = r) : Ends m s r (m.run.run s).2 :=
  Prod.ext h rfl

theorem ends_bind {r : Except ε β} :
    Ends (m >>= f) s r s' ↔
      (∃ e, Ends m s (.error e) s' ∧ r = .error e) ∨
        ∃ a s₁, Ends m s (.ok a) s₁ ∧ Ends (f a) s₁ r s' := by
  have hbind : (m >>= f).run.run s =
      match m.run.run s with
      | (.ok a, s₁) => (f a).run.run s₁
      | (.error e, s₁) => (.error e, s₁) := by
    simp only [ExceptT.run_bind, StateT.run_bind]
    show (match m.run.run s with | (a, s₁) => _) = _
    rcases m.run.run s with ⟨_ | _, _⟩ <;> rfl
  unfold Ends
  rw [hbind]
  rcases hm : m.run.run s with ⟨e | a, s₁⟩
  · grind
  · grind

theorem ends_bind_ok {b : β} :
    Ends (m >>= f) s (.ok b) s' ↔ ∃ a s₁, Ends m s (.ok a) s₁ ∧ Ends (f a) s₁ (.ok b) s' := by
  rw [ends_bind, or_iff_right]
  rintro ⟨e, _, he⟩
  exact nomatch he

theorem ends_iff {r r₁ : Except ε α} {s₁ : σ} (h : m.run.run s = (r₁, s₁)) :
    Ends m s r s' ↔ r = r₁ ∧ s' = s₁ := by
  rw [Ends, h, Prod.mk.injEq]
  exact and_congr eq_comm eq_comm

@[simp] theorem ends_pure {a : α} {r : Except ε α} :
    Ends (pure a) s r s' ↔ r = .ok a ∧ s' = s := ends_iff rfl

theorem ends_pure_ok {a b : α} : Ends (pure a) s (.ok b : Except ε α) s' ↔ b = a ∧ s' = s := by
  rw [ends_pure, Except.ok.injEq]

@[simp] theorem ends_throw {e : ε} {r : Except ε α} :
    Ends (throw e) s r s' ↔ r = .error e ∧ s' = s := ends_iff rfl

@[simp] theorem ends_get {r : Except ε σ} : Ends get s r s' ↔ r = .ok s ∧ s' = s := ends_iff rfl

@[simp] theorem ends_set {s₁ : σ} {r : Except ε PUnit} :
    Ends (set s₁) s r s' ↔ r = .ok ⟨⟩ ∧ s' = s₁ := ends_iff rfl

@[simp] theorem ends_modify {g : σ → σ} {r : Except ε PUnit} :
    Ends (modify g) s r s' ↔ r = .ok ⟨⟩ ∧ s' = g s := ends_iff rfl

@[simp] theorem ends_modifyGet {g : σ → α × σ} {r : Except ε α} :
    Ends (modifyGet g) s r s' ↔ r = .ok (g s).1 ∧ s' = (g s).2 := ends_iff rfl

@[simp] theorem ends_get_bind {f : σ → ExceptT ε (StateM σ) β} {r : Except ε β} :
    Ends (get >>= f) s r s' ↔ Ends (f s) s r s' := Iff.rfl

@[simp] theorem ends_set_bind {s₁ : σ} {f : PUnit → ExceptT ε (StateM σ) β} {r : Except ε β} :
    Ends (set s₁ >>= f) s r s' ↔ Ends (f ⟨⟩) s₁ r s' := Iff.rfl

@[simp] theorem ends_modify_bind {g : σ → σ} {f : PUnit → ExceptT ε (StateM σ) β}
    {r : Except ε β} : Ends (modify g >>= f) s r s' ↔ Ends (f ⟨⟩) (g s) r s' := Iff.rfl

@[simp] theorem ends_throw_bind {e : ε} {r : Except ε β} :
    Ends (throw e >>= f) s r s' ↔ r = .error e ∧ s' = s := ends_iff rfl

end
end Lookahead
