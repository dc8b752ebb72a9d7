import Lookahead.Iteration
import Mathlib.Algebra.Order.Ring.Nat

/-! How many steps bursts are, and when steps end. A burst of size `k` is `2 ^ k` steps, and
`n` bursts from size `k` on are as many steps as the powers of two from `2 ^ k` to
`2 ^ (n + k - 1)` add up to. Steps end where each further one leaves less to do. -/
namespace Lookahead

theorem burst_eq_steps (step : σ → Step σ ρ) (k : Nat) (s : σ) :
    burst step k s = steps step (2 ^ k) s := by
  induction k generalizing s with
  | zero =>
    simp only [burst, steps, Nat.pow_zero]
    cases step s <;> rfl
  | succ k ih =>
    rw [Nat.pow_succ, Nat.mul_two, steps_add, burst, ih]
    cases steps step (2 ^ k) s with
    | done r => rfl
    | more s => exact ih s

theorem bursts_eq_steps (step : σ → Step σ ρ) (n k : Nat) (s : σ) :
    bursts step n k s = steps step (2 ^ (n + k) - 2 ^ k) s := by
  induction n generalizing k s with
  | zero => simp [bursts, steps]
  | succ n ih =>
    have hle : 2 ^ (k + 1) ≤ 2 ^ (n + (k + 1)) := Nat.pow_le_pow_right (by decide) (by omega)
    have hk : 2 ^ (k + 1) = 2 ^ k + 2 ^ k := by rw [Nat.pow_succ, Nat.mul_two]
    have hsplit : 2 ^ (n + 1 + k) - 2 ^ k = 2 ^ k + (2 ^ (n + (k + 1)) - 2 ^ (k + 1)) := by
      have split : ∀ a b c : Nat, b ≤ c → b = a + a → c - a = a + (c - b) := by omega
      rw [show n + 1 + k = n + (k + 1) by omega]
      exact split _ _ _ hle hk
    rw [hsplit, steps_add, bursts, burst_eq_steps]
    cases steps step (2 ^ k) s with
    | done r => rfl
    | more s => exact ih (k + 1) s

/-- Further steps change nothing about an end. -/
theorem steps_done_of_le {step : σ → Step σ ρ} {m n : Nat} {s : σ} {r : ρ}
    (h : steps step m s = .done r) (hle : m ≤ n) : steps step n s = .done r := by
  obtain ⟨k, rfl⟩ := Nat.exists_eq_add_of_le hle
  rw [steps_add, h]

/-- Steps that keep an invariant and leave less to do end, with what the invariant tells of the
last one. -/
theorem exists_steps_eq_done {step : σ → Step σ ρ} {inv : σ → Prop} {post : ρ → Prop}
    (left : σ → Nat) (more : ∀ s s', inv s → step s = .more s' → inv s' ∧ left s' < left s)
    (done : ∀ s r, inv s → step s = .done r → post r) {n : Nat} {s : σ} (hs : inv s)
    (hn : left s < n) : ∃ r, steps step n s = .done r ∧ post r := by
  induction n generalizing s with
  | zero => exact absurd hn (Nat.not_lt_zero _)
  | succ n ih =>
    simp only [steps]
    cases hstep : step s with
    | done r => exact ⟨r, rfl, done s r hs hstep⟩
    | more s' =>
      obtain ⟨hs', hless⟩ := more s s' hs hstep
      exact ih hs' (by omega)

/-- Steps that are counted and leave less to do are no more than there is to do, and one. -/
theorem exists_steps_counted {step : σ → Step σ ρ} (left count : σ → Nat) (total : ρ → Nat)
    (more : ∀ s s', step s = .more s' → count s' = count s + 1 ∧ left s' < left s)
    (done : ∀ s r, step s = .done r → total r ≤ count s + 1) (s : σ) :
    ∃ r, steps step (left s + 1) s = .done r ∧ total r ≤ count s + left s + 1 := by
  have hmore (s₁ s₂ : σ) (hinv : count s₁ + left s₁ ≤ count s + left s)
      (hstep : step s₁ = .more s₂) :
      count s₂ + left s₂ ≤ count s + left s ∧ left s₂ < left s₁ := by
    obtain ⟨hcount, hless⟩ := more s₁ s₂ hstep
    omega
  have hdone (s₁ : σ) (r : ρ) (hinv : count s₁ + left s₁ ≤ count s + left s)
      (hstep : step s₁ = .done r) : total r ≤ count s + left s + 1 := by
    have := done s₁ r hstep
    omega
  exact exists_steps_eq_done left hmore hdone (Nat.le_refl _) (Nat.lt_succ_self _)

/-- What holds of a last step, and of a step if it holds from the next one on, holds of steps
that end. -/
theorem steps_induction {step : σ → Step σ ρ} {motive : Nat → σ → ρ → Prop}
    (done : ∀ n s r, step s = .done r → motive (n + 1) s r)
    (more : ∀ n s s' r, step s = .more s' → motive n s' r → motive (n + 1) s r) {n : Nat} {s : σ}
    {r : ρ} (h : steps step n s = .done r) : motive n s r := by
  induction n generalizing s with
  | zero => exact nomatch h
  | succ n ih =>
    simp only [steps] at h
    split at h
    · next r' hstep =>
      obtain rfl := Step.done.inj h
      exact done n s r' hstep
    · next s' hstep => exact more n s s' r hstep (ih h)

end Lookahead
