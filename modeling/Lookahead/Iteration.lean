/-! Doing a step again and again, with a bound that may be too large to count to.

A step leads on to another state or ends with a result. `bursts step n 0` does the
step up to `2 ^ n - 1` times, in bursts of 1, 2, 4 and so on steps, so a bound on
the number of steps has to be known only as a power of two, and only as many bursts
are made as are needed. -/
namespace Lookahead

inductive Step (σ ρ : Type) where
  | more (state : σ)
  | done (result : ρ)
  deriving Repr

/-- Up to `2 ^ k` steps. -/
def burst (step : σ → Step σ ρ) : (k : Nat) → σ → Step σ ρ
  | 0, s => step s
  | k + 1, s =>
    match burst step k s with
    | .done r => .done r
    | .more s => burst step k s

/-- `n` bursts, of which the first has up to `2 ^ k` steps and each further one twice
as many. -/
def bursts (step : σ → Step σ ρ) : (n k : Nat) → σ → Step σ ρ
  | 0, _, s => .more s
  | n + 1, k, s =>
    match burst step k s with
    | .done r => .done r
    | .more s => bursts step n (k + 1) s

/-- Exactly `n` steps, unless one of them ends. -/
def steps (step : σ → Step σ ρ) : (n : Nat) → σ → Step σ ρ
  | 0, s => .more s
  | n + 1, s =>
    match step s with
    | .done r => .done r
    | .more s => steps step n s

theorem steps_add (step : σ → Step σ ρ) (m n : Nat) (s : σ) :
    steps step (m + n) s =
      match steps step m s with
      | .done r => .done r
      | .more s => steps step n s := by
  induction m generalizing s with
  | zero => simp [steps]
  | succ m ih =>
    rw [Nat.succ_add]
    simp only [steps]
    cases step s with
    | done r => rfl
    | more s => exact ih s

end Lookahead
