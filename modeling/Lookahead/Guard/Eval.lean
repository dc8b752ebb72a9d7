import Lookahead.Guard.Basic

/-! The value of a guard.

`holds` is the value under given values of the predicates. `ask` finds it by asking
for one predicate after the other, from left to right, and stops asking as soon as
the value is known. Asking may have effects. -/
namespace Lookahead.Guard

mutual
/-- The value of a guard where `v` gives the values of predicates. -/
def holds (v : Predicate → Bool) : Guard → Bool
  | .never => false
  | .always => true
  | .leaf p => v p
  | .not g => !holds v g
  | .all gs => holdAll v gs
  | .any gs => holdAny v gs

def holdAll (v : Predicate → Bool) : List Guard → Bool
  | [] => true
  | g :: gs => holds v g && holdAll v gs

def holdAny (v : Predicate → Bool) : List Guard → Bool
  | [] => false
  | g :: gs => holds v g || holdAny v gs
end

mutual
/-- The value of a guard where asking for a predicate is an action. -/
def ask [Monad m] (leaf : Predicate → m Bool) : Guard → m Bool
  | .never => pure false
  | .always => pure true
  | .leaf p => leaf p
  | .not g => do return !(← ask leaf g)
  | .all gs => askAll leaf gs
  | .any gs => askAny leaf gs

def askAll [Monad m] (leaf : Predicate → m Bool) : List Guard → m Bool
  | [] => pure true
  | g :: gs => do if ← ask leaf g then askAll leaf gs else pure false

def askAny [Monad m] (leaf : Predicate → m Bool) : List Guard → m Bool
  | [] => pure false
  | g :: gs => do if ← ask leaf g then pure true else askAny leaf gs
end

theorem holdAll_eq_all (v : Predicate → Bool) (gs : List Guard) :
    holdAll v gs = gs.all (holds v) := by
  induction gs with
  | nil => rfl
  | cons g gs ih => simp [holdAll, ih]

theorem holdAny_eq_any (v : Predicate → Bool) (gs : List Guard) :
    holdAny v gs = gs.any (holds v) := by
  induction gs with
  | nil => rfl
  | cons g gs ih => simp [holdAny, ih]

end Lookahead.Guard
