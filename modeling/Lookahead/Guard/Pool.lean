import Lookahead.Guard.Handle

/-! A pool keeps one copy of each guard that was built through it.

A guard that is the `same` as one in the pool is answered with the one in the pool.
Constants need no copy and are not kept. Where an operation gets to see that one
operand is the whole answer, it builds nothing and asks the pool for nothing. -/
namespace Lookahead.Guard

/-- The guards that are kept, oldest first. -/
structure Pool where
  handles : List Handle
  deriving Repr

namespace Pool

def empty : Pool := ⟨[]⟩

def size (pool : Pool) : Nat := pool.handles.length

/-- The pool's copy of a guard, which is kept if there was none. -/
def intern (pool : Pool) (h : Handle) : Handle × Pool :=
  if h.guard.isAlways || h.guard.isNever then (h, pool)
  else
    match pool.handles.find? (h.guard.same ·.guard) with
    | some kept => (kept, pool)
    | none => (h, ⟨pool.handles ++ [h]⟩)

def leaf (pool : Pool) (stamp : Stamp) (p : Predicate) : Handle × Pool :=
  pool.intern (.ofGuard stamp (.leaf p))

def and (pool : Pool) (stamp : Stamp) (h k : Handle) : Handle × Pool :=
  if k.guard.isAlways || h.isShared k then (h, pool)
  else if h.guard.isAlways then (k, pool)
  else pool.intern (.join .all stamp [h, k])

def or (pool : Pool) (stamp : Stamp) (h k : Handle) : Handle × Pool :=
  if k.guard.isNever || h.isShared k then (h, pool)
  else if h.guard.isNever then (k, pool)
  else pool.intern (.join .any stamp [h, k])

def negate (pool : Pool) (stamp : Stamp) (h : Handle) : Handle × Pool :=
  pool.intern (h.negate stamp)

end Pool
end Lookahead.Guard
