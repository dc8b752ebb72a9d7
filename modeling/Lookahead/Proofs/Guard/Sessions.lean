import Lookahead.Proofs.Guard.Pool

/-! Every guard that can be made is canonical.

A session makes guards, each by one of the public operations from guards that it made before,
with or without pools. Whatever its order of calls, all it makes is canonical
(`canonical_of_session`): the operations keep canonical guards canonical, and a pool answers
with a guard that an operation made or with one that it keeps. -/
namespace Lookahead.Guard

/-- The guards that one operation makes of some guards. -/
inductive Made (gs : List Guard) : Guard → Prop where
  | always : Made gs .always
  | never : Made gs .never
  | leaf (p : Predicate) : Made gs (.leaf p)
  | negate {g : Guard} (hg : g ∈ gs) : Made gs g.negate
  | and {g h : Guard} (hg : g ∈ gs) (hh : h ∈ gs) : Made gs (g.and h)
  | or {g h : Guard} (hg : g ∈ gs) (hh : h ∈ gs) : Made gs (g.or h)
  | allOf {ops : List Guard} (hops : ∀ g ∈ ops, g ∈ gs) : Made gs (allOf ops)
  | anyOf {ops : List Guard} (hops : ∀ g ∈ ops, g ∈ gs) : Made gs (anyOf ops)

/-- What was made so far, and the pools that can be asked. -/
structure Session where
  made : List Handle
  pools : List Pool

theorem Made.canonical {gs : List Guard} {g : Guard} (hgs : ∀ h ∈ gs, h.Canonical)
    (hg : Made gs g) : g.Canonical := by
  cases hg with
  | always => exact .always
  | never => exact .never
  | leaf p => exact .leaf p
  | negate hg => exact (hgs _ hg).negate
  | and hg hh => exact (hgs _ hg).and (hgs _ hh)
  | or hg hh => exact (hgs _ hg).or (hgs _ hh)
  | allOf hops => exact Junction.canonical_of fun h hh => hgs h (hops h hh)
  | anyOf hops => exact Junction.canonical_of fun h hh => hgs h (hops h hh)

/-! ### Requests -/

namespace Pool
variable {pool : Pool} {h : Handle} {c : Call}

/-- All that is kept is canonical. -/
def Canonical (pool : Pool) : Prop := ∀ h ∈ pool.handles, h.guard.Canonical

/-- A request makes what one operation makes of its operands, interning included. -/
theorem Request.canonical {request : Request}
    (hoperands : ∀ h ∈ request.operands, h.guard.Canonical) : request.guard.Canonical := by
  cases request with
  | leaf p => exact .leaf p
  | and h k | or h k => exact Junction.canonical_of (by simpa [operands] using hoperands)
  | negate h => exact (hoperands h (.head _)).negate
  | intern h => exact hoperands h (.head _)

theorem Canonical.intern (hpool : pool.Canonical) (hh : h.guard.Canonical) :
    (pool.intern h).1.guard.Canonical ∧ (pool.intern h).2.Canonical := by
  unfold Pool.intern
  split
  · exact ⟨hh, hpool⟩
  · split
    · next kept hkept => exact ⟨hpool kept (List.mem_of_find?_eq_some hkept), hpool⟩
    · exact ⟨hh, List.forall_mem_append.mpr ⟨hpool, List.forall_mem_singleton.mpr hh⟩⟩

theorem Canonical.answer (hpool : pool.Canonical)
    (hc : ∀ h ∈ c.request.operands, h.guard.Canonical) :
    (pool.answer c).1.guard.Canonical ∧ (pool.answer c).2.Canonical := by
  obtain ⟨h, hguard, hanswer⟩ := pool.answer_cases hc
  have hh : h.guard.Canonical := hguard ▸ Request.canonical hc
  rcases hanswer with hanswer | hanswer <;> rw [hanswer]
  · exact ⟨hh, hpool⟩
  · exact hpool.intern hh

end Pool

/-! ### Sessions -/

namespace Session

def start : Session := ⟨[], []⟩

inductive Step (s : Session) : Session → Prop where
  | operation {h : Handle} (hmade : Made (s.made.map Handle.guard) h.guard) :
    Step s ⟨h :: s.made, s.pools⟩
  | pool : Step s ⟨s.made, s.pools ++ [.empty]⟩
  | request {i : Nat} {pool : Pool} {c : Pool.Call} (hpool : s.pools[i]? = some pool)
    (hoperands : ∀ h ∈ c.request.operands, h ∈ s.made) :
    Step s ⟨(pool.answer c).1 :: s.made, s.pools.set i (pool.answer c).2⟩

/-- All that was made is canonical, and so is all that is kept. -/
structure Canonical (s : Session) : Prop where
  made : ∀ h ∈ s.made, h.guard.Canonical
  kept : ∀ pool ∈ s.pools, pool.Canonical

variable {s t : Session}

theorem canonical_start : start.Canonical := ⟨nofun, nofun⟩

theorem Canonical.step (hs : s.Canonical) (hstep : Step s t) : t.Canonical := by
  cases hstep with
  | operation hmade =>
    exact ⟨List.forall_mem_cons.mpr ⟨hmade.canonical (List.forall_mem_map.mpr hs.made), hs.made⟩,
      hs.kept⟩
  | pool =>
    exact ⟨hs.made, List.forall_mem_append.mpr ⟨hs.kept, List.forall_mem_singleton.mpr nofun⟩⟩
  | request hpool hoperands =>
    have hkept := hs.kept _ (List.mem_of_getElem? hpool)
    obtain ⟨hanswer, hafter⟩ := hkept.answer fun h hh => hs.made h (hoperands h hh)
    refine ⟨List.forall_mem_cons.mpr ⟨hanswer, hs.made⟩, fun pool hmem => ?_⟩
    rcases List.mem_or_eq_of_mem_set hmem with hmem | rfl
    · exact hs.kept pool hmem
    · exact hafter

theorem Canonical.run (hs : s.Canonical) (hrun : Relation.ReflTransGen Step s t) :
    t.Canonical := by
  induction hrun with
  | refl => exact hs
  | tail _ hstep ih => exact ih.step hstep

end Session

/-- Nothing but the whole of a canonical guard is a constant. -/
theorem Canonical.clean {g h : Guard} (hg : g.Canonical)
    (hinside : Relation.ReflTransGen Part h g) :
    (∀ k, h ≠ .not (.not k)) ∧
      ∀ (j : Junction) gs, h = j.make gs → gs.Pairwise fun k l => k.same l = false := by
  have hh : h.Canonical := by
    rcases Relation.reflTransGen_iff_eq_or_transGen.mp hinside with rfl | hinside
    · exact hg
    · exact (hg.inside hinside).1
  refine ⟨fun k heq => ?_, fun j gs heq => ?_⟩
  · subst heq
    cases hh with
    | not _ _ once => exact once k rfl
  · exact (canonical_make_iff.mp (heq ▸ hh)).2.increasing.not_same

/-- **Whatever is made is canonical.** In particular no guard that a session makes has a constant
inside, a double negation or an operand that is listed twice. -/
theorem canonical_of_session {s : Session} {made : Handle}
    (hrun : Relation.ReflTransGen Session.Step .start s) (hmade : made ∈ s.made) :
    made.guard.Canonical ∧ (∀ h, Relation.TransGen Part h made.guard → ¬ h.IsConstant) ∧
      ∀ h, Relation.ReflTransGen Part h made.guard → (∀ k, h ≠ .not (.not k)) ∧
        ∀ (j : Junction) gs, h = j.make gs → gs.Pairwise fun k l => k.same l = false := by
  have hcanonical := (Session.canonical_start.run hrun).made made hmade
  exact ⟨hcanonical, fun _ hinside => (hcanonical.inside hinside).2,
    fun _ hinside => hcanonical.clean hinside⟩

open Pool.Shared in
/-- Two predicates, their conjunction from a pool, and its negation. -/
theorem canonical_of_session_pooled :
    ∃ s made, Relation.ReflTransGen Session.Step .start s ∧ made ∈ s.made ∧
      made.guard = .not (.all [first, second]) ∧ made.guard.Canonical := by
  let firstLeaf : Handle := .ofGuard [0] first
  let secondLeaf : Handle := .ofGuard [1] second
  let asked : Pool.Call := ⟨[2], .and secondLeaf firstLeaf⟩
  let pooled : Handle := (Pool.empty.answer asked).1
  have hpredicates :
      Relation.ReflTransGen Session.Step .start ⟨[secondLeaf, firstLeaf], [.empty]⟩ :=
    .tail (.tail (.tail .refl (.operation (.leaf _))) (.operation (.leaf _))) .pool
  have hoperands : ∀ h ∈ asked.request.operands, h ∈ [secondLeaf, firstLeaf] := by
    simp [asked, Pool.Request.operands]
  have hasked := hpredicates.tail (.request (i := 0) rfl hoperands)
  have hnegated : Made [pooled.guard, second, first] (pooled.negate [3]).guard :=
    .negate (.head _)
  have hrun := hasked.tail (.operation hnegated)
  refine ⟨_, _, hrun, .head _, ?_, (canonical_of_session hrun (.head _)).1⟩
  decide +kernel

end Lookahead.Guard
