import Lookahead.Guard.Pool
import Lookahead.Proofs.Guard.Canonical

/-! Asking a pool is as good as the operation itself.

A request to a pool either builds nothing and is answered with one of its operands, or it
interns what the operation makes (`answer_cases`). The first is right because a canonical guard
joined with itself or with the neutral constant is itself again. What interning keeps
(`intern_spec`) then holds after every run of requests (`sound_after`). -/
namespace Lookahead.Guard.Pool

inductive Request where
  | leaf (predicate : Predicate)
  | and (h k : Handle)
  | or (h k : Handle)
  | negate (h : Handle)
  | intern (h : Handle)

namespace Request

def operands : Request → List Handle
  | leaf _ => []
  | and h k | or h k => [h, k]
  | negate h | intern h => [h]

/-- What the operation makes of the operands' guards, without a pool. -/
def guard : Request → Guard
  | leaf p => .leaf p
  | and h k => h.guard.and k.guard
  | or h k => h.guard.or k.guard
  | negate h => h.guard.negate
  | intern h => h.guard

end Request

/-- A request with the stamp for what it builds. -/
structure Call where
  stamp : Stamp
  request : Request

def answer (pool : Pool) (c : Call) : Handle × Pool :=
  match c.request with
  | .leaf p => pool.leaf c.stamp p
  | .and h k => pool.and c.stamp h k
  | .or h k => pool.or c.stamp h k
  | .negate h => pool.negate c.stamp h
  | .intern h => pool.intern h

def after (pool : Pool) (calls : List Call) : Pool :=
  calls.foldl (fun pool c => (pool.answer c).2) pool

/-- Nothing is kept twice, and no constant is kept. -/
structure Sound (pool : Pool) : Prop where
  proper : ∀ h ∈ pool.handles, ¬ h.guard.IsConstant
  apart : pool.handles.Pairwise fun h k => h.guard.same k.guard = false

variable {pool : Pool} {h k : Handle} {stamp : Stamp} {c : Call}

theorem sound_empty : empty.Sound := ⟨nofun, .nil⟩

/-- What interning does: the answer is the same guard, and at most that guard is added. -/
theorem intern_spec (pool : Pool) (h : Handle) :
    (pool.intern h).1.guard.same h.guard = true ∧ pool.handles <+: (pool.intern h).2.handles ∧
      (pool.Sound → (pool.intern h).2.Sound) := by
  unfold intern
  split
  · exact ⟨same_self _, List.prefix_rfl, id⟩
  · next hconstant =>
    simp only [Bool.or_eq_true, isAlways_iff, isNever_iff] at hconstant
    split
    · next kept hkept =>
      have hsame := List.find?_some hkept
      exact ⟨(same_comm _ _).trans hsame, List.prefix_rfl, id⟩
    · next hnone =>
      have hfresh : ∀ k ∈ pool.handles, h.guard.same k.guard = false := by simpa using hnone
      refine ⟨same_self _, List.prefix_append _ _, fun hsound => ⟨fun k hk => ?_, ?_⟩⟩
      · rcases List.mem_append.mp hk with hk | hk
        · exact hsound.proper k hk
        · obtain rfl := List.mem_singleton.mp hk
          exact fun hg => hconstant hg.symm
      · refine List.pairwise_append.mpr ⟨hsound.apart, List.pairwise_singleton _ _, ?_⟩
        intro k hk _ hh
        obtain rfl := List.mem_singleton.mp hh
        exact (same_comm _ _).trans (hfresh k hk)

/-! ### The shortcuts -/

theorem of_pair_left (j : Junction) (hh : h.guard.Canonical)
    (hk : k.guard = j.neutral ∨ h.isShared k = true) : j.of [h.guard, k.guard] = h.guard := by
  refine hh.of_eq_self (.head _) fun g hg => ?_
  rcases List.mem_pair.mp hg with rfl | rfl
  · exact .inl rfl
  · exact hk.symm.imp_left fun hshared => (Handle.guard_eq_of_isShared hshared).symm

theorem of_pair_right (j : Junction) (hk : k.guard.Canonical) (hh : h.guard = j.neutral) :
    j.of [h.guard, k.guard] = k.guard := by
  refine hk.of_eq_self (.tail _ (.head _)) fun g hg => ?_
  rcases List.mem_pair.mp hg with rfl | rfl
  · exact .inr hh
  · exact .inl rfl

/-- Joining through a pool takes a shortcut only to an operand that is the whole answer. -/
theorem join_cases (j : Junction) (pool : Pool) (stamp : Stamp) (hh : h.guard.Canonical)
    (hk : k.guard.Canonical) {first second : Bool}
    (hfirst : first = true → k.guard = j.neutral ∨ h.isShared k = true)
    (hsecond : second = true → h.guard = j.neutral) :
    let answer := if first then (h, pool) else if second then (k, pool)
      else pool.intern (.join j stamp [h, k])
    ∃ l : Handle, l.guard = j.of [h.guard, k.guard] ∧
      (answer = (l, pool) ∨ answer = pool.intern l) := by
  cases first with
  | true => exact ⟨h, (of_pair_left j hh (hfirst rfl)).symm, .inl rfl⟩
  | false =>
    cases second with
    | true => exact ⟨k, (of_pair_right j hk (hsecond rfl)).symm, .inl rfl⟩
    | false => exact ⟨_, Handle.guard_join j stamp [h, k], .inr rfl⟩

/-- A request on canonical guards is answered with an operand that is what the operation makes,
or interns what the operation makes. -/
theorem answer_cases (pool : Pool) (hc : ∀ h ∈ c.request.operands, h.guard.Canonical) :
    ∃ h : Handle, h.guard = c.request.guard ∧
      (pool.answer c = (h, pool) ∨ pool.answer c = pool.intern h) := by
  obtain ⟨stamp, request⟩ := c
  cases request with
  | leaf p => exact ⟨.ofGuard stamp (.leaf p), rfl, .inr rfl⟩
  | and h k =>
    refine join_cases .all pool stamp (hc h (.head _)) (hc k (.tail _ (.head _)))
      (fun hfirst => ?_) isAlways_iff.mp
    rwa [Bool.or_eq_true, isAlways_iff] at hfirst
  | or h k =>
    refine join_cases .any pool stamp (hc h (.head _)) (hc k (.tail _ (.head _)))
      (fun hfirst => ?_) isNever_iff.mp
    rwa [Bool.or_eq_true, isNever_iff] at hfirst
  | negate h => exact ⟨_, Handle.guard_negate stamp h, .inr rfl⟩
  | intern h => exact ⟨_, rfl, .inr rfl⟩

/-- What one request does. -/
theorem answer_spec (pool : Pool) (hc : ∀ h ∈ c.request.operands, h.guard.Canonical) :
    (pool.answer c).1.guard.same c.request.guard = true ∧
      pool.handles <+: (pool.answer c).2.handles ∧ (pool.Sound → (pool.answer c).2.Sound) := by
  obtain ⟨h, hguard, hanswer | hanswer⟩ := pool.answer_cases hc
  · rw [hanswer, ← hguard]
    exact ⟨same_self _, List.prefix_rfl, id⟩
  · rw [hanswer, ← hguard]
    exact pool.intern_spec h

theorem Sound.after {calls : List Call} (hsound : pool.Sound)
    (hcalls : ∀ c ∈ calls, ∀ h ∈ c.request.operands, h.guard.Canonical) :
    (pool.after calls).Sound := by
  induction calls generalizing pool with
  | nil => exact hsound
  | cons c calls ih =>
    exact ih ((pool.answer_spec (hcalls c (.head _))).2.2 hsound) fun d hd =>
      hcalls d (.tail _ hd)

/-- **A pool is transparent.** Whatever was asked of it before, each request on canonical guards
is answered as the operation would without a pool, and the pool then holds no constant, nothing
twice and all that it held before. -/
theorem answer_transparent {before : List Call}
    (hcalls : ∀ d ∈ before ++ [c], ∀ h ∈ d.request.operands, h.guard.Canonical) :
    ((empty.after before).answer c).1.guard.same c.request.guard = true ∧
      (empty.after before).handles <+: (empty.after (before ++ [c])).handles ∧
      (empty.after (before ++ [c])).Sound := by
  have hc := hcalls c (List.mem_append_right _ (.head _))
  obtain ⟨hsame, hprefix, hsound⟩ := (empty.after before).answer_spec hc
  have hlast : empty.after (before ++ [c]) = ((empty.after before).answer c).2 := by
    rw [Pool.after, List.foldl_append]
    rfl
  rw [hlast]
  exact ⟨hsame, hprefix, hsound (sound_empty.after fun d hd => hcalls d
    (List.mem_append_left _ hd))⟩

namespace Shared

def first : Guard := .leaf ⟨0, "first", .validating, "s", none⟩

def second : Guard := .leaf ⟨1, "second", .validating, "s", none⟩

/-- One guard that was built three times. -/
def built (stamp : Stamp) : Handle := .ofGuard stamp (.all [first, second])

/-- The second request gets two equal guards that are not shared, the third one twice. -/
def calls : List Call :=
  [⟨[0], .and (.ofGuard [1] first) (.ofGuard [2] second)⟩, ⟨[3], .or (built [4]) (built [5])⟩,
    ⟨[6], .and (built [4]) (built [4])⟩]

theorem canonical_operands :
    ∀ c ∈ calls ++ [⟨[7], .negate (built [5])⟩], ∀ h ∈ c.request.operands, h.guard.Canonical := by
  have hfirst : first.Canonical := .leaf _
  have hsecond : second.Canonical := .leaf _
  have hboth : (Guard.all [first, second]).Canonical := by
    have hjoined : Junction.all.of [first, second] = .all [first, second] := by decide +kernel
    rw [← hjoined]
    exact Junction.canonical_of (by simp [hfirst, hsecond])
  simp [calls, Request.operands, built, hboth, hfirst, hsecond]

end Shared

open Shared in
/-- Three requests come to one guard that is kept, and its negation is one more. -/
theorem answer_transparent_shared :
    (built [4]).isShared (built [5]) = false ∧ (built [4]).isShared (built [4]) = true ∧
      (empty.after calls).size = 1 ∧
      ((empty.after calls).answer ⟨[7], .negate (built [5])⟩).1.guard.same
        (.not (.all [first, second])) = true ∧
      (empty.after (calls ++ [⟨[7], .negate (built [5])⟩])).Sound := by
  obtain ⟨hsame, _, hsound⟩ := answer_transparent canonical_operands
  exact ⟨by decide, by decide, by decide +kernel, hsame, hsound⟩

end Lookahead.Guard.Pool
