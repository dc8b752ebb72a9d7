import Lookahead.Proofs.Construction.Build

/-! The transitions of a state.

They are laid for ascending ranges, and those that touch and agree are joined. This keeps
them disjoint, and on each symbol they lead where the transition on its range leads. -/
namespace Lookahead

/-- The symbol is one of those that the transition is on. -/
def Transition.On (t : Transition) (x : Symbol) : Prop :=
  t.lo.toNat ≤ x.toNat ∧ x.toNat ≤ t.hi.toNat

/-- `t` is on higher symbols than `u`, and if they touch they do not agree. -/
def Transition.Above (t u : Transition) : Prop :=
  u.hi.toNat < t.lo.toNat ∧
    (u.hi.toNat + 1 = t.lo.toNat → u.target = t.target → u.gate ≠ t.gate)

namespace Construction
variable {t u : Transition} {ts joined : List Transition}

/-- Transitions that are listed downwards. -/
structure Tidy (ts : List Transition) : Prop where
  bounds : ∀ t ∈ ts, t.lo.toNat ≤ t.hi.toNat
  above : ts.Pairwise Transition.Above

/-- Some transition on `x` leads to `target` through `gate`. -/
def LeadsTo (ts : List Transition) (x : Symbol) (target : StateId) (gate : Option Guard) : Prop :=
  ∃ t ∈ ts, t.On x ∧ t.target = target ∧ t.gate = gate

theorem join_cases (t : Transition) (ts : List Transition) :
    (join t ts = t :: ts ∧ ∀ last ∈ ts.head?, last.hi.toNat + 1 = t.lo.toNat →
      last.target = t.target → last.gate ≠ t.gate) ∨
    ∃ last rest, ts = last :: rest ∧ last.target = t.target ∧ last.gate = t.gate ∧
      last.hi.toNat + 1 = t.lo.toNat ∧ join t ts = { last with hi := t.hi } :: rest := by
  cases ts with
  | nil => exact .inl ⟨rfl, nofun⟩
  | cons last rest =>
    simp only [join]
    split
    · next h =>
      simp only [Bool.and_eq_true, beq_iff_eq] at h
      exact .inr ⟨last, rest, rfl, h.1.1, h.1.2, h.2, rfl⟩
    · next h =>
      simp only [Bool.and_eq_true, beq_iff_eq] at h
      refine .inl ⟨rfl, fun last' hlast htouch htarget hgate => ?_⟩
      obtain rfl := Option.some.inj hlast
      exact h ⟨⟨htarget, hgate⟩, htouch⟩

/-- Joining a transition on higher symbols keeps the others tidy, changes nothing about
where symbols lead and reaches as high as the transition. -/
theorem tidy_join (hts : Tidy ts) (ht : t.lo.toNat ≤ t.hi.toNat)
    (hhigher : ∀ u ∈ ts, u.hi.toNat < t.lo.toNat) :
    Tidy (join t ts) ∧ (∀ u ∈ join t ts, u.hi.toNat ≤ t.hi.toNat) ∧
      ∀ x target gate, LeadsTo (join t ts) x target gate ↔ LeadsTo (t :: ts) x target gate := by
  rcases join_cases t ts with ⟨hjoin, hhead⟩ | ⟨last, rest, rfl, htarget, hgate, htouch, hjoin⟩
  · rw [hjoin]
    refine ⟨⟨List.forall_mem_cons.mpr ⟨ht, hts.bounds⟩, ?_⟩, fun u hu => ?_, fun _ _ _ => Iff.rfl⟩
    · refine List.pairwise_cons.mpr ⟨fun u hu => ⟨hhigher u hu, fun htouch => ?_⟩, hts.above⟩
      cases ts with
      | nil => exact nomatch hu
      | cons last rest =>
        rcases List.mem_cons.mp hu with rfl | hu
        · exact hhead u rfl htouch
        · -- Below the last one, nothing touches.
          have hlast := hhigher last (.head _)
          have hbounds := hts.bounds last (.head _)
          have := ((List.pairwise_cons.mp hts.above).1 u hu).1
          omega
    · rcases List.mem_cons.mp hu with rfl | hu
      · exact Nat.le_refl _
      · have := hhigher u hu
        omega
  · rw [hjoin]
    have hlast := hts.bounds last (.head _)
    obtain ⟨habove, hrest⟩ := List.pairwise_cons.mp hts.above
    refine ⟨⟨List.forall_mem_cons.mpr ⟨?_, fun u hu => hts.bounds u (.tail _ hu)⟩,
      List.pairwise_cons.mpr ⟨habove, hrest⟩⟩, fun u hu => ?_, fun x target gate => ?_⟩
    · show last.lo.toNat ≤ t.hi.toNat
      omega
    · rcases List.mem_cons.mp hu with rfl | hu
      · exact Nat.le_refl _
      · have := hhigher u (.tail _ hu)
        omega
    · simp only [LeadsTo, List.exists_mem_cons_iff, Transition.On]
      grind

/-- Transitions on ascending symbols are joined into tidy ones that lead as they do. -/
theorem tidy_joinAll (hts : ts.Pairwise fun t u => t.hi.toNat < u.lo.toNat)
    (hbounds : ∀ t ∈ ts, t.lo.toNat ≤ t.hi.toNat) (hjoined : Tidy joined)
    (hhigher : ∀ t ∈ ts, ∀ u ∈ joined, u.hi.toNat < t.lo.toNat) :
    Tidy (joinAll ts joined) ∧ ∀ x target gate,
      LeadsTo (joinAll ts joined) x target gate ↔ LeadsTo (ts ++ joined) x target gate := by
  induction ts generalizing joined with
  | nil => exact ⟨hjoined, fun _ _ _ => Iff.rfl⟩
  | cons t ts ih =>
    obtain ⟨hlater, hts⟩ := List.pairwise_cons.mp hts
    have ht := hbounds t (.head _)
    obtain ⟨htidy, hhi, hleads⟩ := tidy_join hjoined ht (hhigher t (.head _))
    have hall := ih hts (fun u hu => hbounds u (.tail _ hu)) htidy fun u hu v hv =>
      Nat.lt_of_le_of_lt (hhi v hv) (hlater u hu)
    refine ⟨hall.1, fun x target gate => ?_⟩
    show LeadsTo (joinAll ts (join t joined)) x target gate ↔ _
    rw [hall.2]
    have happend (l l' : List Transition) :
        LeadsTo (l ++ l') x target gate ↔ LeadsTo l x target gate ∨ LeadsTo l' x target gate := by
      simp only [LeadsTo, List.mem_append, or_and_right, exists_or]
    rw [happend, hleads, ← List.singleton_append, happend,
      show t :: ts ++ joined = [t] ++ (ts ++ joined) from rfl, happend, happend]
    exact or_left_comm

/-- The transition of a state on a symbol, where its transitions are tidy ones in reverse. -/
theorem edge?_eq_some_iff (hts : Tidy ts) {state : State} (hstate : state.transitions = ts.reverse)
    {x : Symbol} : state.edge? x = some t ↔ t ∈ ts ∧ t.On x := by
  have hascending : Ascending (·.side x) ts.reverse := by
    rw [Ascending, List.pairwise_reverse]
    refine hts.above.imp_of_mem fun {t u} ht hu habove => ?_
    have hbounds := hts.bounds t ht
    have habove' := habove.1
    simp only [Transition.side, UInt32.lt_iff_toNat_lt]
    grind
  rw [State.edge?, hstate, bisect_eq_some_iff hascending, List.mem_reverse, and_congr_right_iff]
  intro _
  simp only [Transition.side, Transition.On, UInt32.lt_iff_toNat_lt]
  grind

end Construction
end Lookahead
