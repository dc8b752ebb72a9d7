import Lookahead.Proofs.Closure.Limits

/-! Recursion that reads nothing fails the closure.

A call that leads back to itself before it returns leads back over whatever is on the stack:
what a run does above a part of the stack it does above any other part (`RunAbove.rebase`).
So the call can be open any number of times (`exists_run_count_le`). A closure that does not
fail has entered every call that it comes to, and each of them has been open less often than
the limit. -/
namespace Lookahead

/-- A run that takes nothing off that is on the stack at `base`. -/
inductive RunAbove (t : Terrain) (base : List NodeId) (p : Position) :
    List Passage → Position → Prop where
  | refl : RunAbove t base p [] p
  | tail {ps q qs r} (run : RunAbove t base p ps q) (move : Move t q qs r)
    (kept : base <:+ r.stack) : RunAbove t base p (ps ++ qs) r

variable {t : Terrain} {base : List NodeId} {p q : Position} {ps qs : List Passage}

theorem RunAbove.suffix (h : RunAbove t base p ps q) (hp : base <:+ p.stack) :
    base <:+ q.stack := by
  cases h with
  | refl => exact hp
  | tail _ _ kept => exact kept

theorem RunAbove.withLimit (h : RunAbove t base p ps q) (limit : Nat) :
    RunAbove (t.withLimit limit) base p ps q := by
  induction h with
  | refl => exact .refl
  | tail _ move kept ih => exact ih.tail (move.withLimit limit) kept

/-- A move above a part of the stack is one above any other part. Only a rule that stops with
nothing on the stack looks at what is not there. -/
theorem Move.rebase (hbase : base ≠ []) {node target : NodeId} {u v : List NodeId}
    (h : Move t ⟨node, u ++ base⟩ ps ⟨target, v ++ base⟩) (base' : List NodeId) :
    Move t ⟨node, u ++ base'⟩ ps ⟨target, v ++ base'⟩ := by
  generalize hu : u ++ base = stack at h
  generalize hv : v ++ base = stack' at h
  cases h with
  | silent he =>
    obtain rfl := List.append_cancel_right (hu.trans hv.symm)
    exact .silent he
  | action he =>
    obtain rfl := List.append_cancel_right (hu.trans hv.symm)
    exact .action he
  | symbol he hx =>
    obtain rfl := List.append_cancel_right (hu.trans hv.symm)
    exact .symbol he hx
  | predicate he hopen =>
    obtain rfl := List.append_cancel_right (hu.trans hv.symm)
    exact .predicate he hopen
  | call he =>
    rw [← hu, ← List.cons_append] at hv
    obtain rfl := List.append_cancel_right hv
    exact .call he
  | back hstop =>
    rw [← hv, ← List.cons_append] at hu
    obtain rfl := List.append_cancel_right hu
    exact .back hstop
  | onward => exact absurd (List.append_eq_nil_iff.mp hu).2 hbase

theorem RunAbove.rebase (hbase : base ≠ []) {node target : NodeId} {u v : List NodeId}
    (h : RunAbove t base ⟨node, u ++ base⟩ ps ⟨target, v ++ base⟩) (base' : List NodeId) :
    Run t ⟨node, u ++ base'⟩ ps ⟨target, v ++ base'⟩ := by
  generalize hq : (⟨target, v ++ base⟩ : Position) = q at h
  induction h generalizing target v with
  | refl =>
    obtain ⟨rfl, hstack⟩ := Position.mk.inj hq
    obtain rfl := List.append_cancel_right hstack
    exact .refl
  | @tail ps q qs r run move kept ih =>
    subst hq
    obtain ⟨m, hm⟩ := run.suffix (List.suffix_append u base)
    have hq' : q = ⟨q.node, m ++ base⟩ := by rw [hm]
    rw [hq'] at move
    exact (ih hq'.symm).tail (move.rebase hbase base')

/-- From a call that leads back to itself before it returns, runs that read nothing lead back
with the call open any number of times. -/
theorem exists_run_count_le {node : NodeId} {rule : RuleId} {follow : NodeId}
    {stack stack' : List NodeId} (hcall : .call rule follow ∈ t.network.edgesOf node)
    (hback : RunAbove t (follow :: stack) ⟨Network.start rule, follow :: stack⟩ ps
      ⟨node, stack'⟩) (hsymbols : Passage.symbols ps = []) (n : Nat) :
    ∃ ps' stack'', Run t ⟨node, stack⟩ ps' ⟨node, stack''⟩ ∧ Passage.symbols ps' = [] ∧
      n ≤ stack''.count follow := by
  obtain ⟨u, rfl⟩ := hback.suffix (List.suffix_refl _)
  -- One more round, whatever is on the stack.
  have hround (s : List NodeId) : Run t ⟨node, s⟩ ps ⟨node, u ++ follow :: s⟩ := by
    have hrun := hback.rebase (List.cons_ne_nil _ _) (u := []) (follow :: s)
    exact (Run.single (.call hcall)).trans hrun
  induction n with
  | zero => exact ⟨[], stack, .refl, rfl, Nat.zero_le _⟩
  | succ n ih =>
    obtain ⟨ps', s, hrun, hsymbols', hcount⟩ := ih
    refine ⟨ps' ++ ps, u ++ follow :: s, hrun.trans (hround s), ?_, ?_⟩
    · rw [Passage.symbols_append, hsymbols', hsymbols]
      rfl
    · rw [List.count_append, List.count_cons_self]
      omega

/-! ### What fails -/

namespace Way
variable {label : Type} {pass : PredicateId → label → Option label} {w : Way label}
  {callee : RuleId}

theorem exists_call_of_alongAll {es : List Edge} (h : w.alongAll t pass es = .error callee) :
    ∃ follow, .call callee follow ∈ es ∧ t.maxRecursionDepth ≤ w.stack.count follow := by
  induction es with
  | nil => cases h
  | cons e es ih =>
    rcases alongAll_cons_eq_error.mp h with he | ⟨_, _, hes⟩
    · cases e with
      | call rule follow =>
        rw [along] at he
        split at he
        · next hcount =>
          obtain rfl := Except.error.inj he
          exact ⟨follow, .head _, hcount⟩
        · cases he
      | _ => cases he
    · obtain ⟨follow, hmem, hcount⟩ := ih hes
      exact ⟨follow, .tail _ hmem, hcount⟩

/-- Only a call that has been open too often fails. -/
theorem exists_call_of_moves (h : w.moves t pass = .error callee) :
    ∃ follow, .call callee follow ∈ t.network.edgesOf w.node ∧
      t.maxRecursionDepth ≤ w.stack.count follow := by
  unfold moves at h
  split at h
  · exact nomatch h
  · exact nomatch h
  · exact exists_call_of_alongAll h

/-- A call fails that has been open too often. -/
theorem moves_ne_ok {count : Nat} (closed : t.network.Closed count) {rule : RuleId}
    {follow : NodeId} (hcall : .call rule follow ∈ t.network.edgesOf w.node)
    (hcount : t.maxRecursionDepth ≤ w.stack.count follow) (ways : List (Way label)) :
    w.moves t pass ≠ .ok ways := by
  intro hways
  have hstop : t.network.stopOf? w.node = none := by
    cases hstop : t.network.stopOf? w.node with
    | none => rfl
    | some rule' =>
      rw [closed.stop _ _ hstop] at hcall
      exact nomatch hcall
  simp only [moves, hstop] at hways
  obtain ⟨found, hfound⟩ := exists_along_of_alongAll hways hcall
  exact absurd (along_call hfound).1 (Nat.not_lt_of_le hcount)

end Way

namespace Closure

/-- The closure of the entries of a decision fails where a run that reads nothing comes to a
call that leads back to itself before it returns. -/
theorem ofEntries_eq_error (sound : t.Sound) {d : DecisionId} {alt : Ordinal} {node : NodeId}
    {rule : RuleId} {follow : NodeId} {stack stack' : List NodeId}
    (hrun : LookaheadRun t d alt ps ⟨node, stack⟩) (hps : Passage.symbols ps = [])
    (hcall : .call rule follow ∈ t.network.edgesOf node)
    (hback : RunAbove t (follow :: stack) ⟨Network.start rule, follow :: stack⟩ qs ⟨node, stack'⟩)
    (hqs : Passage.symbols qs = []) :
    ∃ callee < t.network.ruleCount, ofEntries t (t.network.entriesOf d) = .error callee := by
  have hexplored := (contained_entries sound d).explored_reach
  cases hvisited : Way.reach t (collectPredicate t) t.predicates.length
      ((t.network.entriesOf d).mapIdx fun i node => ⟨i + 1, node, [], []⟩) with
  | error callee =>
    rw [hvisited] at hexplored
    obtain ⟨w, _, hw⟩ := hexplored
    obtain ⟨follow, hmem, _⟩ := Way.exists_call_of_moves hw
    refine ⟨callee, sound.closed.call _ _ _ hmem, ?_⟩
    rw [ofEntries_eq sound, hvisited]
    rfl
  | ok visited =>
    rw [hvisited] at hexplored
    -- Without a failure, the closure would have entered the call more often than it may.
    obtain ⟨rs, s, hagain, hrs, hcount⟩ :=
      exists_run_count_le hcall hback hqs t.maxRecursionDepth
    obtain ⟨entry, hpos, hentry, hfirst⟩ := hrun
    have hlong : LookaheadRun t d alt (ps ++ rs) ⟨node, s⟩ :=
      ⟨entry, hpos, hentry, hfirst.trans hagain⟩
    have hsymbols : Passage.symbols (ps ++ rs) = [] := by
      rw [Passage.symbols_append, hps, hrs]
      rfl
    obtain ⟨l, _, hmem⟩ := exists_way_of_run sound hvisited hlong hsymbols
    obtain ⟨found, hfound⟩ := hexplored.2.2 _ hmem
    exact absurd hfound (Way.moves_ne_ok sound.closed hcall hcount found)

end Closure
end Lookahead
