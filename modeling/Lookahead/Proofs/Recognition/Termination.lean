import Lookahead.Automaton.Cycle
import Lookahead.Iteration.Lemmas
import Lookahead.Proofs.Recognition.Tiling

/-! Loops of recognition end.

There are three of them: the one that follows an automaton, the one that runs the alternatives of
a block, and the one that takes text apart. Here each is written down once more by what one round
of it does (`lookAhead`, `round`, `draw`), with no bound on how many there are. Each round that
goes on has something ahead that the next one has no longer: a prediction looks further, where at
the end of the input no transition leads on, and the other two go on only after having read
something. So no more rounds go on than there are symbols ahead, and the loops come to what the
bounded ones come to. -/
namespace Lookahead

/-! ### Predictions -/

/-- Where a prediction has come. -/
structure Lookout (σ : Type) where
  state : StateId
  /-- The place ahead that is looked at next. -/
  depth : Nat
  inquiry : Inquiry σ
  /-- The transitions that have led here. -/
  followed : List Transition
  /-- The places ahead that have been looked at. -/
  peeks : List Nat

def Lookout.first (host : σ) : Lookout σ := ⟨Automaton.start, 1, ⟨host, []⟩, [], []⟩

/-- The transition on which a prediction goes on, if there is one and it is open. -/
def Inquiry.openEdge {σ : Type} (test : Predicate → StateM σ Bool) (s : State) :
    Option Symbol → StateM (Inquiry σ) (Option Transition)
  | none => return none
  | some x =>
    match s.edge? x with
    | none => return none
    | some t => do if ← isOpen test t then return some t else return none

namespace Automaton
variable {σ α : Type} [Symbolic α] (a : Automaton) (test : Predicate → StateM σ Bool)

/-- One round of a prediction: a state without a terminal resolution looks at the next place
ahead. There is no verdict where a state is looked up that is not there. -/
def lookAhead (input : Stream α) (l : Lookout σ) : Step (Lookout σ) (Option Verdict × Lookout σ) :=
  match a.states[l.state]? with
  | none => .done (none, l)
  | some s =>
    match s.terminal with
    | some r =>
      let (verdict, inquiry) := (a.settle test r).run l.inquiry
      .done (some verdict, { l with inquiry := inquiry })
    | none =>
      let symbol := input.symbol? l.depth
      let l := { l with peeks := l.peeks ++ [l.depth] }
      let (edge, inquiry) := (Inquiry.openEdge test s symbol).run l.inquiry
      match edge with
      | some t => .more ⟨t.target, l.depth + 1, inquiry, l.followed ++ [t], l.peeks⟩
      | none =>
        let (verdict, inquiry) :=
          (a.settleHere test s symbol (input.index + l.depth - 1)).run inquiry
        .done (some verdict, { l with inquiry := inquiry })

/-- A prediction by what one round of it does. -/
theorem predictFrom_eq (id : StateId) (index : Nat) (ahead : List α) :
    let symbol := ahead.head?.map Symbolic.symbol
    a.predictFrom test id index ahead =
      match (a.state id).terminal with
      | some r => a.settle test r
      | none => Inquiry.openEdge test (a.state id) symbol >>= fun
        | some t => a.predictFrom test t.target (index + 1) ahead.tail
        | none => a.settleHere test (a.state id) symbol index := by
  cases ahead with
  | nil => rfl
  | cons item ahead =>
    simp only [predictFrom, List.head?_cons, Option.map_some, List.tail_cons, Inquiry.openEdge]
    cases (a.state id).terminal with
    | some r => rfl
    | none =>
      cases (a.state id).edge? (Symbolic.symbol item) with
      | none => rfl
      | some t =>
        simp only [bind_assoc]
        refine bind_congr fun isOpen => ?_
        cases isOpen <;> rfl

end Automaton

/-- A prediction goes on only where something is ahead, and on a transition of its state. -/
theorem Inquiry.exists_of_openEdge {σ : Type} {test : Predicate → StateM σ Bool} {s : State}
    {symbol : Option Symbol} {inquiry inquiry' : Inquiry σ} {t : Transition}
    (h : (openEdge test s symbol).run inquiry = (some t, inquiry')) :
    (∃ x, symbol = some x) ∧ t ∈ s.transitions := by
  cases symbol with
  | none => exact nomatch congrArg Prod.fst h
  | some x =>
    refine ⟨⟨x, rfl⟩, ?_⟩
    rw [openEdge] at h
    split at h
    · exact nomatch congrArg Prod.fst h
    · next t' ht =>
      rw [StateT.run_bind] at h
      rcases hopen : (isOpen test t').run inquiry with ⟨value, inquiry₁⟩
      rw [hopen] at h
      cases value with
      | false => exact nomatch congrArg Prod.fst h
      | true =>
        obtain rfl := Option.some.inj (congrArg Prod.fst h)
        exact mem_of_bisect ht

namespace Lookout
variable {σ α : Type} [Symbolic α] {a : Automaton} {test : Predicate → StateM σ Bool}
  {input : Stream α} {outcome : Verdict × Inquiry σ} {l l' : Lookout σ}

/-- So far each place that was looked at has led on along a transition, and what is left of the
prediction comes to `outcome`. -/
structure OnTrack (a : Automaton) (test : Predicate → StateM σ Bool) (input : Stream α)
    (outcome : Verdict × Inquiry σ) (l : Lookout σ) : Prop where
  depth : l.depth = l.followed.length + 1
  within : l.followed.length ≤ input.ahead.length
  peeks : ∀ place ∈ l.peeks, place ≤ l.followed.length
  present : a.states ≠ [] → l.state < a.states.length
  rest : (a.predictFrom test l.state (input.index + l.followed.length)
    (input.ahead.drop l.followed.length)).run l.inquiry = outcome

theorem onTrack_first (a : Automaton) (test : Predicate → StateM σ Bool) (input : Stream α)
    (host : σ) : OnTrack a test input
      ((a.predictFrom test Automaton.start input.index input.ahead).run ⟨host, []⟩)
      (.first host) where
  depth := rfl
  within := Nat.zero_le _
  peeks := nofun
  present := List.length_pos_iff.mpr
  rest := rfl

/-- What is left of a prediction in a state that is there. -/
theorem OnTrack.rest_eq (h : OnTrack a test input outcome l) {s : State}
    (hs : a.states[l.state]? = some s) :
    outcome = (match s.terminal with
      | some r => a.settle test r
      | none => Inquiry.openEdge test s (input.symbol? l.depth) >>= fun
        | some t => a.predictFrom test t.target (input.index + l.followed.length + 1)
            (input.ahead.drop (l.followed.length + 1))
        | none => a.settleHere test s (input.symbol? l.depth)
            (input.index + l.depth - 1)).run l.inquiry := by
  have hstate : a.state l.state = s := by
    rw [Automaton.state, hs, Option.getD_some]
  rw [← h.rest, a.predictFrom_eq, hstate, ← input.symbol?_succ, ← h.depth, List.tail_drop, h.depth]
  rfl

/-- What a round of a prediction does. -/
inductive Looks (a : Automaton) (test : Predicate → StateM σ Bool) (input : Stream α)
    (l : Lookout σ) : Step (Lookout σ) (Option Verdict × Lookout σ) → Prop where
  | lost (hs : a.states[l.state]? = none) : Looks a test input l (.done (none, l))
  | settles {s r verdict inquiry} (hs : a.states[l.state]? = some s)
    (hterminal : s.terminal = some r) (h : (a.settle test r).run l.inquiry = (verdict, inquiry)) :
    Looks a test input l (.done (some verdict, { l with inquiry := inquiry }))
  | stops {s inquiry verdict inquiry'} (hs : a.states[l.state]? = some s)
    (hterminal : s.terminal = none)
    (hedge : (Inquiry.openEdge test s (input.symbol? l.depth)).run l.inquiry = (none, inquiry))
    (h : (a.settleHere test s (input.symbol? l.depth) (input.index + l.depth - 1)).run inquiry =
      (verdict, inquiry')) :
    Looks a test input l
      (.done (some verdict, { l with inquiry := inquiry', peeks := l.peeks ++ [l.depth] }))
  | follows {s t inquiry} (hs : a.states[l.state]? = some s) (hterminal : s.terminal = none)
    (hedge : (Inquiry.openEdge test s (input.symbol? l.depth)).run l.inquiry =
      (some t, inquiry)) :
    Looks a test input l
      (.more ⟨t.target, l.depth + 1, inquiry, l.followed ++ [t], l.peeks ++ [l.depth]⟩)

theorem looks_lookAhead (a : Automaton) (test : Predicate → StateM σ Bool) (input : Stream α)
    (l : Lookout σ) : Looks a test input l (a.lookAhead test input l) := by
  cases hs : a.states[l.state]? with
  | none =>
    simp only [Automaton.lookAhead, hs]
    exact .lost hs
  | some s =>
    cases hterminal : s.terminal with
    | some r =>
      simp only [Automaton.lookAhead, hs, hterminal]
      exact .settles hs hterminal rfl
    | none =>
      rcases hedge : (Inquiry.openEdge test s (input.symbol? l.depth)).run l.inquiry with
        ⟨_ | t, inquiry⟩
      · simp only [Automaton.lookAhead, hs, hterminal, hedge]
        exact .stops hs hterminal hedge rfl
      · simp only [Automaton.lookAhead, hs, hterminal, hedge]
        exact .follows hs hterminal hedge

/-- A round that goes on has had something ahead. -/
theorem OnTrack.more (hrange : ∀ s ∈ a.states, ∀ t ∈ s.transitions, t.target < a.states.length)
    (h : OnTrack a test input outcome l) (hmore : a.lookAhead test input l = .more l') :
    OnTrack a test input outcome l' ∧
      input.ahead.length - l'.followed.length < input.ahead.length - l.followed.length := by
  have hlooks := looks_lookAhead a test input l
  rw [hmore] at hlooks
  cases hlooks with
  | @follows s t inquiry hs hterminal hedge =>
    have hdepth := h.depth
    have hrest := h.rest_eq hs
    simp only [hterminal, StateT.run_bind, hedge] at hrest
    obtain ⟨⟨x, hx⟩, ht⟩ := Inquiry.exists_of_openEdge hedge
    have hlt : l.followed.length < input.ahead.length := by
      rw [hdepth, Stream.symbol?_succ, Option.map_eq_some_iff] at hx
      obtain ⟨item, hitem, _⟩ := hx
      rw [List.head?_drop] at hitem
      exact (List.getElem?_eq_some_iff.mp hitem).1
    have hlength : (l.followed ++ [t]).length = l.followed.length + 1 := by simp
    refine ⟨⟨?_, ?_, ?_, ?_, ?_⟩, ?_⟩
    · simp [hdepth]
    · rw [hlength]
      exact hlt
    · intro place hplace
      rw [hlength]
      rcases List.mem_append.mp hplace with hplace | hplace
      · exact Nat.le_succ_of_le (h.peeks place hplace)
      · rw [List.mem_singleton.mp hplace, hdepth]
    · exact fun _ => hrange s (List.mem_of_getElem? hs) t ht
    · rw [hlength]
      exact hrest.symm
    · rw [hlength]
      omega

theorem OnTrack.done (h : OnTrack a test input outcome l) {result : Option Verdict × Lookout σ}
    (hdone : a.lookAhead test input l = .done result) :
    result.2.followed.length ≤ input.ahead.length ∧
      (∀ place ∈ result.2.peeks, place ≤ input.ahead.length + 1) ∧
      (a.states ≠ [] → result.1 = some outcome.1 ∧ result.2.inquiry = outcome.2) := by
  have hpeeks (place : Nat) (hplace : place ∈ l.peeks) : place ≤ input.ahead.length + 1 :=
    Nat.le_succ_of_le ((h.peeks place hplace).trans h.within)
  have hlooks := looks_lookAhead a test input l
  rw [hdone] at hlooks
  cases hlooks with
  | lost hs =>
    refine ⟨h.within, hpeeks, fun hne => ?_⟩
    exact absurd (h.present hne) (Nat.not_lt.mpr (List.getElem?_eq_none_iff.mp hs))
  | settles hs hterminal hsettle =>
    have hrest := h.rest_eq hs
    simp only [hterminal, hsettle] at hrest
    exact ⟨h.within, hpeeks, fun _ => hrest ▸ ⟨rfl, rfl⟩⟩
  | stops hs hterminal hedge hsettle =>
    have hrest := h.rest_eq hs
    simp only [hterminal, StateT.run_bind, hedge] at hrest
    refine ⟨h.within, fun place hplace => ?_, fun _ => ?_⟩
    · rcases List.mem_append.mp hplace with hplace | hplace
      · exact hpeeks place hplace
      · rw [List.mem_singleton.mp hplace, h.depth]
        exact Nat.succ_le_succ h.within
    · rw [hrest.trans hsettle]
      exact ⟨rfl, rfl⟩

end Lookout

/-- A prediction goes on no more often than there are symbols ahead, and comes to its verdict. -/
theorem Automaton.steps_lookAhead {σ α : Type} [Symbolic α] {a : Automaton}
    (hrange : ∀ s ∈ a.states, ∀ t ∈ s.transitions, t.target < a.states.length)
    (test : Predicate → StateM σ Bool) (input : Stream α) (host : σ) :
    ∃ verdict? l, steps (a.lookAhead test input) (input.ahead.length + 1) (.first host) =
        .done (verdict?, l) ∧
      l.followed.length ≤ input.ahead.length ∧
      (∀ place ∈ l.peeks, place ≤ input.ahead.length + 1) ∧
      (a.states ≠ [] → verdict? = some ((a.predict test input).run host).1 ∧
        l.inquiry.host = ((a.predict test input).run host).2) := by
  obtain ⟨⟨verdict?, l⟩, hsteps, hfollowed, hpeeks, hverdict⟩ := exists_steps_eq_done
    (fun l : Lookout σ => input.ahead.length - l.followed.length) (fun _ _ h => h.more hrange)
    (fun _ _ h => h.done) (Lookout.onTrack_first a test input host)
    (Nat.lt_succ_of_le (Nat.sub_le _ _))
  exact ⟨verdict?, l, hsteps, hfollowed, hpeeks, fun hne =>
    (hverdict hne).imp_right fun hinquiry => congrArg Inquiry.host hinquiry⟩

namespace Recognizer
variable {α σ : Type} {p q : Progress α σ}

/-! ### Blocks -/

/-- Where the loop of a block has come. -/
structure Looping (α σ : Type) where
  progress : Progress α σ
  /-- How often an alternative has been run. -/
  runs : Nat

/-- One round of the loop of a block: an alternative is chosen, and run unless it leaves the
block. -/
def round (choose : Recognize α σ Ordinal) (body : Ordinal → Option (Recognize α σ Unit))
    (l : Looping α σ) : Lookahead.Step (Looping α σ) (Except Stop Unit × Looping α σ) :=
  match choose.run.run l.progress with
  | (.error e, p) => .done (.error e, ⟨p, l.runs⟩)
  | (.ok alt, p) =>
    match body alt with
    | none => .done (.ok (), ⟨p, l.runs⟩)
    | some run =>
      match run.run.run p with
      | (.error e, q) => .done (.error e, ⟨q, l.runs + 1⟩)
      | (.ok (), q) =>
        if q.input.index = p.input.index then .done (.ok (), ⟨q, l.runs + 1⟩)
        else .more ⟨q, l.runs + 1⟩

/-- What a block comes to whose loop has ended without an error. -/
def Looping.leave (l : Looping α σ) (kind : BlockKind) (ruleName : String)
    (d : Option DecisionId) : Except Stop Unit :=
  if kind = .plus ∧ l.runs = 0 then
    .error (.error (.earlyExit ruleName (d.getD 0) l.progress.input.index))
  else .ok ()

/-- The action never moves the input back. -/
def Advances [Symbolic α] {β : Type} (m : Recognize α σ β) : Prop :=
  ∀ p b q, Ends m p (.ok b) q → ∃ w, p.input.Reads w q.input

theorem Follows.advances [Symbolic α] {r : Recognizer σ} {β : Type} {m : Recognize α σ β}
    {derived : β → List Event → Prop} {begun : List Event → Cut → Prop}
    (h : ∀ p, r.Follows p m derived begun) : Advances m := by
  intro p b q hends
  obtain ⟨es, _, hdoes⟩ := (h p).ok hends
  exact ⟨_, hdoes.reads⟩

section
variable {choose : Recognize α σ Ordinal} {body : Ordinal → Option (Recognize α σ Unit)}
  {l l' : Looping α σ}

/-- What a round of the loop of a block does. -/
inductive Turns (choose : Recognize α σ Ordinal) (body : Ordinal → Option (Recognize α σ Unit))
    (l : Looping α σ) : Lookahead.Step (Looping α σ) (Except Stop Unit × Looping α σ) → Prop where
  | undecided {e p} (hchoose : Ends choose l.progress (.error e) p) :
    Turns choose body l (.done (.error e, ⟨p, l.runs⟩))
  | leaves {alt p} (hchoose : Ends choose l.progress (.ok alt) p) (hbody : body alt = none) :
    Turns choose body l (.done (.ok (), ⟨p, l.runs⟩))
  | fails {alt p run e q} (hchoose : Ends choose l.progress (.ok alt) p)
    (hbody : body alt = some run) (hrun : Ends run p (.error e) q) :
    Turns choose body l (.done (.error e, ⟨q, l.runs + 1⟩))
  | rests {alt p run q} (hchoose : Ends choose l.progress (.ok alt) p)
    (hbody : body alt = some run) (hrun : Ends run p (.ok ()) q)
    (hsame : q.input.index = p.input.index) :
    Turns choose body l (.done (.ok (), ⟨q, l.runs + 1⟩))
  | moves {alt p run q} (hchoose : Ends choose l.progress (.ok alt) p)
    (hbody : body alt = some run) (hrun : Ends run p (.ok ()) q)
    (hmoved : q.input.index ≠ p.input.index) :
    Turns choose body l (.more ⟨q, l.runs + 1⟩)

theorem turns_round (choose : Recognize α σ Ordinal)
    (body : Ordinal → Option (Recognize α σ Unit)) (l : Looping α σ) :
    Turns choose body l (round choose body l) := by
  rcases hchoose : choose.run.run l.progress with ⟨e | alt, p⟩
  · simp only [round, hchoose]
    exact .undecided hchoose
  · cases hbody : body alt with
    | none =>
      simp only [round, hchoose, hbody]
      exact .leaves hchoose hbody
    | some run =>
      rcases hrun : run.run.run p with ⟨e | ⟨⟩, q⟩
      · simp only [round, hchoose, hbody, hrun]
        exact .fails hchoose hbody hrun
      · by_cases hsame : q.input.index = p.input.index
        · simp only [round, hchoose, hbody, hrun, if_pos hsame]
          exact .rests hchoose hbody hrun hsame
        · simp only [round, hchoose, hbody, hrun, if_neg hsame]
          exact .moves hchoose hbody hrun hsame

/-- The bounded loop ends where a round ends. -/
theorem ends_loop_of_done {result : Except Stop Unit} (h : round choose body l = .done (result, l'))
    (fuel : Nat) : ∃ n ≤ 1, l'.runs = l.runs + n ∧
      Ends (loop choose body (fuel + 1)) l.progress (result.map fun _ => n) l'.progress := by
  have hturns := turns_round choose body l
  rw [h] at hturns
  rw [loop]
  cases hturns with
  | @undecided e _ hchoose =>
    exact ⟨0, Nat.zero_le _, rfl, ends_bind.mpr (.inl ⟨e, hchoose, rfl⟩)⟩
  | @leaves alt p hchoose hbody =>
    refine ⟨0, Nat.zero_le _, rfl, ends_bind.mpr (.inr ⟨alt, p, hchoose, ?_⟩)⟩
    rw [hbody]
    exact ends_pure.mpr ⟨rfl, rfl⟩
  | @fails alt p _ e _ hchoose hbody hrun =>
    refine ⟨1, Nat.le_refl _, rfl, ends_bind.mpr (.inr ⟨alt, p, hchoose, ?_⟩)⟩
    rw [hbody]
    exact ends_index_bind.mpr (ends_bind.mpr (.inl ⟨e, hrun, rfl⟩))
  | @rests alt p _ q hchoose hbody hrun hsame =>
    refine ⟨1, Nat.le_refl _, rfl, ends_bind.mpr (.inr ⟨alt, p, hchoose, ?_⟩)⟩
    rw [hbody]
    refine ends_index_bind.mpr (ends_bind.mpr (.inr ⟨(), q, hrun, ?_⟩))
    rw [ends_index_bind, if_pos hsame]
    exact ends_pure.mpr ⟨rfl, rfl⟩

/-- A round that goes on has run one alternative more. -/
theorem runs_of_round_eq_more (h : round choose body l = .more l') : l'.runs = l.runs + 1 := by
  have hturns := turns_round choose body l
  rw [h] at hturns
  cases hturns
  rfl

/-- The bounded loop goes on from where a round goes on. -/
theorem ends_loop_of_more (h : round choose body l = .more l') {fuel : Nat}
    {result : Except Stop Nat} (hends : Ends (loop choose body fuel) l'.progress result q) :
    Ends (loop choose body (fuel + 1)) l.progress (result.map (· + 1)) q := by
  have hturns := turns_round choose body l
  rw [h] at hturns
  cases hturns with
  | @moves alt p _ _ hchoose hbody hrun hmoved =>
    rw [loop]
    refine ends_bind.mpr (.inr ⟨alt, p, hchoose, ?_⟩)
    rw [hbody]
    refine ends_index_bind.mpr (ends_bind.mpr (.inr ⟨(), _, hrun, ?_⟩))
    rw [ends_index_bind, if_neg hmoved]
    cases result with
    | error e => exact ends_bind.mpr (.inl ⟨e, hends, rfl⟩)
    | ok n => exact ends_bind.mpr (.inr ⟨n, q, hends, ends_pure.mpr ⟨rfl, rfl⟩⟩)

/-- The bounded loop comes to what rounds come to that end within the bound. -/
theorem ends_loop_of_steps {fuel : Nat} {result : Except Stop Unit}
    (h : steps (round choose body) fuel l = .done (result, l')) : ∃ n, l'.runs = l.runs + n ∧
      Ends (loop choose body fuel) l.progress (result.map fun _ => n) l'.progress := by
  refine steps_induction (motive := fun fuel l r => ∃ n, r.2.runs = l.runs + n ∧
    Ends (loop choose body fuel) l.progress (r.1.map fun _ => n) r.2.progress) ?_ ?_ h
  · intro fuel l r hdone
    obtain ⟨n, _, hn⟩ := ends_loop_of_done hdone fuel
    exact ⟨n, hn⟩
  · rintro fuel l l₁ ⟨result, l'⟩ hmore ⟨n, hruns, hends⟩
    have hruns₁ := runs_of_round_eq_more hmore
    refine ⟨n + 1, by omega, ?_⟩
    have hloop := ends_loop_of_more hmore hends
    cases result <;> exact hloop

/-- A round that goes on has read something. -/
theorem length_ahead_of_round [Symbolic α] (hchoose : Advances choose)
    (hbody : ∀ alt run, body alt = some run → Advances run)
    (hmore : round choose body l = .more l') :
    l'.progress.input.ahead.length < l.progress.input.ahead.length := by
  have hturns := turns_round choose body l
  rw [hmore] at hturns
  cases hturns with
  | moves hchosen hchosenBody hrun hmoved =>
    obtain ⟨v, hv⟩ := hchoose _ _ _ hchosen
    obtain ⟨w, hw⟩ := hbody _ _ hchosenBody _ _ _ hrun
    have hpos : 0 < w.length :=
      List.length_pos_iff.mpr fun hnil => hmoved (hw.index_eq_iff.mpr hnil)
    have hlength := hv.length_ahead
    have hlength' := hw.length_ahead
    dsimp only
    omega

/-- **The loop of a block ends.** It runs no more alternatives than there are symbols ahead, and
one that reads nothing. -/
theorem steps_round [Symbolic α] (hchoose : Advances choose)
    (hbody : ∀ alt run, body alt = some run → Advances run) (p : Progress α σ) :
    ∃ result l, steps (round choose body) (p.input.ahead.length + 1) ⟨p, 0⟩ = .done (result, l) ∧
      l.runs ≤ p.input.ahead.length + 1 ∧
      Ends (loop choose body (p.input.ahead.length + 1)) p (result.map fun _ => l.runs)
        l.progress := by
  have hmore (l l' : Looping α σ) (hmore : round choose body l = .more l') :=
    And.intro (runs_of_round_eq_more hmore) (length_ahead_of_round hchoose hbody hmore)
  have hdone (l : Looping α σ) (r : Except Stop Unit × Looping α σ)
      (hdone : round choose body l = .done r) : r.2.runs ≤ l.runs + 1 := by
    obtain ⟨n, hn, hruns, _⟩ := ends_loop_of_done hdone 0
    omega
  obtain ⟨⟨result, l⟩, hsteps, hruns⟩ := exists_steps_counted _ _ _ hmore hdone ⟨p, 0⟩
  rw [Nat.zero_add] at hruns
  obtain ⟨n, hn, hends⟩ := ends_loop_of_steps hsteps
  obtain rfl : l.runs = n := hn.trans (Nat.zero_add n)
  exact ⟨result, l, hsteps, hruns, hends⟩

end

variable [Symbolic α] {r : Recognizer σ} {kind : BlockKind} {d : Option DecisionId}
  {as : List (Alternative Element)} {ruleName : String}

/-- A block that loops comes to what its loop comes to, unless it needs a round that is missing. -/
theorem ends_block_of_loop {call : RuleId → Recognize α σ Unit} {result : Except Stop Unit}
    {l : Looping α σ} (hkind : kind = .star ∨ kind = .plus)
    (h : Ends (loop (r.choose d) (fun alt => r.alternative call ruleName as (alt - 1))
      (p.input.ahead.length + 1)) p (result.map fun _ => l.runs) l.progress) :
    Ends (r.element call ruleName (.block kind d as)) p
      (result.bind fun _ => l.leave kind ruleName d) l.progress := by
  rcases hkind with rfl | rfl
  · rw [element, ends_get_bind]
    cases result with
    | error e => exact ends_bind.mpr (.inl ⟨e, h, rfl⟩)
    | ok => exact ends_bind.mpr (.inr ⟨_, _, h, ends_pure.mpr ⟨rfl, rfl⟩⟩)
  · rw [element, ends_get_bind]
    cases result with
    | error e => exact ends_bind.mpr (.inl ⟨e, h, rfl⟩)
    | ok =>
      refine ends_bind.mpr (.inr ⟨_, _, h, ?_⟩)
      by_cases hnone : l.runs = 0
      · rw [if_pos hnone, ends_index_bind]
        refine ends_throw.mpr ⟨?_, rfl⟩
        simp [Except.bind, Looping.leave, hnone]
      · rw [if_neg hnone]
        refine ends_pure.mpr ⟨?_, rfl⟩
        simp [Except.bind, Looping.leave, hnone]

/-- The alternatives of a block of a reliable recognizer only move on. -/
theorem Reliable.advances_alternative (h : r.Reliable α)
    (hmem : .block kind d as ∈ r.analysis.grammar.parts) (depth : Nat) (ruleName : String)
    (n : Nat) {run : Recognize α σ Unit}
    (hrun : r.alternative (r.rule depth) ruleName as n = some run) : Advances run := by
  rw [alternative_eq, Option.map_eq_some_iff] at hrun
  obtain ⟨a, ha, rfl⟩ := hrun
  have hparts : ∀ e ∈ Element.partsOfEach as, e ∈ r.analysis.grammar.parts := fun e he =>
    Grammar.parts_subset hmem (.tail _ he)
  exact Follows.advances <|
    follows_alternatives h (fun _ hid => follows_rule h depth hid) as hparts n a ha

/-! ### Texts -/

/-- Where taking a text apart has come. -/
structure Drawing (σ : Type) where
  progress : Progress Char σ
  tokens : List Token
  /-- How often the next token was asked for. -/
  calls : Nat

/-- One round of taking a text apart. -/
def draw (r : Recognizer σ) (s : Drawing σ) :
    Lookahead.Step (Drawing σ) (Except Stop (List Token) × Drawing σ) :=
  match r.nextToken.run.run s.progress with
  | (.error e, q) => .done (.error e, ⟨q, s.tokens, s.calls + 1⟩)
  | (.ok none, q) => .done (.ok s.tokens, ⟨q, s.tokens, s.calls + 1⟩)
  | (.ok (some token), q) => .more ⟨q, s.tokens ++ [token], s.calls + 1⟩

section
variable {p q : Progress Char σ} {s s' : Drawing σ}

theorem ends_tokens_of_done {result : Except Stop (List Token)}
    (h : r.draw s = .done (result, s')) (fuel : Nat) : s'.calls = s.calls + 1 ∧
      ∃ rest, result = rest.map (s.tokens ++ ·) ∧
        Ends (r.tokens (fuel + 1)) s.progress rest s'.progress := by
  rw [draw] at h
  rw [tokens]
  split at h
  · next e q hnext =>
    obtain ⟨rfl, rfl⟩ := Prod.mk.inj (Step.done.inj h)
    exact ⟨rfl, .error e, rfl, ends_bind.mpr (.inl ⟨e, hnext, rfl⟩)⟩
  · next q hnext =>
    obtain ⟨rfl, rfl⟩ := Prod.mk.inj (Step.done.inj h)
    exact ⟨rfl, .ok [], congrArg Except.ok (List.append_nil _).symm,
      ends_bind.mpr (.inr ⟨none, q, hnext, ends_pure.mpr ⟨rfl, rfl⟩⟩)⟩
  · exact nomatch h

theorem exists_of_draw_eq_more (h : r.draw s = .more s') : ∃ token,
    Ends r.nextToken s.progress (.ok (some token)) s'.progress ∧
      s'.tokens = s.tokens ++ [token] ∧ s'.calls = s.calls + 1 := by
  rw [draw] at h
  split at h
  · exact nomatch h
  · exact nomatch h
  · next token q hnext =>
    obtain rfl := Step.more.inj h
    exact ⟨token, hnext, rfl, rfl⟩

/-- Bounded calls come to what rounds come to that end within the bound. -/
theorem ends_tokens_of_steps {fuel : Nat} {result : Except Stop (List Token)}
    (h : steps r.draw fuel s = .done (result, s')) : ∃ rest, result = rest.map (s.tokens ++ ·) ∧
      Ends (r.tokens fuel) s.progress rest s'.progress := by
  refine steps_induction (motive := fun fuel s r' => ∃ rest, r'.1 = rest.map (s.tokens ++ ·) ∧
    Ends (r.tokens fuel) s.progress rest r'.2.progress) ?_ ?_ h
  · intro fuel s r' hdone
    exact (ends_tokens_of_done hdone fuel).2
  · rintro fuel s s₁ ⟨result, s'⟩ hmore ⟨rest, rfl, hends⟩
    obtain ⟨token, hnext, htokens, _⟩ := exists_of_draw_eq_more hmore
    rw [tokens, htokens]
    refine ⟨rest.map (token :: ·), ?_, ends_bind.mpr (.inr ⟨some token, _, hnext, ?_⟩)⟩
    · cases rest with
      | error e => rfl
      | ok later => exact congrArg Except.ok (List.append_assoc ..)
    · cases rest with
      | error e => exact ends_bind.mpr (.inl ⟨e, hends, rfl⟩)
      | ok later => exact ends_bind.mpr (.inr ⟨later, _, hends, ends_pure.mpr ⟨rfl, rfl⟩⟩)

/-- **Taking a text apart ends.** Each call but the last one reads something. -/
theorem steps_draw (h : r.Reliable Char) (p : Progress Char σ) :
    ∃ result s, steps r.draw (p.input.ahead.length + 1) ⟨p, [], 0⟩ = .done (result, s) ∧
      s.calls ≤ p.input.ahead.length + 1 ∧ Ends r.tokenize p result s.progress := by
  have hmore (s s' : Drawing σ) (hmore : r.draw s = .more s') : s'.calls = s.calls + 1 ∧
      s'.progress.input.ahead.length < s.progress.input.ahead.length := by
    obtain ⟨token, hnext, _, hcalls⟩ := exists_of_draw_eq_more hmore
    obtain ⟨w, hne, hreads, _⟩ := reads_of_nextToken h hnext
    have hpos : 0 < w.length := List.length_pos_iff.mpr hne
    have hlength := hreads.length_ahead
    exact ⟨hcalls, by omega⟩
  have hdone (s : Drawing σ) (result : Except Stop (List Token) × Drawing σ)
      (hdone : r.draw s = .done result) : result.2.calls ≤ s.calls + 1 :=
    Nat.le_of_eq (ends_tokens_of_done hdone 0).1
  obtain ⟨⟨result, s⟩, hsteps, hcalls⟩ := exists_steps_counted _ _ _ hmore hdone ⟨p, [], 0⟩
  rw [Nat.zero_add] at hcalls
  obtain ⟨rest, rfl, hends⟩ := ends_tokens_of_steps hsteps
  refine ⟨_, s, hsteps, hcalls, ?_⟩
  cases rest <;> exact hends

end

/-- **Loops of recognition end.** A prediction follows no more transitions than there are symbols
ahead, whatever cycles the automaton has, and looks no further than one place past them. A block
that loops runs its alternatives no more often than there are symbols ahead, and once more, even
where they may read nothing. Taking a text apart asks for the next token no more often than that.
All this holds in any host, and with no bound on the rounds the loops come to what they come to
with one. -/
theorem loops_end {definition : GrammarDefinition} {a : Analyzer}
    (hgrammar : definition.build = .ok a.grammar) {analysis : Analysis} {reports : List Report}
    (hanalysis : a.analyze = (.ok analysis, reports)) (host : Host σ) {automaton : Automaton}
    (hrange : ∀ s ∈ automaton.states, ∀ t ∈ s.transitions,
      t.target < automaton.states.length) :
    let r : Recognizer σ := ⟨analysis, host⟩
    (∀ (test : Predicate → StateM σ Bool) (input : Stream α) (s : σ), ∃ verdict? l,
      steps (automaton.lookAhead test input) (input.ahead.length + 1) (.first s) =
          .done (verdict?, l) ∧
        l.followed.length ≤ input.ahead.length ∧
        (∀ place ∈ l.peeks, place ≤ input.ahead.length + 1) ∧
        (automaton.states ≠ [] → verdict? = some ((automaton.predict test input).run s).1 ∧
          l.inquiry.host = ((automaton.predict test input).run s).2)) ∧
    (∀ (kind : BlockKind) (d : Option DecisionId) (as : List (Alternative Element)),
      kind = .star ∨ kind = .plus → .block kind d as ∈ a.grammar.parts →
        ∀ (ruleName : String) (depth : Nat) (p : Progress α σ), ∃ result l,
          steps (round (r.choose d) fun alt => r.alternative (r.rule depth) ruleName as (alt - 1))
              (p.input.ahead.length + 1) ⟨p, 0⟩ = .done (result, l) ∧
            l.runs ≤ p.input.ahead.length + 1 ∧
            Ends (r.element (r.rule depth) ruleName (.block kind d as)) p
              (result.bind fun _ => l.leave kind ruleName d) l.progress) ∧
    ∀ p : Progress Char σ, ∃ result s,
      steps r.draw (p.input.ahead.length + 1) ⟨p, [], 0⟩ = .done (result, s) ∧
        s.calls ≤ p.input.ahead.length + 1 ∧ Ends r.tokenize p result s.progress := by
  intro r
  obtain ⟨_, hsame, _⟩ := Analyzer.analyze_eq_ok hanalysis
  have hreliable (β : Type) [Symbolic β] : Reliable β r :=
    reliable_of_analyze hgrammar hanalysis host
  refine ⟨Automaton.steps_lookAhead hrange, ?_, steps_draw (hreliable Char)⟩
  intro kind d as hkind hmem ruleName depth p
  have hmem : .block kind d as ∈ r.analysis.grammar.parts := hsame ▸ hmem
  have hchoose : Advances (r.choose d : Recognize α σ Ordinal) :=
    Follows.advances ((hreliable α).chooses hmem ruleName)
  have hbody (alt : Ordinal) (run : Recognize α σ Unit)
      (hrun : r.alternative (r.rule depth) ruleName as (alt - 1) = some run) : Advances run :=
    (hreliable α).advances_alternative hmem depth ruleName _ hrun
  obtain ⟨result, l, hsteps, hruns, hloop⟩ := steps_round hchoose hbody p
  exact ⟨result, l, hsteps, hruns, ends_block_of_loop hkind hloop⟩

/-- Two states that lead to each other, in one direction through a gate. -/
def circle : Automaton where
  decision := 0
  rule := 0
  ruleName := "s"
  kind := .star
  altCount := 2
  states :=
    [⟨[⟨4, 4, 1, some (.leaf ⟨0, "p", .gated, "s", none⟩)⟩], some (.unique 2), none⟩,
      ⟨[⟨4, 4, 0, none⟩], some (.unique 1), none⟩]

/-- Any number of `A`s, each of which may be left out. -/
def idling : GrammarDefinition where
  name := "Idling"
  kind := .combined
  rules := [⟨"s", .repeated .star (.repeated .optional (.ref "A")), false⟩,
    ⟨"A", .literal "a", false⟩]
  tokens := []

def idlingAnalyzer : Analyzer := ⟨idling.grammar, .standard, none⟩

def idlingRecognizer : Recognizer Unit := ⟨idlingAnalyzer.analysis, agreeing⟩

/-- What is repeated in `s`. -/
def idlingBody : List (Alternative Element) :=
  [⟨1, [.block .optional (some 1) [⟨1, [.symbols (.single 4)]⟩]]⟩]

/-- Before two `A`s. -/
def beforeTwoAs : Progress Token Unit := ⟨.ofList [.ofType 4, .ofType 4], (), []⟩

/-- On two `A`s the prediction goes all the way around and looks at the end. The block runs its
body for each of them, and once more without reading anything. The text has a character that no
token begins with. -/
theorem loops_end_idling :
    circle.isCyclic = true ∧
    (∃ l, steps (circle.lookAhead agreeing.test beforeTwoAs.input) 3 (.first ()) =
        .done (some ⟨.ok 2, none⟩, l) ∧ l.followed.length ≤ 2 ∧ ∀ place ∈ l.peeks, place ≤ 3) ∧
    idling.build = .ok idlingAnalyzer.grammar ∧
    idlingAnalyzer.analyze = (.ok idlingAnalyzer.analysis, idlingAnalyzer.analyze.2) ∧
    .block .star (some 0) idlingBody ∈ idlingAnalyzer.grammar.parts ∧
    (∃ result l, steps (round (idlingRecognizer.choose (some 0)) fun alt =>
        idlingRecognizer.alternative (idlingRecognizer.rule 1) "s" idlingBody (alt - 1)) 3
          ⟨beforeTwoAs, 0⟩ = .done (result, l) ∧ l.runs ≤ 3 ∧
      Ends (idlingRecognizer.element (idlingRecognizer.rule 1) "s"
        (.block .star (some 0) idlingBody)) beforeTwoAs
          (result.bind fun _ => l.leave .star "s" (some 0)) l.progress) ∧
    ∃ result s, steps idlingRecognizer.draw 4 ⟨beforeText ['a', 'a', 'b'], [], 0⟩ =
        .done (result, s) ∧ s.calls ≤ 4 ∧
      Ends idlingRecognizer.tokenize (beforeText ['a', 'a', 'b']) result s.progress := by
  have hrange (s : State) (hs : s ∈ circle.states) :
      ∀ t ∈ s.transitions, t.target < circle.states.length := by
    revert s
    decide
  have hbuild : idling.build = .ok idlingAnalyzer.grammar :=
    GrammarDefinition.build_eq_ok (by decide +kernel)
  have hanalyze : idlingAnalyzer.analyze =
      (.ok idlingAnalyzer.analysis, idlingAnalyzer.analyze.2) :=
    Analyzer.analyze_eq_analysis (by decide +kernel)
  have hmem : .block .star (some 0) idlingBody ∈ idlingAnalyzer.grammar.parts :=
    List.mem_of_getElem? (i := 1) rfl
  obtain ⟨hpredict, hblock, htokenize⟩ :=
    loops_end (α := Token) hbuild hanalyze agreeing hrange
  obtain ⟨verdict?, l, hpredicts⟩ := hpredict agreeing.test beforeTwoAs.input ()
  have hblock := hblock .star (some 0) idlingBody (.inl rfl) hmem "s" 1 beforeTwoAs
  have htokenize := htokenize (beforeText ['a', 'a', 'b'])
  have htwo : beforeTwoAs.input.ahead.length = 2 := rfl
  have hthree : (beforeText ['a', 'a', 'b']).input.ahead.length = 3 := rfl
  rw [htwo] at hpredicts hblock
  rw [hthree] at htokenize
  obtain ⟨hsteps, hfollowed, hpeeks, hverdict⟩ := hpredicts
  obtain ⟨rfl, _⟩ := hverdict nofun
  exact ⟨by decide +kernel, ⟨l, hsteps, hfollowed, hpeeks⟩, hbuild, hanalyze, hmem, hblock,
    htokenize⟩

end Recognizer
end Lookahead
