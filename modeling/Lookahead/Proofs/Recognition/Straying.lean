import Lookahead.Proofs.Analysis
import Lookahead.Proofs.Network.Along
import Lookahead.Proofs.Prediction.Shared
import Lookahead.Proofs.Recognition.Progress

/-! Where a recognizer strays from a way that reads more.

A recognizer is compared with a way through the same elements that reads symbols ahead of it.
As long as it chooses what the way chooses, both read the same. Where it first chooses
otherwise, the alternative of the way reads on, so that what is chosen reads on as well, or the
decision has been reported as one between three or more alternatives. But it may read on only
in another place where its rule is called. -/
namespace Lookahead
open Network

section
variable {g : Grammar} {t : Terrain} (hnetwork : t.network = ofGrammar g) (hwf : g.WellFormed)
  (hopen : ∀ id, t.gateValue id ≠ some false)
include hnetwork hwf hopen

/-- A way through a block chooses an alternative of its decision, and this alternative reads on
as the way does. -/
theorem Ways.readsOn {source target : NodeId} {kind : BlockKind} {d : DecisionId}
    {as : List (Alternative Element)} {rest : List Element} {fs : List Event}
    (h : Ways g source target (.block kind (some d) as)) (hrest : Along g t ⟨target, []⟩ rest)
    (hfs : g.Admits (.block kind (some d) as :: rest) fs) :
    ∃ alt gs, fs = .choice d alt :: gs ∧ ReadsOn t d alt (Event.symbols gs) := by
  rcases hfs.block_cases with ⟨i, a, gs, ha, rfl, gs', hgs, hsame, _⟩ | ⟨gs, hkind, rfl, hgs⟩
  · obtain ⟨entry, hentry, _, halong⟩ := h.enter hnetwork hwf [] ha
    obtain ⟨ps, q, hrun, hlive, hsymbols⟩ :=
      hgs.readsFrom hnetwork hwf hopen (halong rest hrest)
    exact ⟨i + 1, gs, rfl, ps, q, ⟨entry, Nat.succ_pos i, hnetwork ▸ hentry d rfl, hrun⟩, hlive,
      hsymbols.trans hsame⟩
  · obtain ⟨_, entry, hd, hentry, _, hleave⟩ := h.leave hnetwork hwf [] hkind
    obtain rfl := Option.some.inj hd
    obtain ⟨ps, q, hrun, hlive, hsymbols⟩ :=
      (hgs.readsFrom hnetwork hwf hopen hrest).of_run hleave
    exact ⟨_, gs, rfl, ps, q, ⟨entry, Nat.succ_pos _, hnetwork ▸ hentry, hrun⟩, hlive, hsymbols⟩

end

/-- The ways of a portion lead from one node to another one, and the elements stand for it. -/
inductive Portion.Lies (g : Grammar) (source target : NodeId) : Portion → List Element → Prop where
  | element {e} (h : Lays g source target e) : Lies g source target (.element e) [e]
  | sequence {es} (h : LaysAll g source target es) : Lies g source target (.sequence es) es
  | loop {kind d as n} (hkind : kind = .star ∨ kind = .plus) (hn : kind = .plus → 0 < n)
    (h : Ways g source target (.block kind d as)) :
    Lies g source target (.loop d as n) [.block kind d as]

/-- A report tells of an ambiguity between three or more alternatives of the decision. -/
def Report.Tangled (reports : List Report) (d : DecisionId) : Prop :=
  ∃ chosen alternatives, .ambiguity d chosen alternatives ∈ reports ∧ 3 ≤ alternatives.length

namespace Recognizer
variable {α σ : Type} [Symbolic α]

/-- In place of the alternative that comes after these events, another one leads on through the
whole word. The one that comes has a live run that reads the rest of the word, too, or the
decision is tangled. -/
def Strays (t : Terrain) (reports : List Report) (goes : List Event → Prop) (w : List Symbol)
    (before : List Event) (d : DecisionId) (alt : Ordinal) : Prop :=
  ∃ alt' ≠ alt, ∃ fs, goes (before ++ .choice d alt' :: fs) ∧
    w = Event.symbols before ++ Event.symbols fs ∧
    (ReadsOn t d alt (Event.symbols fs) ∨ Report.Tangled reports d)

theorem Strays.mono {t : Terrain} {reports : List Report} {goes goes' : List Event → Prop}
    {w : List Symbol} {before : List Event} {d : DecisionId} {alt : Ordinal} (prior : List Event)
    (hgoes : ∀ fs, goes fs → goes' (prior ++ fs)) (h : Strays t reports goes w before d alt) :
    Strays t reports goes' (Event.symbols prior ++ w) (prior ++ before) d alt := by
  obtain ⟨alt', hne, fs, hfs, rfl, hunclear⟩ := h
  refine ⟨alt', hne, fs, ?_, ?_, hunclear⟩
  · rw [List.append_assoc]
    exact hgoes _ hfs
  · rw [Event.symbols_append, List.append_assoc]

/-- How events compare with a way `fs` through the same elements. -/
inductive Fares (g : Grammar) (t : Terrain) (reports : List Report) (goes : List Event → Prop)
    (rest : List Element) (fs : List Event) : List Event → Prop where
  /-- They read what the way reads so far, and it goes on through `rest`. -/
  | keeps {es gs} (h : g.Admits rest gs)
    (hsame : Event.symbols fs = Event.symbols es ++ Event.symbols gs)
    (hlength : gs.length ≤ fs.length) : Fares g t reports goes rest fs es
  /-- They read at least what the way reads. -/
  | past {es} (h : Event.symbols fs <+: Event.symbols es) : Fares g t reports goes rest fs es
  | strays {before d alt after} (h : Strays t reports goes (Event.symbols fs) before d alt) :
    Fares g t reports goes rest fs (before ++ .choice d alt :: after)

section
variable {g : Grammar} {t : Terrain} {reports : List Report} {goes goes' : List Event → Prop}
  {rest rest' : List Element} {es es' fs : List Event}

theorem Fares.mono (h : Fares g t reports goes rest fs es) (hgoes : ∀ gs, goes gs → goes' gs) :
    Fares g t reports goes' rest fs es := by
  cases h with
  | keeps h hsame hlength => exact .keeps h hsame hlength
  | past h => exact .past h
  | strays h => exact .strays (h.mono [] hgoes)

/-- Another way that reads the same may stand for the one that is compared. -/
theorem Fares.of_symbols_eq {gs : List Event} (h : Fares g t reports goes rest gs es)
    (hsame : Event.symbols fs = Event.symbols gs) (hlength : gs.length ≤ fs.length) :
    Fares g t reports goes rest fs es := by
  cases h with
  | keeps h hsame' hlength' => exact .keeps h (hsame.trans hsame') (hlength'.trans hlength)
  | past h => exact .past (hsame ▸ h)
  | strays h => exact .strays (hsame ▸ h)

/-- What comes second is compared with what the way has left. -/
theorem Fares.append (h : Fares g t reports goes rest fs es)
    (hgoes : ∀ gs, goes' gs → goes (es ++ gs))
    (h' : ∀ gs, g.Admits rest gs → Event.symbols fs = Event.symbols es ++ Event.symbols gs →
      Fares g t reports goes' rest' gs es') :
    Fares g t reports goes rest' fs (es ++ es') := by
  cases h with
  | keeps hgs hsame hlength =>
    cases h' _ hgs hsame with
    | keeps hgs' hsame' hlength' =>
      refine .keeps hgs' ?_ (hlength'.trans hlength)
      rw [hsame, hsame', Event.symbols_append, List.append_assoc]
    | past hle =>
      refine .past ?_
      rw [hsame, Event.symbols_append]
      exact (List.prefix_append_right_inj _).mpr hle
    | strays hstrays =>
      rw [← List.append_assoc]
      exact .strays (hsame ▸ hstrays.mono _ hgoes)
  | past hle =>
    have hmore := List.prefix_append (Event.symbols es) (Event.symbols es')
    rw [← Event.symbols_append] at hmore
    exact .past (hle.trans hmore)
  | strays hstrays =>
    rw [List.append_assoc, List.cons_append]
    exact .strays hstrays

end

/-- The grammar is well-formed, there are no predicates, and where another alternative reads
symbols ahead, the one that is chosen reads them as well or the decision is tangled. -/
structure Foresighted (α : Type) [Symbolic α] (r : Recognizer σ) (g : Grammar) (t : Terrain)
    (reports : List Report) : Prop where
  wellFormed : g.WellFormed
  network : t.network = ofGrammar g
  predicates : t.predicates = []
  reads : ∀ {p q : Progress α σ} {d : DecisionId} {alt alt' : Ordinal} {v : List Symbol},
    r.Step p (.choice d alt) q → ReadsOn t d alt' v →
      v <+: p.input.ahead.map Symbolic.symbol → ReadsOn t d alt v ∨ Report.Tangled reports d

/-- The events `es` of a portion that ends at `target` are compared with every way through the
elements `here` and on from there. -/
def Tracks (α : Type) [Symbolic α] (r : Recognizer σ) (g : Grammar) (t : Terrain)
    (reports : List Report) (target : NodeId) (here : List Element) (es : List Event) : Prop :=
  ∀ (rest : List Element), Along g t ⟨target, []⟩ rest → ∀ (p q : Progress α σ) (fs : List Event),
    r.Does p es q → g.Admits (here ++ rest) fs →
      Event.symbols fs <+: p.input.ahead.map Symbolic.symbol →
        Fares g t reports (g.Admits (here ++ rest)) rest fs es

/-! ### Choices -/

section
variable {r : Recognizer σ} {g : Grammar} {t : Terrain} {reports : List Report}
  (h : r.Foresighted α g t reports) {p q : Progress α σ} {source target : NodeId}
  {kind : BlockKind} {d : DecisionId} {as : List (Alternative Element)} {rest : List Element}
  {fs : List Event}
include h

theorem Foresighted.gateValue_ne (id : PredicateId) : t.gateValue id ≠ some false := by
  simp [Terrain.gateValue, h.predicates]

/-- A choice is the one of the way or strays from it. -/
theorem Foresighted.eq_or_strays {goes : List Event → Prop} (hgoes : goes fs)
    (hways : Ways g source target (.block kind (some d) as))
    (hrest : Along g t ⟨target, []⟩ rest) (hfs : g.Admits (.block kind (some d) as :: rest) fs)
    (hahead : Event.symbols fs <+: p.input.ahead.map Symbolic.symbol) {alt : Ordinal}
    (hstep : r.Step p (.choice d alt) q) :
    (∃ gs, fs = .choice d alt :: gs) ∨ Strays t reports goes (Event.symbols fs) [] d alt := by
  obtain ⟨alt', gs, rfl, hreads⟩ := hways.readsOn h.network h.wellFormed h.gateValue_ne hrest hfs
  by_cases heq : alt' = alt
  · exact .inl ⟨gs, heq ▸ rfl⟩
  · exact .inr ⟨alt', heq, gs, hgoes, rfl, h.reads hstep hreads hahead⟩

/-- Where an alternative of a block is entered, the way goes on in it. -/
theorem Foresighted.fares_enter (hways : Ways g source target (.block kind (some d) as))
    (hrest : Along g t ⟨target, []⟩ rest) (hfs : g.Admits (.block kind (some d) as :: rest) fs)
    (hahead : Event.symbols fs <+: p.input.ahead.map Symbolic.symbol) {i : Nat}
    {a : Alternative Element} (ha : as[i]? = some a) (hstep : r.Step p (.choice d (i + 1)) q) :
    Fares g t reports (g.Admits (.block kind (some d) as :: rest))
      (a.elements ++ (kind.again (some d) as ++ rest)) fs [.choice d (i + 1)] := by
  rcases h.eq_or_strays hfs hways hrest hfs hahead hstep with ⟨gs, rfl⟩ | hstrays
  · rcases hfs.block_cases with ⟨j, b, gs', hb, heq, gs', hgs, hsame, hlength⟩ | ⟨_, _, heq, _⟩
    · simp only [List.cons.injEq, Event.choice.injEq, true_and, Nat.add_right_cancel_iff] at heq
      obtain ⟨rfl, rfl⟩ := heq
      obtain rfl := Option.some.inj (ha.symm.trans hb)
      exact .keeps hgs hsame.symm hlength
    · simp only [List.cons.injEq, Event.choice.injEq, true_and, Nat.add_right_cancel_iff] at heq
      exact absurd (List.getElem?_eq_some_iff.mp ha).1 (heq.1 ▸ Nat.lt_irrefl _)
  · exact .strays hstrays

/-- Where a block is left without an alternative, the way goes on behind it. -/
theorem Foresighted.fares_leave (hways : Ways g source target (.block kind (some d) as))
    (hrest : Along g t ⟨target, []⟩ rest) (hfs : g.Admits (.block kind (some d) as :: rest) fs)
    (hahead : Event.symbols fs <+: p.input.ahead.map Symbolic.symbol)
    (hstep : r.Step p (.choice d (as.length + 1)) q) :
    Fares g t reports (g.Admits (.block kind (some d) as :: rest)) rest fs
      [.choice d (as.length + 1)] := by
  rcases h.eq_or_strays hfs hways hrest hfs hahead hstep with ⟨gs, rfl⟩ | hstrays
  · rcases hfs.block_cases with ⟨j, b, _, hb, heq, _⟩ | ⟨_, _, heq, hgs⟩
    · simp only [List.cons.injEq, Event.choice.injEq, true_and, Nat.add_right_cancel_iff] at heq
      exact absurd (List.getElem?_eq_some_iff.mp hb).1 (heq.1 ▸ Nat.lt_irrefl _)
    · obtain rfl := (List.cons.inj heq).2
      exact .keeps hgs rfl (Nat.le_succ _)
  · exact .strays hstrays

/-- A round that reads nothing ends its loop. The way may have more such rounds. -/
theorem Foresighted.fares_last {sources : List NodeId} {loop : NodeId} (hloop : loop ∈ sources)
    (hbranches : LaysBranches g d sources loop as) (hexit : LaysExit g d loop target as.length)
    (hrest : Along g t ⟨target, []⟩ rest) {i : Nat} {a : Alternative Element}
    (ha : as[i]? = some a) {es : List Event} (hes : r.Tracks α g t reports loop a.elements es)
    (hnone : Event.symbols es = []) (hdoes : r.Does p (.choice d (i + 1) :: es) q)
    (hfs : g.Admits (.block .star (some d) as :: rest) fs)
    (hahead : Event.symbols fs <+: p.input.ahead.map Symbolic.symbol) :
    Fares g t reports (g.Admits (.block .plus (some d) as :: rest)) rest fs
      (.choice d (i + 1) :: es) := by
  obtain _ | ⟨hstep, hdoes⟩ := hdoes
  induction hlength : fs.length using Nat.strong_induction_on generalizing fs with
  | _ count ih =>
  subst hlength
  cases hfs with
  | leave _ hgs => exact .keeps hgs (by simp [hnone]) (by simp)
  | @last _ _ _ j b n bs _ gs _ hb hbs hbsnone hgs =>
    have hgoes : g.Admits (.block .plus (some d) as :: rest) _ :=
      .last (.inr rfl) hb hbs hbsnone hgs
    rcases h.eq_or_strays hgoes (.loop hloop hbranches hexit) hrest
      (.last (.inl rfl) hb hbs hbsnone hgs) hahead hstep with _ | hstrays
    · exact .keeps hgs (by simp [hnone, hbsnone]) (by simp; lia)
    · exact .strays hstrays
  | @enter _ _ _ j b _ gs hb hgs =>
    have hgoes : g.Admits (.block .plus (some d) as :: rest) _ := .enter hb hgs
    rcases h.eq_or_strays hgoes (.loop hloop hbranches hexit) hrest (.enter hb hgs) hahead
      hstep with ⟨_, heq⟩ | hstrays
    · obtain rfl : j = i := by
        simp only [Event.chosen, List.singleton_append, List.cons.injEq, Event.choice.injEq] at heq
        lia
      obtain rfl := Option.some.inj (ha.symm.trans hb)
      have hround := hes _ (.cons (.loop hloop hbranches hexit) hrest) _ _ _ hdoes hgs (by
        rw [hstep.input_choice]
        simpa using hahead)
      cases hround with
      | keeps hgs' hsame' hlength' =>
        rw [hnone, List.nil_append] at hsame'
        have hlater := ih _ (by simp [Event.chosen]; lia) hgs' (by simpa [hsame'] using hahead) rfl
        exact hlater.of_symbols_eq (by simpa using hsame') (by simp [Event.chosen]; lia)
      | past hle => exact .past (by simpa using hle)
      | strays hstrays =>
        rw [← List.cons_append]
        exact .strays (hstrays.mono [.choice d (j + 1)] fun _ hgs => .enter ha hgs)
    · exact .strays hstrays

/-! ### Derivations -/

omit h in
/-- Where a block has no decision, its only alternative is gone through. -/
theorem Tracks.alternative {a : Alternative Element} {es : List Event}
    (h : r.Tracks α g t reports target a.elements es) :
    r.Tracks α g t reports target [.block .single none [a]] es := by
  intro rest hrest p q fs hdoes hfs hahead
  cases hfs with
  | @enter _ _ _ i b _ gs hb hgs =>
    obtain ⟨hi, rfl⟩ := List.getElem?_eq_some_iff.mp hb
    obtain rfl := Nat.lt_one_iff.mp hi
    exact (h _ hrest _ _ _ hdoes hgs hahead).mono fun _ hgs => .enter (i := 0) rfl hgs
  | leave hkind => exact absurd hkind (by decide)
  | last hkind => exact absurd hkind (by decide)

omit h in
theorem Tracks.append {node : NodeId} {here here' : List Element} {es es' : List Event}
    (h : r.Tracks α g t reports node here es) (h' : r.Tracks α g t reports target here' es')
    (halong : ∀ rest, Along g t ⟨target, []⟩ rest → Along g t ⟨node, []⟩ (here' ++ rest))
    (hadmits : ∀ rest gs, g.Admits rest gs → g.Admits (here ++ rest) (es ++ gs)) :
    r.Tracks α g t reports target (here ++ here') (es ++ es') := by
  intro rest hrest p q fs hdoes hfs hahead
  rw [List.append_assoc] at hfs ⊢
  obtain ⟨p', hdoes, hdoes'⟩ := hdoes.exists_of_append
  refine (h _ (halong rest hrest) _ _ _ hdoes hfs hahead).append (fun gs hgs => hadmits _ gs hgs)
    fun gs hgs hsame => h' _ hrest _ _ _ hdoes' hgs ?_
  rw [hsame, hdoes.reads.ahead] at hahead
  exact (List.prefix_append_right_inj _).mp hahead

/-- An alternative of a block that is entered, and what follows it. -/
theorem Foresighted.tracks_enter (hways : Ways g source target (.block kind (some d) as)) {i : Nat}
    {a : Alternative Element} (ha : as[i]? = some a) {es : List Event}
    (hes : r.Tracks α g t reports target (a.elements ++ kind.again (some d) as) es) :
    r.Tracks α g t reports target [.block kind (some d) as]
      (Event.chosen (some d) (i + 1) ++ es) := by
  intro rest hrest p q fs hdoes hfs hahead
  cases hdoes with
  | cons hstep hdoes =>
    refine (h.fares_enter hways hrest hfs hahead ha hstep).append (fun gs hgs => .enter ha hgs)
      fun gs hgs hsame => ?_
    rw [← List.append_assoc] at hgs ⊢
    refine hes _ hrest _ _ _ hdoes hgs ?_
    rw [hstep.input_choice]
    rwa [hsame] at hahead

theorem Foresighted.tracks_leave (hways : Ways g source target (.block kind (some d) as)) :
    r.Tracks α g t reports target [.block kind (some d) as]
      (Event.chosen (some d) (as.length + 1)) := by
  intro rest hrest p q fs hdoes hfs hahead
  cases hdoes with
  | cons hstep hdoes => exact h.fares_leave hways hrest hfs hahead hstep

theorem Foresighted.tracks_portion {n : Nat}
    (hcalls : ∀ id es, g.DerivesIn n id es → r.Tracks α g t reports (stop id) [.call id] es)
    {portion : Portion} {es : List Event} (hes : Derives (g.DerivesIn n) portion es)
    {here : List Element} (hlies : Portion.Lies g source target portion here) :
    r.Tracks α g t reports target here es := by
  induction hes generalizing source target here with
  | symbols hx =>
    cases hlies
    intro rest hrest p q fs hdoes hfs hahead
    cases hfs with
    | before => exact .past (List.nil_prefix)
    | @symbol _ y _ gs hy hgs =>
      rw [hdoes.reads.ahead] at hahead
      obtain ⟨rfl, _⟩ := List.cons_prefix_cons.mp hahead
      exact .keeps hgs rfl (Nat.le_succ _)
  | @call id es hes =>
    obtain ⟨hlays⟩ := hlies
    intro rest hrest p q fs hdoes hfs hahead
    have honward := run_onward h.network h.wellFormed hlays.call
    exact hcalls id es hes _ (.step honward rfl hrest) _ _ _ hdoes hfs hahead
  | predicate id =>
    cases hlies
    intro rest hrest p q fs hdoes hfs hahead
    cases hfs with
    | predicate hgs => exact .keeps hgs rfl (Nat.le_succ _)
  | action id =>
    cases hlies
    intro rest hrest p q fs hdoes hfs hahead
    cases hfs with
    | action hgs => exact .keeps hgs rfl (Nat.le_succ _)
  | @single d as i a es ha _ ih =>
    obtain ⟨hlays⟩ := hlies
    cases d with
    | none =>
      obtain ⟨b, rfl⟩ := h.wellFormed.exists_alternative hlays.mem_parts
      obtain rfl := List.mem_singleton.mp (List.mem_of_getElem? ha)
      exact (ih (.sequence hlays.alternative)).alternative
    | some d =>
      obtain ⟨_, _, _, hlaysAll⟩ := (hlays.single h.wellFormed).1 i a ha
      refine h.tracks_enter (.lays hlays) ha ?_
      rw [BlockKind.again, List.append_nil]
      exact ih (.sequence hlaysAll)
  | @optional d as i a es ha _ ih =>
    obtain ⟨hlays⟩ := hlies
    obtain ⟨d, rfl⟩ := h.wellFormed.exists_decision hlays.mem_parts (by decide)
    obtain ⟨_, _, _, hlaysAll⟩ := (hlays.optional h.wellFormed).1 i a ha
    refine h.tracks_enter (.lays hlays) ha ?_
    rw [BlockKind.again, List.append_nil]
    exact ih (.sequence hlaysAll)
  | skip =>
    obtain ⟨hlays⟩ := hlies
    obtain ⟨d, rfl⟩ := h.wellFormed.exists_decision hlays.mem_parts (by decide)
    exact h.tracks_leave (.lays hlays)
  | star _ ih =>
    cases hlies with
    | element hlays => exact ih (.loop (.inl rfl) (fun h => absurd h (by decide)) (.lays hlays))
  | plus hn _ ih =>
    cases hlies with
    | element hlays => exact ih (.loop (.inr rfl) (fun _ => hn) (.lays hlays))
  | nil =>
    cases hlies
    intro rest hrest p q fs hdoes hfs hahead
    exact .keeps hfs rfl (Nat.le_refl _)
  | @cons e es _ _ he _ ih ih' =>
    obtain _ | ⟨hlaysAll⟩ := hlies
    obtain ⟨node, hlays, hlaysAll⟩ := hlaysAll.head
    have hhead : r.Tracks α g t reports node [e] _ := ih (.element hlays)
    exact hhead.append (ih' (.sequence hlaysAll))
      (fun rest hrest => .sequence h.network hlaysAll hrest)
      fun rest gs hgs => he.admitsIn (.element e) hgs
  | leave =>
    obtain _ | _ | ⟨hkind, hn, hways⟩ := hlies
    obtain ⟨_, _, _, _, rfl, _⟩ := hways.exists_loop h.network h.wellFormed [] hkind
    rcases hkind with rfl | rfl
    · exact h.tracks_leave hways
    · exact absurd (hn rfl) (Nat.lt_irrefl 0)
  | @round d as i a k es fs ha hes _ ih ih' =>
    obtain _ | _ | ⟨hkind, hn, hways⟩ := hlies
    obtain ⟨id, _, _, loop, rfl, _, hloop, _, _, hbranches, hexit⟩ :=
      hways.exists_loop h.network h.wellFormed [] hkind
    obtain ⟨_, _, _, hlaysAll⟩ := hbranches i a ha
    have hagain : Ways g loop target (.block .star (some id) as) := .loop hloop hbranches hexit
    have hrest := ih' (.loop (.inl rfl) (fun h => absurd h (by decide)) hagain)
    have hround := (ih (.sequence hlaysAll)).append hrest
      (fun rest hrest => .cons hagain hrest)
      fun rest gs hgs => hes.admitsIn (.sequence a.elements) hgs
    rw [List.append_assoc]
    refine h.tracks_enter hways ha ?_
    rcases hkind with rfl | rfl <;> exact hround
  | @last d as i a es ha _ hnone ih =>
    obtain _ | _ | ⟨hkind, hn, hways⟩ := hlies
    obtain ⟨id, _, _, loop, rfl, _, hloop, _, _, hbranches, hexit⟩ :=
      hways.exists_loop h.network h.wellFormed [] hkind
    obtain ⟨_, _, _, hlaysAll⟩ := hbranches i a ha
    intro rest hrest p q fs hdoes hfs hahead
    have hstar : g.Admits (.block .star (some id) as :: rest) fs := by
      rcases hkind with rfl | rfl
      · exact hfs
      · exact hfs.star_of_plus
    have hfares := h.fares_last hloop hbranches hexit hrest ha (ih (.sequence hlaysAll)) hnone hdoes
      hstar hahead
    rcases hkind with rfl | rfl
    · exact hfares.mono fun _ hgs => hgs.star_of_plus
    · exact hfares

/-- Where a rule is recognized, its events are compared with every way through a call of it. -/
theorem Foresighted.tracks_rule {n : Nat} {id : RuleId} {es : List Event}
    (hes : g.DerivesIn n id es) : r.Tracks α g t reports (stop id) [.call id] es := by
  induction n generalizing id es with
  | zero => exact hes.elim
  | succ n ih =>
    obtain ⟨rule, hrule, hes⟩ := hes
    intro rest hrest p q fs hdoes hfs hahead
    cases hfs with
    | call hr hfs =>
      obtain rfl := Option.some.inj (hrule.symm.trans hr)
      have htracks := h.tracks_portion (fun _ _ hes => ih hes) hes (.element (lays_rule hrule))
      exact (htracks _ hrest _ _ _ hdoes hfs hahead).mono fun _ hgs => .call hrule hgs

end

/-! ### Analysed grammars -/

section
variable {definition : GrammarDefinition} {a : Analyzer} (hgrammar : definition.build = .ok a.grammar)
  (hpredicates : a.grammar.predicates = []) {analysis : Analysis} {reports : List Report}
  (hanalysis : a.analyze = (.ok analysis, reports))
include hgrammar hpredicates hanalysis

/-- What is chosen reads the symbols ahead as another alternative does, unless an ambiguity
between three or more has been reported and the other alternative meets a third one. -/
theorem readsOn_of_step {host : Host σ} {p q : Progress α σ} {d : DecisionId} {alt alt' : Ordinal}
    (hstep : Step ⟨analysis, host⟩ p (.choice d alt) q) {v : List Symbol}
    (hreads : ReadsOn a.terrain d alt' v) (hv : v <+: p.input.ahead.map Symbolic.symbol) :
    ReadsOn a.terrain d alt v ∨
      Report.Tangled reports d ∧ ∃ other ≠ alt', Meet a.terrain d alt' other := by
  have hwf := definition.wellFormed_of_build hgrammar
  cases hstep with
  | choice hautomaton hrun =>
    obtain ⟨decision, hd⟩ := Analyzer.exists_decision hanalysis hautomaton
    obtain ⟨site, hsite, hautomaton', hreports⟩ := Analyzer.exists_automaton? hanalysis hd
    obtain rfl := Option.some.inj (hautomaton.symm.trans hautomaton')
    rw [← hwf.decision_id hd] at hreads ⊢
    refine (Construction.readsOn_of_predict (Analyzer.sound_terrain hgrammar) hsite hpredicates
      (congrArg (·.1.result) hrun) hreads hv).imp_right (And.imp_left ?_)
    rintro ⟨alternatives, hmem, hmany⟩
    exact ⟨alternatives.headD 0, alternatives, hreports alternatives hmem, hmany⟩

theorem foresighted_of_analyze (host : Host σ) :
    Foresighted α ⟨analysis, host⟩ a.grammar a.terrain reports where
  wellFormed := definition.wellFormed_of_build hgrammar
  network := rfl
  predicates := hpredicates
  reads hstep hreads hv :=
    (readsOn_of_step hgrammar hpredicates hanalysis hstep hreads hv).imp_right And.left

end

end Recognizer
end Lookahead
