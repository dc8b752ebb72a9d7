import Lookahead.Proofs.Closure.Hoisting

/-! The closure is exact.

`Represents` relates configurations to the lookahead runs that read a word: they are the
live positions to which the runs come, and each condition says which of the runs are open.
The closure of the entries of a decision represents the empty word, and where
configurations represent a word, the closure of what they read represents the word with
one more symbol. -/
namespace Lookahead

/-- The predicates that a condition is about. -/
def Aspect.counts (t : Terrain) : Aspect → PredicateId → Bool
  | .context, _ => true
  | .gate, id => t.isGated id

/-- Configurations are exactly the live ends of the runs that read a word, and a condition
holds exactly where one of the runs to its configuration is open. -/
structure Represents (t : Terrain) (d : DecisionId) (w : List Symbol)
    (configs : List Configuration) : Prop where
  nodup : (configs.map Configuration.place).Nodup
  place : ∀ alt p, (alt, p) ∈ configs.map Configuration.place ↔
    p.Live t ∧ ∃ ps, LookaheadRun t d alt ps p ∧ Passage.symbols ps = w
  guard : ∀ c ∈ configs, ∀ a v, (c.conditions.guard a).under v = true ↔
    ∃ ps, LookaheadRun t d c.alt ps c.position ∧ Passage.symbols ps = w ∧
      Passage.Open t (a.counts t) v ps
  accept : ∀ c ∈ configs, c.accept = true ↔ c.position.Accepting t

namespace Represents
variable {t : Terrain} {d : DecisionId} {w : List Symbol} {configs : List Configuration}

theorem exists_run (h : Represents t d w configs) {c : Configuration} (hc : c ∈ configs) :
    c.position.Live t ∧ ∃ ps, LookaheadRun t d c.alt ps c.position ∧ Passage.symbols ps = w :=
  (h.place c.alt c.position).mp (List.mem_map_of_mem hc)

theorem inside {count : Nat} (h : Represents t d w configs) (closed : t.network.Closed count) :
    ∀ c ∈ configs, c.position.Inside t.network := by
  intro c hc
  obtain ⟨_, ps, hrun, _⟩ := h.exists_run hc
  exact hrun.inside closed

/-- A live run ends at a configuration. -/
theorem exists_configuration (h : Represents t d w configs) {alt : Ordinal} {ps : List Passage}
    {q : Position} (hlive : q.Live t) (hrun : LookaheadRun t d alt ps q)
    (hsymbols : Passage.symbols ps = w) : ∃ c ∈ configs, c.alt = alt ∧ c.position = q := by
  obtain ⟨c, hc, hplace⟩ := List.mem_map.mp ((h.place alt q).mpr ⟨hlive, ps, hrun, hsymbols⟩)
  exact ⟨c, hc, Prod.mk.inj hplace⟩

end Represents

namespace Way
variable {label : Type} {t : Terrain} {read : label → Conditions} {ways : List (Way label)}

theorem accepts_iff {w : Way label} : w.accepts t = true ↔ w.position.Accepting t := by
  simp only [accepts, Position.Accepting, position]
  cases t.network.stopOf? w.node with
  | none => simp
  | some rule => simp [and_comm]

theorem live_iff {w : Way label} :
    (t.network.matchesInput w.node || w.accepts t) = true ↔ w.position.Live t := by
  rw [Bool.or_eq_true, accepts_iff]
  rfl

/-- What the configurations of ways are. -/
theorem mem_place_configurations {alt : Ordinal} {p : Position} :
    (alt, p) ∈ (configurations t read ways).map Configuration.place ↔
      p.Live t ∧ ∃ w ∈ ways, w.alt = alt ∧ w.position = p := by
  have hc := Configuration.collects_collect <|
    (ways.filter fun w => t.network.matchesInput w.node || w.accepts t).map fun w =>
      ⟨w.alt, w.node, w.stack, read w.label, w.accepts t⟩
  constructor
  · intro h
    obtain ⟨c, hmem, hplace⟩ := List.mem_map.mp h
    obtain ⟨s, hs, hsc, _⟩ := hc.sound c hmem
    obtain ⟨w, hw, rfl⟩ := List.mem_map.mp hs
    obtain ⟨hw, hlive⟩ := List.mem_filter.mp hw
    obtain ⟨halt, hp⟩ := Prod.mk.inj (hsc.trans hplace)
    exact ⟨hp ▸ live_iff.mp hlive, w, hw, halt, hp⟩
  · rintro ⟨hlive, w, hw, rfl, rfl⟩
    exact hc.complete _ (List.mem_map_of_mem (List.mem_filter.mpr ⟨hw, live_iff.mpr hlive⟩))

theorem under_guard_configurations {c : Configuration} (h : c ∈ configurations t read ways)
    (a : Aspect) (v : PredicateId → Bool) :
    (c.conditions.guard a).under v = true ↔ ∃ w ∈ ways, w.alt = c.alt ∧
      w.position = c.position ∧ ((read w.label).guard a).under v = true := by
  have hlive : c.position.Live t :=
    (mem_place_configurations.mp (List.mem_map_of_mem h)).1
  rw [(Configuration.collects_collect _).guard c h]
  constructor
  · rintro ⟨s, hs, hsc, hv⟩
    obtain ⟨w, hw, rfl⟩ := List.mem_map.mp hs
    obtain ⟨halt, hp⟩ := Prod.mk.inj hsc
    exact ⟨w, (List.mem_filter.mp hw).1, halt, hp, hv⟩
  · rintro ⟨w, hw, halt, hp, hv⟩
    refine ⟨_, List.mem_map_of_mem (List.mem_filter.mpr ⟨hw, live_iff.mpr (hp ▸ hlive)⟩), ?_, hv⟩
    exact Prod.ext halt hp

theorem accept_configurations {c : Configuration} (h : c ∈ configurations t read ways) :
    c.accept = true ↔ c.position.Accepting t := by
  obtain ⟨s, hs, hsc, haccept⟩ := (Configuration.collects_collect _).sound c h
  obtain ⟨w, _, rfl⟩ := List.mem_map.mp hs
  rw [← haccept, ← (Prod.mk.inj hsc).2]
  exact accepts_iff

/-- Along a run no predicate blocks. -/
theorem exists_carry {pass : PredicateId → label → Option label} (respects : Respects t pass)
    {p q : Position} {ps : List Passage} (h : Run t p ps q) (l : label) :
    ∃ l', carry pass ps l = some l' := by
  induction h with
  | refl => exact ⟨l, rfl⟩
  | tail _ move ih =>
    obtain ⟨l', hl'⟩ := ih
    rw [carry_append, hl']
    cases move with
    | @predicate _ id _ _ he hopen =>
      cases hp : pass id l' with
      | none => exact absurd ((respects id l').mp hp) hopen
      | some l'' => exact ⟨l'', by simp [carry, hp]⟩
    | _ => exact ⟨l', rfl⟩

end Way

namespace Closure
variable {t : Terrain} {d : DecisionId} {ids : List PredicateId}

/-! ### Before the first symbol -/

/-- The predicates that a way collects are those that it passes and that have no known
value. -/
theorem mem_of_carry_collectPredicate {ps : List Passage} (hps : Passage.symbols ps = [])
    {l l' : List PredicateId} (h : Way.carry (collectPredicate t) ps l = some l')
    (id : PredicateId) :
    id ∈ l' ↔ id ∈ l ∨ id ∈ Passage.leading ps ∧ t.gateValue id = none := by
  induction ps generalizing l with
  | nil =>
    obtain rfl := Option.some.inj h
    simp [Passage.leading]
  | cons p ps ih =>
    cases p with
    | symbol x => exact nomatch hps
    | predicate id' =>
      obtain ⟨l₁, hl₁, h⟩ := Option.bind_eq_some_iff.mp h
      rw [ih hps h, Passage.leading, List.mem_cons]
      unfold collectPredicate at hl₁
      split at hl₁
      · exact nomatch hl₁
      · obtain rfl := Option.some.inj hl₁
        grind
      · obtain rfl := Option.some.inj hl₁
        rw [mem_insert]
        grind

theorem under_conditionsOf (sound : t.Sound) (hids : ∀ id ∈ ids, id < t.predicates.length)
    (a : Aspect) (v : PredicateId → Bool) :
    ((conditionsOf t ids).guard a).under v = true ↔
      ∀ id ∈ ids, a.counts t id = true → v id = true := by
  cases a with
  | context => simp [conditionsOf, Conditions.guard, under_guardOf sound hids, Aspect.counts]
  | gate =>
    have hids' : ∀ id ∈ ids.filter t.isGated, id < t.predicates.length :=
      fun id hid => hids id (List.mem_filter.mp hid).1
    simp [conditionsOf, Conditions.guard, under_guardOf sound hids', Aspect.counts]

/-- The conditions that a run collects hold exactly if it is open. -/
theorem under_conditionsOf_carry (sound : t.Sound) {alt : Ordinal} {ps : List Passage}
    {p : Position} (hrun : LookaheadRun t d alt ps p) (hsymbols : Passage.symbols ps = [])
    (hids : Way.carry (collectPredicate t) ps [] = some ids) (a : Aspect)
    (v : PredicateId → Bool) :
    ((conditionsOf t ids).guard a).under v = true ↔ Passage.Open t (a.counts t) v ps := by
  have hmem := mem_of_carry_collectPredicate hsymbols hids
  obtain ⟨entry, _, _, hrun⟩ := hrun
  have hlt : ∀ id ∈ ids, id < t.predicates.length := by
    intro id hid
    rcases (hmem id).mp hid with hid | ⟨hid, _⟩
    · exact nomatch hid
    · exact hrun.predicate_lt sound.closed (Passage.mem_of_mem_leading hid)
  rw [under_conditionsOf sound hlt]
  simp only [hmem, List.not_mem_nil, false_or, and_imp]
  rfl

theorem map_eq_ok_iff {ε α β : Type} {f : α → β} {x : Except ε α} {b : β} :
    x.map f = .ok b ↔ ∃ a, x = .ok a ∧ f a = b := by
  cases x <;> simp [Except.map]

/-- The ways that start at the entries of a decision. -/
theorem mem_entries {w : Way (List PredicateId)} :
    w ∈ (t.network.entriesOf d).mapIdx (fun i node => (⟨i + 1, node, [], []⟩ : Way _)) ↔
      ∃ i node, (t.network.entriesOf d)[i]? = some node ∧ w = ⟨i + 1, node, [], []⟩ := by
  rw [List.mem_iff_getElem?]
  simp only [List.getElem?_mapIdx, Option.map_eq_some_iff]
  grind

theorem contained_entries (sound : t.Sound) (d : DecisionId) :
    Way.Contained t (collectPredicate t) t.predicates.length (ascendingLists t.predicates.length)
      ((t.network.entriesOf d).mapIdx fun i node => ⟨i + 1, node, [], []⟩) where
  closed := sound.closed
  respects := respects_collectPredicate t
  keeps := keepsIn_collectPredicate t _
  card := card_ascendingLists_le _
  inside w hw := by
    obtain ⟨i, node, hnode, rfl⟩ := mem_entries.mp hw
    exact ⟨sound.closed.entry d node (List.mem_of_getElem? hnode), nofun⟩
  label w hw := by
    obtain ⟨i, node, _, rfl⟩ := mem_entries.mp hw
    exact mem_ascendingLists.mpr ⟨nofun, .nil⟩

/-- The ways from the entries of a decision. -/
theorem mem_reach_entries (sound : t.Sound) {w : Way (List PredicateId)}
    {visited : List (Way (List PredicateId))}
    (h : Way.reach t (collectPredicate t) t.predicates.length
      ((t.network.entriesOf d).mapIdx fun i node => ⟨i + 1, node, [], []⟩) = .ok visited) :
    w ∈ visited ↔ ∃ ps, LookaheadRun t d w.alt ps w.position ∧ Passage.symbols ps = [] ∧
      Way.carry (collectPredicate t) ps [] = some w.label := by
  rw [(contained_entries sound d).mem_reach_iff h]
  constructor
  · rintro ⟨s, hs, halt, ps, hrun, hsymbols, hcarry⟩
    obtain ⟨i, node, hnode, rfl⟩ := mem_entries.mp hs
    refine ⟨ps, ⟨node, halt ▸ Nat.succ_pos i, ?_, hrun⟩, hsymbols, hcarry⟩
    rw [halt]
    exact hnode
  · rintro ⟨ps, ⟨node, hpos, hnode, hrun⟩, hsymbols, hcarry⟩
    refine ⟨_, mem_entries.mpr ⟨w.alt - 1, node, hnode, rfl⟩, ?_, ps, hrun, hsymbols, hcarry⟩
    exact (Nat.sub_add_cancel hpos).symm

theorem exists_way_of_run (sound : t.Sound) {visited : List (Way (List PredicateId))}
    (h : Way.reach t (collectPredicate t) t.predicates.length
      ((t.network.entriesOf d).mapIdx fun i node => ⟨i + 1, node, [], []⟩) = .ok visited)
    {alt : Ordinal} {ps : List Passage} {p : Position} (hrun : LookaheadRun t d alt ps p)
    (hsymbols : Passage.symbols ps = []) :
    ∃ l, Way.carry (collectPredicate t) ps [] = some l ∧ ⟨alt, p.node, p.stack, l⟩ ∈ visited := by
  obtain ⟨entry, _, _, hrun'⟩ := id hrun
  obtain ⟨l, hl⟩ := Way.exists_carry (respects_collectPredicate t) hrun' []
  exact ⟨l, hl, (mem_reach_entries sound h).mpr ⟨ps, hrun, hsymbols, hl⟩⟩

/-- The closure of the entries of a decision represents the empty word. -/
theorem represents_ofEntries (sound : t.Sound) {configs : List Configuration}
    (h : ofEntries t (t.network.entriesOf d) = .ok configs) : Represents t d [] configs := by
  rw [ofEntries_eq sound] at h
  obtain ⟨visited, hvisited, rfl⟩ := map_eq_ok_iff.mp h
  refine ⟨(Configuration.collects_collect _).nodup, fun alt p => ?_, fun c hc a v => ?_,
    fun c hc => Way.accept_configurations hc⟩
  · rw [Way.mem_place_configurations, and_congr_right_iff]
    intro _
    constructor
    · rintro ⟨w, hw, rfl, rfl⟩
      obtain ⟨ps, hrun, hsymbols, _⟩ := (mem_reach_entries sound hvisited).mp hw
      exact ⟨ps, hrun, hsymbols⟩
    · rintro ⟨ps, hrun, hsymbols⟩
      obtain ⟨l, _, hmem⟩ := exists_way_of_run sound hvisited hrun hsymbols
      exact ⟨_, hmem, rfl, rfl⟩
  · rw [Way.under_guard_configurations hc]
    constructor
    · rintro ⟨w, hw, halt, hp, hv⟩
      obtain ⟨ps, hrun, hsymbols, hl⟩ := (mem_reach_entries sound hvisited).mp hw
      rw [halt, hp] at hrun
      exact ⟨ps, hrun, hsymbols, (under_conditionsOf_carry sound hrun hsymbols hl a v).mp hv⟩
    · rintro ⟨ps, hrun, hsymbols, hopen⟩
      obtain ⟨l, hl, hmem⟩ := exists_way_of_run sound hvisited hrun hsymbols
      exact ⟨_, hmem, rfl, rfl, (under_conditionsOf_carry sound hrun hsymbols hl a v).mpr hopen⟩

/-! ### After a symbol -/

theorem respects_passLater {label : Type} (t : Terrain) :
    Way.Respects t (@passLater label t) := by
  intro id l
  unfold passLater
  split <;> simp_all

theorem carry_passLater {label : Type} {ps : List Passage} {l l' : label}
    (h : Way.carry (passLater t) ps l = some l') : l' = l := by
  induction ps with
  | nil => exact (Option.some.inj h).symm
  | cons p ps ih =>
    cases p with
    | symbol x => exact ih h
    | predicate id =>
      obtain ⟨l₁, hl₁, h⟩ := Option.bind_eq_some_iff.mp h
      unfold passLater at hl₁
      split at hl₁
      · exact nomatch hl₁
      · obtain rfl := Option.some.inj hl₁
        exact ih h

theorem mem_read {lo hi : Symbol} {configs : List Configuration} {w : Way Conditions} :
    w ∈ Configuration.read t lo hi configs ↔ ∃ c ∈ configs, ∃ set target,
      .symbols set target ∈ t.network.edgesOf c.node ∧ set.covers lo hi = true ∧
        w = ⟨c.alt, target, c.stack, c.conditions⟩ := by
  simp only [Configuration.read, List.mem_flatMap, List.mem_filterMap]
  refine exists_congr fun c => and_congr_right fun _ => ?_
  constructor
  · rintro ⟨e, he, hw⟩
    split at hw
    · next set target =>
      split at hw
      · next hcovers => exact ⟨set, target, he, hcovers, (Option.some.inj hw).symm⟩
      · exact nomatch hw
    · exact nomatch hw
  · rintro ⟨set, target, he, hcovers, rfl⟩
    exact ⟨_, he, by simp [hcovers]⟩

theorem contained_steps (sound : t.Sound) {ways : List (Way Conditions)}
    (hinside : ∀ w ∈ ways, w.position.Inside t.network) :
    Way.Contained t (passLater t) ways.length (ways.map (·.label)).toFinset ways where
  closed := sound.closed
  respects := respects_passLater t
  keeps id l l' _ hl h := by
    have : Way.carry (passLater t) [.predicate id] l = some l' := by simp [Way.carry, h]
    rwa [carry_passLater this]
  card := by
    have := List.toFinset_card_le (ways.map (·.label))
    rw [List.length_map] at this
    exact Nat.le_of_lt (Nat.lt_of_le_of_lt this Nat.lt_two_pow_self)
  inside := hinside
  label _ hw := List.mem_toFinset.mpr (List.mem_map_of_mem hw)

/-- The ways from ways that have just read a symbol. -/
theorem mem_reach_steps (sound : t.Sound) {ways visited : List (Way Conditions)}
    {w : Way Conditions} (hinside : ∀ w ∈ ways, w.position.Inside t.network)
    (h : Way.reach t (passLater t) ways.length ways = .ok visited) :
    w ∈ visited ↔ ∃ s ∈ ways, w.alt = s.alt ∧ w.label = s.label ∧
      ∃ ps, Run t s.position ps w.position ∧ Passage.symbols ps = [] := by
  rw [(contained_steps sound hinside).mem_reach_iff h]
  refine exists_congr fun s => and_congr_right fun _ => and_congr_right fun _ => ?_
  constructor
  · rintro ⟨ps, hrun, hsymbols, hcarry⟩
    exact ⟨carry_passLater hcarry, ps, hrun, hsymbols⟩
  · rintro ⟨hlabel, ps, hrun, hsymbols⟩
    obtain ⟨l, hl⟩ := Way.exists_carry (respects_passLater t) hrun s.label
    refine ⟨ps, hrun, hsymbols, ?_⟩
    rw [hl, carry_passLater hl, hlabel]

/-- What configurations read are ways inside the network. -/
theorem inside_of_mem_read {count : Nat} (closed : t.network.Closed count)
    {configs : List Configuration} (hinside : ∀ c ∈ configs, c.position.Inside t.network)
    (lo hi : Symbol) : ∀ s ∈ Configuration.read t lo hi configs, s.position.Inside t.network := by
  intro s hs
  obtain ⟨c, hc, set, target, he, _, rfl⟩ := mem_read.mp hs
  exact ⟨closed.target _ _ he, (hinside c hc).2⟩

section
variable {w : List Symbol} {configs : List Configuration} {lo hi x : Symbol}

/-- The ways from configurations that have just read a symbol, which stands for its range. -/
theorem mem_reach_read (sound : t.Sound) (hw : Represents t d w configs)
    (hcovers : ∀ c ∈ configs, ∀ set target, .symbols set target ∈ t.network.edgesOf c.node →
      (set.covers lo hi = true ↔ x ∈ set)) {visited : List (Way Conditions)}
    (h : Way.reach t (passLater t) (Configuration.read t lo hi configs).length
      (Configuration.read t lo hi configs) = .ok visited) {s : Way Conditions} :
    s ∈ visited ↔ ∃ c ∈ configs, s.alt = c.alt ∧ s.label = c.conditions ∧
      ∃ q, Move t c.position [.symbol x] q ∧
        ∃ ps, Run t q ps s.position ∧ Passage.symbols ps = [] := by
  rw [mem_reach_steps sound (inside_of_mem_read sound.closed (hw.inside sound.closed) lo hi) h]
  constructor
  · rintro ⟨s', hs', halt, hlabel, hrun⟩
    obtain ⟨c, hc, set, target, he, hcov, rfl⟩ := mem_read.mp hs'
    exact ⟨c, hc, halt, hlabel, _,
      move_symbol_iff.mpr ⟨set, target, he, (hcovers c hc set target he).mp hcov, rfl⟩, hrun⟩
  · rintro ⟨c, hc, halt, hlabel, q, hmove, hrun⟩
    obtain ⟨set, target, he, hx, rfl⟩ := move_symbol_iff.mp hmove
    exact ⟨⟨c.alt, target, c.stack, c.conditions⟩,
      mem_read.mpr ⟨c, hc, set, target, he, (hcovers c hc set target he).mpr hx, rfl⟩,
      halt, hlabel, hrun⟩

/-- The closure of what configurations read represents one more symbol. -/
theorem represents_ofSteps (sound : t.Sound) {reached : List Configuration}
    (hw : Represents t d w configs)
    (hcovers : ∀ c ∈ configs, ∀ set target, .symbols set target ∈ t.network.edgesOf c.node →
      (set.covers lo hi = true ↔ x ∈ set))
    (h : ofSteps t (Configuration.read t lo hi configs) = .ok reached) :
    Represents t d (w ++ [x]) reached := by
  obtain ⟨visited, hvisited, rfl⟩ := map_eq_ok_iff.mp h
  have hreach {s : Way Conditions} := mem_reach_read sound hw hcovers hvisited (s := s)
  refine ⟨(Configuration.collects_collect _).nodup, fun alt p => ?_, fun c hc a v => ?_,
    fun c hc => Way.accept_configurations hc⟩
  · have hsnoc := @exists_lookaheadRun_snoc_iff t d alt w x p fun _ => True
    simp only [and_true] at hsnoc
    rw [Way.mem_place_configurations, and_congr_right_iff, hsnoc]
    intro _
    constructor
    · rintro ⟨s, hs, rfl, rfl⟩
      obtain ⟨c, hc, halt, _, q, hmove, hrun⟩ := hreach.mp hs
      refine ⟨c.position, q, ?_, hmove, hrun⟩
      rw [halt]
      exact (hw.exists_run hc).2
    · rintro ⟨q, q', ⟨ps, hrun, hsymbols⟩, hmove, hrun'⟩
      obtain ⟨c, hc, halt, hq⟩ :=
        hw.exists_configuration (Position.live_of_move_symbol hmove) hrun hsymbols
      exact ⟨⟨alt, p.node, p.stack, c.conditions⟩,
        hreach.mpr ⟨c, hc, halt.symm, rfl, q', hq ▸ hmove, hrun'⟩, rfl, rfl⟩
  · have hsnoc := @exists_lookaheadRun_snoc_iff t d c.alt w x c.position fun ids =>
      ∀ id ∈ ids, t.gateValue id = none → a.counts t id = true → v id = true
    rw [Way.under_guard_configurations hc]
    refine Iff.trans ?_ hsnoc.symm
    constructor
    · rintro ⟨s, hs, halt, hp, hv⟩
      obtain ⟨e, he, halt', hlabel, q, hmove, hrun⟩ := hreach.mp hs
      refine ⟨e.position, q, ?_, hmove, hp ▸ hrun⟩
      rw [← halt, halt']
      exact (hw.guard e he a v).mp (hlabel ▸ hv)
    · rintro ⟨q, q', ⟨ps, hrun, hsymbols, hopen⟩, hmove, hrun'⟩
      obtain ⟨e, he, halt, hq⟩ :=
        hw.exists_configuration (Position.live_of_move_symbol hmove) hrun hsymbols
      refine ⟨⟨c.alt, c.node, c.stack, e.conditions⟩,
        hreach.mpr ⟨e, he, halt.symm, rfl, q', hq ▸ hmove, hrun'⟩, rfl, rfl, ?_⟩
      refine (hw.guard e he a v).mpr ⟨ps, ?_, hsymbols, hopen⟩
      rw [halt, hq]
      exact hrun

end

/-! ### Invariants of conditions -/

section
variable {P : Ordinal × Position → Conditions → Prop}
  (hor : ∀ x c d, P x c → P x d → P x (c.or d)) {configs : List Configuration}
include hor

/-- Before the first symbol conditions are what runs collect. -/
theorem forall_ofEntries (sound : t.Sound) (h : ofEntries t (t.network.entriesOf d) = .ok configs)
    (hpassed : ∀ alt ps q ids, LookaheadRun t d alt ps q → Passage.symbols ps = [] →
      Way.carry (collectPredicate t) ps [] = some ids → P (alt, q) (conditionsOf t ids)) :
    ∀ c ∈ configs, P c.place c.conditions := by
  rw [ofEntries_eq sound] at h
  obtain ⟨visited, hvisited, rfl⟩ := map_eq_ok_iff.mp h
  refine Configuration.forall_collect hor fun c hc => ?_
  obtain ⟨w, hw, rfl⟩ := List.mem_map.mp hc
  obtain ⟨ps, hrun, hsymbols, hids⟩ :=
    (mem_reach_entries sound hvisited).mp (List.mem_filter.mp hw).1
  exact hpassed w.alt ps w.position w.label hrun hsymbols hids

/-- After the first symbol ways keep their conditions. -/
theorem forall_ofSteps (sound : t.Sound) {w : List Symbol} {reached : List Configuration}
    (hw : Represents t d w configs) {lo hi x : Symbol}
    (hcovers : ∀ c ∈ configs, ∀ set target, .symbols set target ∈ t.network.edgesOf c.node →
      (set.covers lo hi = true ↔ x ∈ set))
    (h : ofSteps t (Configuration.read t lo hi configs) = .ok reached)
    (hread : ∀ c ∈ configs, ∀ q ps r, Move t c.position [.symbol x] q → Run t q ps r →
      Passage.symbols ps = [] → P (c.alt, r) c.conditions) :
    ∀ c ∈ reached, P c.place c.conditions := by
  obtain ⟨visited, hvisited, rfl⟩ := map_eq_ok_iff.mp h
  refine Configuration.forall_collect hor fun c hc => ?_
  obtain ⟨s, hs, rfl⟩ := List.mem_map.mp hc
  obtain ⟨e, he, halt, hlabel, q, hmove, ps, hrun, hsymbols⟩ :=
    (mem_reach_read sound hw hcovers hvisited).mp (List.mem_filter.mp hs).1
  show P (s.alt, s.position) s.label
  rw [halt, hlabel]
  exact hread e he q ps s.position hmove hrun hsymbols

end

end Closure
end Lookahead
