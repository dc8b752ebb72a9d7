import Lookahead.Proofs.Closure.Collect
import Lookahead.Proofs.Closure.Reach
import Lookahead.Proofs.Guard.Canonical
import Mathlib.Data.Finset.Powerset
import Mathlib.Data.Finset.Sort

/-! The conditions of a way tell which predicates it has passed, and no more.

A way before the first symbol may as well carry the ascending list of the predicates that it has
passed (`collectPredicate`): the conditions are the conjunctions of these and of the gates among
them (`conditionsOf`), and conjoining one more predicate puts its number into the list. Different
lists make different conditions, so the closure visits the same ways in the same order
(`ofEntries_eq`). -/
namespace Lookahead

/-- What the closure relies on. -/
structure Terrain.Sound (t : Terrain) : Prop where
  closed : t.network.Closed t.predicates.length
  numbered : ∀ (id : PredicateId) (p : Predicate), t.predicates[id]? = some p → p.id = id

namespace Closure
variable {t : Terrain} {d : DecisionId} {ids : List PredicateId}

/-- Adds a number to an ascending list. -/
def insert (id : PredicateId) : List PredicateId → List PredicateId
  | [] => [id]
  | x :: xs => if id < x then id :: x :: xs else if id = x then x :: xs else x :: insert id xs

/-- Passing a predicate before the first symbol, where a way carries the list. -/
def collectPredicate (t : Terrain) (id : PredicateId) (passed : List PredicateId) :
    Option (List PredicateId) :=
  match t.gateValue id with
  | some false => none
  | some true => some passed
  | none => some (insert id passed)

/-- The leaves of some predicates. -/
def leaves (t : Terrain) (ids : List PredicateId) : List Guard :=
  (ids.filterMap fun id => t.predicates[id]?).map .leaf

/-- The condition that all of some predicates are true. -/
def guardOf (t : Terrain) (ids : List PredicateId) : Guard := .allOf (leaves t ids)

def conditionsOf (t : Terrain) (passed : List PredicateId) : Conditions :=
  ⟨guardOf t passed, guardOf t (passed.filter t.isGated)⟩

@[simp] theorem mem_insert {id x : PredicateId} : x ∈ insert id ids ↔ x = id ∨ x ∈ ids := by
  induction ids with
  | nil => simp [insert]
  | cons y ids ih =>
    unfold insert
    split
    · simp
    · split
      · next h => simp [h]
      · rw [List.mem_cons, ih, List.mem_cons, or_left_comm]

theorem pairwise_insert (id : Nat) {ids : List Nat} (h : ids.Pairwise (· < ·)) :
    (insert id ids).Pairwise (· < ·) := by
  induction ids with
  | nil => exact List.pairwise_singleton ..
  | cons y ids ih =>
    obtain ⟨hy, hids⟩ := List.pairwise_cons.mp h
    unfold insert
    split
    · next hlt =>
      refine List.pairwise_cons.mpr ⟨fun z hz => ?_, h⟩
      rcases List.mem_cons.mp hz with rfl | hz
      · exact hlt
      · exact Nat.lt_trans hlt (hy z hz)
    · split
      · exact h
      · refine List.pairwise_cons.mpr ⟨fun z hz => ?_, ih hids⟩
        rcases mem_insert.mp hz with rfl | hz
        · lia
        · exact hy z hz

/-- The ascending lists of numbers below `count`. -/
def ascendingLists (count : Nat) : Finset (List Nat) :=
  (Finset.range count).powerset.image (·.sort (· ≤ ·))

theorem mem_ascendingLists {count : Nat} {ids : List Nat} :
    ids ∈ ascendingLists count ↔ (∀ id ∈ ids, id < count) ∧ ids.Pairwise (· < ·) := by
  constructor
  · intro h
    obtain ⟨s, hs, rfl⟩ := Finset.mem_image.mp h
    refine ⟨fun id hid => ?_, (Finset.sortedLT_sort s).pairwise⟩
    exact Finset.mem_range.mp (Finset.mem_powerset.mp hs ((Finset.mem_sort _).mp hid))
  · rintro ⟨hlt, hids⟩
    refine Finset.mem_image.mpr ⟨ids.toFinset, Finset.mem_powerset.mpr fun id hid => ?_, ?_⟩
    · exact Finset.mem_range.mpr (hlt id (List.mem_toFinset.mp hid))
    · exact (List.toFinset_sort _ (hids.imp Nat.ne_of_lt)).mpr (hids.imp Nat.le_of_lt)

theorem card_ascendingLists_le (count : Nat) : (ascendingLists count).card ≤ 2 ^ count := by
  refine Nat.le_trans Finset.card_image_le ?_
  rw [Finset.card_powerset, Finset.card_range]

theorem insert_mem_ascendingLists {count id : Nat} {ids : List Nat} (hid : id < count)
    (hids : ids ∈ ascendingLists count) : insert id ids ∈ ascendingLists count := by
  obtain ⟨hlt, hpairwise⟩ := mem_ascendingLists.mp hids
  refine mem_ascendingLists.mpr ⟨fun x hx => ?_, pairwise_insert id hpairwise⟩
  rcases mem_insert.mp hx with rfl | hx
  · exact hid
  · exact hlt x hx

/-! ### Conjunctions of leaves -/

theorem mem_leaves {g : Guard} :
    g ∈ leaves t ids ↔ ∃ id ∈ ids, ∃ p, t.predicates[id]? = some p ∧ .leaf p = g := by
  simp only [leaves, List.mem_map, List.mem_filterMap]
  grind

theorem isLeaf_of_mem_leaves {g : Guard} (hg : g ∈ leaves t ids) : ∃ p, g = .leaf p := by
  obtain ⟨_, _, p, _, rfl⟩ := mem_leaves.mp hg
  exact ⟨p, rfl⟩

theorem increasing_leaves (sound : t.Sound) (hids : ids.Pairwise (· < ·)) :
    Guard.Increasing (leaves t ids) := by
  refine List.pairwise_map.mpr (List.pairwise_filterMap.mpr (hids.imp fun hlt p hp q hq => ?_))
  rw [Guard.compare, sound.numbered _ p hp, sound.numbered _ q hq]
  exact Nat.compare_eq_lt.mpr hlt

/-- Leaves are not opened. -/
theorem flatten_leaves {ops : List Guard} (hops : ∀ g ∈ ops, ∃ p, g = .leaf p) :
    Junction.all.flatten ops = ops := by
  induction ops with
  | nil => rfl
  | cons g ops ih =>
    obtain ⟨p, rfl⟩ := hops g (.head _)
    exact congrArg (.leaf p :: ·) (ih fun g hg => hops g (.tail _ hg))

/-- A conjunction of leaves is opened to them. -/
theorem flatten_build_cons {ops : List Guard} (hops : ∀ g ∈ ops, ∃ p, g = .leaf p)
    (gs : List Guard) :
    Junction.all.flatten (Junction.all.build ops :: gs) = ops ++ Junction.all.flatten gs := by
  match ops with
  | [] => rfl
  | [g] =>
    obtain ⟨p, rfl⟩ := hops g (.head _)
    rfl
  | _ :: _ :: _ => rfl

/-- Leaves neither contradict nor absorb each other. -/
theorem allOf_eq_build {gs ops : List Guard} (hnever : .never ∉ gs)
    (hops : ∀ g ∈ ops, ∃ p, g = .leaf p) (hincreasing : Guard.Increasing ops)
    (hmem : ∀ g, g ∈ Junction.all.flatten gs ↔ g ∈ ops) :
    Guard.allOf gs = Junction.all.build ops := by
  refine Junction.of_eq_build hnever hincreasing hmem (fun g hg => ?_) fun g hg => ?_
  · obtain ⟨p, rfl⟩ := hops g hg
    rfl
  · obtain ⟨p, rfl⟩ := hops g hg
    rfl

theorem never_notMem_leaves : .never ∉ leaves t ids := fun h =>
  nomatch (isLeaf_of_mem_leaves h).choose_spec

theorem guardOf_eq_build (sound : t.Sound) (hids : ids.Pairwise (· < ·)) :
    guardOf t ids = Junction.all.build (leaves t ids) :=
  allOf_eq_build never_notMem_leaves (fun _ => isLeaf_of_mem_leaves) (increasing_leaves sound hids)
    fun g => by rw [flatten_leaves fun _ => isLeaf_of_mem_leaves]

/-- Conjoining one more predicate puts its number into the list. -/
theorem guardOf_insert (sound : t.Sound) {id : PredicateId} {p : Predicate}
    (hp : t.predicates[id]? = some p) (hids : ids.Pairwise (· < ·)) :
    guardOf t (insert id ids) = (guardOf t ids).and (.leaf p) := by
  rw [guardOf_eq_build sound (pairwise_insert id hids), guardOf_eq_build sound hids, Guard.and]
  refine (allOf_eq_build ?_ (fun _ => isLeaf_of_mem_leaves)
    (increasing_leaves sound (pairwise_insert id hids)) fun g => ?_).symm
  · have hbuild : Junction.all.build (leaves t ids) ≠ .never := by
      have hleaves : .never ∉ leaves t ids := never_notMem_leaves
      match leaves t ids, hleaves with
      | [], _ => exact nofun
      | [g], hleaves => exact fun heq => hleaves (heq ▸ .head _)
      | _ :: _ :: _, _ => exact nofun
    simp [hbuild.symm]
  · rw [flatten_build_cons fun _ => isLeaf_of_mem_leaves, List.mem_append,
      flatten_leaves fun g hg => ⟨p, List.mem_singleton.mp hg⟩, List.mem_singleton, mem_leaves,
      mem_leaves]
    simp only [mem_insert, or_and_right, exists_or, exists_eq_left, hp, Option.some.injEq,
      exists_eq_left']
    grind

/-- Conjunctions of leaves hold where all of the predicates are true. -/
theorem under_guardOf (sound : t.Sound) (hids : ∀ id ∈ ids, id < t.predicates.length)
    (v : PredicateId → Bool) : (guardOf t ids).under v = true ↔ ∀ id ∈ ids, v id = true := by
  rw [guardOf, Guard.under_allOf]
  constructor
  · intro h id hid
    have hlt := hids id hid
    have hp : t.predicates[id]? = some t.predicates[id] := List.getElem?_eq_getElem hlt
    have := h _ (mem_leaves.mpr ⟨id, hid, _, hp, rfl⟩)
    rwa [Guard.under_leaf, sound.numbered id _ hp] at this
  · intro h g hg
    obtain ⟨id, hid, p, hp, rfl⟩ := mem_leaves.mp hg
    rw [Guard.under_leaf, sound.numbered id p hp]
    exact h id hid

/-- Lists of different predicates make different conditions. -/
theorem conditionsOf_injective (sound : t.Sound) {ids' : List PredicateId}
    (hids : ids ∈ ascendingLists t.predicates.length)
    (hids' : ids' ∈ ascendingLists t.predicates.length)
    (h : conditionsOf t ids = conditionsOf t ids') : ids = ids' := by
  obtain ⟨hlt, hpairwise⟩ := mem_ascendingLists.mp hids
  obtain ⟨hlt', hpairwise'⟩ := mem_ascendingLists.mp hids'
  have hguard : guardOf t ids = guardOf t ids' := (Conditions.mk.inj h).1
  have hsame (v : PredicateId → Bool) : (∀ id ∈ ids, v id = true) ↔ ∀ id ∈ ids', v id = true := by
    rw [← under_guardOf sound hlt, hguard, under_guardOf sound hlt']
  refine List.Pairwise.eq_of_mem_iff hpairwise hpairwise' fun id => ⟨fun hid => ?_, fun hid => ?_⟩
  · exact of_decide_eq_true ((hsame fun x => decide (x ∈ ids')).mpr (by simp) id hid)
  · exact of_decide_eq_true ((hsame fun x => decide (x ∈ ids)).mp (by simp) id hid)

/-! ### Ways with conditions and ways with lists -/

theorem filter_insert_of_pos {id : PredicateId} (hid : t.isGated id = true)
    (hids : ids.Pairwise (· < ·)) :
    (insert id ids).filter t.isGated = insert id (ids.filter t.isGated) := by
  refine List.Pairwise.eq_of_mem_iff ((pairwise_insert id hids).filter _)
    (pairwise_insert id (hids.filter _)) fun x => ?_
  simp only [List.mem_filter, mem_insert]
  grind

theorem filter_insert_of_neg {id : PredicateId} (hid : t.isGated id = false)
    (hids : ids.Pairwise (· < ·)) : (insert id ids).filter t.isGated = ids.filter t.isGated := by
  refine List.Pairwise.eq_of_mem_iff ((pairwise_insert id hids).filter _) (hids.filter _) fun x => ?_
  simp only [List.mem_filter, mem_insert]
  grind

/-- Passing a predicate does to the conditions what it does to the list. -/
theorem hoist_conditionsOf (sound : t.Sound) {id : PredicateId} (hid : id < t.predicates.length)
    (hids : ids ∈ ascendingLists t.predicates.length) :
    hoist t id (conditionsOf t ids) = (collectPredicate t id ids).map (conditionsOf t) := by
  have hpairwise := (mem_ascendingLists.mp hids).2
  have hp : t.predicates[id]? = some t.predicates[id] := List.getElem?_eq_getElem hid
  unfold hoist collectPredicate
  cases t.gateValue id with
  | some value => cases value <;> rfl
  | none =>
    simp only [hp, Option.map_some, Option.getD_some, conditionsOf, Option.some.injEq,
      Conditions.mk.injEq]
    refine ⟨(guardOf_insert sound hp hpairwise).symm, ?_⟩
    cases hgated : t.isGated id with
    | true =>
      rw [filter_insert_of_pos hgated hpairwise, guardOf_insert sound hp (hpairwise.filter _)]
      rfl
    | false =>
      rw [filter_insert_of_neg hgated hpairwise]
      rfl

end Closure

namespace Way
variable {label label' : Type} {t : Terrain} {w : Way label}

/-- The way with another label. -/
def relabel (f : label → label') (w : Way label) : Way label' := ⟨w.alt, w.node, w.stack, f w.label⟩

/-- Where labels are renamed, an edge leads to the renamed ways. -/
theorem along_relabel {pass : PredicateId → label → Option label}
    {pass' : PredicateId → label' → Option label'} {f : label → label'} {e : Edge}
    (hpass : ∀ id target, e = .predicate id target →
      pass' id (f w.label) = (pass id w.label).map f) :
    (w.relabel f).along t pass' e = (w.along t pass e).map (List.map (relabel f)) := by
  cases e with
  | silent | action | symbols => rfl
  | predicate id target =>
    simp only [along, relabel, hpass id target rfl]
    cases pass id w.label <;> rfl
  | call rule follow =>
    by_cases hcount : t.maxRecursionDepth ≤ w.stack.count follow
    · simp [along, relabel, hcount, Except.map]
    · simp [along, relabel, hcount, Except.map]

theorem alongAll_relabel {pass : PredicateId → label → Option label}
    {pass' : PredicateId → label' → Option label'} {f : label → label'} {es : List Edge}
    (hpass : ∀ id target, .predicate id target ∈ es →
      pass' id (f w.label) = (pass id w.label).map f) :
    (w.relabel f).alongAll t pass' es = (w.alongAll t pass es).map (List.map (relabel f)) := by
  induction es with
  | nil => rfl
  | cons e es ih =>
    have ih := ih fun id target h => hpass id target (.tail _ h)
    have he := along_relabel (t := t) fun id target h => hpass id target (h ▸ .head _)
    simp only [alongAll, he, ih]
    cases w.along t pass e with
    | error rule => rfl
    | ok ways => cases w.alongAll t pass es <;> simp [Except.map]

theorem moves_relabel {pass : PredicateId → label → Option label}
    {pass' : PredicateId → label' → Option label'} {f : label → label'}
    (hpass : ∀ id target, .predicate id target ∈ t.network.edgesOf w.node →
      pass' id (f w.label) = (pass id w.label).map f) :
    (w.relabel f).moves t pass' = (w.moves t pass).map (List.map (relabel f)) := by
  have hall := alongAll_relabel (t := t) hpass
  obtain ⟨alt, node, stack, l⟩ := w
  simp only [moves, relabel] at hall ⊢
  cases t.network.stopOf? node with
  | none => exact hall
  | some rule =>
    cases stack with
    | nil => simp [Except.map, relabel]
    | cons follow stack => rfl

/-- Renamed ways have the same configurations. -/
theorem configurations_relabel (t : Terrain) (f : label → Conditions) (ways : List (Way label)) :
    configurations t id (ways.map (relabel f)) = configurations t f ways := by
  simp only [configurations, List.filter_map, List.map_map]
  rfl

end Way

namespace Closure
variable {t : Terrain}

@[simp] theorem conditionsOf_nil (t : Terrain) : conditionsOf t [] = .none := rfl

theorem keepsIn_collectPredicate (t : Terrain) (count : Nat) :
    Way.KeepsIn (collectPredicate t) count (ascendingLists count) := by
  intro id l l' hid hl h
  unfold collectPredicate at h
  split at h
  · exact nomatch h
  · obtain rfl := Option.some.inj h
    exact hl
  · obtain rfl := Option.some.inj h
    exact insert_mem_ascendingLists hid hl

theorem respects_collectPredicate (t : Terrain) : Way.Respects t (collectPredicate t) := by
  intro id l
  unfold collectPredicate
  split <;> simp_all

/-- Ways with conditions are ways with lists under other names. -/
theorem renames_conditionsOf (sound : t.Sound) :
    Renames (Way.moves t (collectPredicate t)) (Way.moves t (hoist t))
      (Way.relabel (conditionsOf t)) (·.label ∈ ascendingLists t.predicates.length) where
  injective v w hv hw heq := by
    obtain ⟨alt, node, stack, l⟩ := v
    obtain ⟨halt, hnode, hstack, hlabel⟩ := Way.mk.inj heq
    obtain rfl := conditionsOf_injective sound hv hw hlabel
    subst halt hnode hstack
    rfl
  visit w hw := Way.moves_relabel fun id target he =>
    hoist_conditionsOf sound (sound.closed.predicate _ _ _ he) hw
  named w ways hw hways w' hw' := (keepsIn_collectPredicate t _).found sound.closed
    (respects_collectPredicate t) hw ⟨ways, hways, hw'⟩

/-- The ways at the entries of a decision, before they have passed anything. -/
theorem relabel_entries (t : Terrain) (entries : List NodeId) :
    (entries.mapIdx fun i node => (⟨i + 1, node, [], []⟩ : Way (List PredicateId))).map
        (Way.relabel (conditionsOf t)) =
      entries.mapIdx fun i node => ⟨i + 1, node, [], .none⟩ := by
  refine List.ext_getElem? fun i => ?_
  simp [Way.relabel, Function.comp_def]

theorem label_mem_of_mem_entries {entries : List NodeId} {w : Way (List PredicateId)}
    (h : w ∈ entries.mapIdx fun i node => ⟨i + 1, node, [], []⟩) :
    w.label ∈ ascendingLists t.predicates.length := by
  obtain ⟨i, _, rfl⟩ := List.mem_mapIdx.mp h
  exact mem_ascendingLists.mpr ⟨nofun, .nil⟩

theorem bound_relabel {label label' : Type} (t : Terrain) (labels : Nat) (f : label → label')
    (ways : List (Way label)) :
    Way.bound t labels (ways.map (Way.relabel f)) = Way.bound t labels ways := by
  simp [Way.bound, Function.comp_def, Way.relabel]

/-- **The closure may carry lists.** The configurations before the first symbol are those of the
ways with lists. -/
theorem ofEntries_eq (sound : t.Sound) (entries : List NodeId) :
    ofEntries t entries =
      (Way.reach t (collectPredicate t) t.predicates.length
        (entries.mapIdx fun i node => ⟨i + 1, node, [], []⟩)).map
          (Way.configurations t (conditionsOf t)) := by
  simp only [ofEntries]
  rw [← relabel_entries t, Way.reach, bound_relabel,
    (renames_conditionsOf sound).explore_map (fun _ => label_mem_of_mem_entries), ← Way.reach]
  cases Way.reach t (collectPredicate t) t.predicates.length
      (entries.mapIdx fun i node => ⟨i + 1, node, [], []⟩) with
  | error rule => rfl
  | ok visited => exact congrArg Except.ok (Way.configurations_relabel t (conditionsOf t) visited)

end Closure
end Lookahead
