import Lookahead.Proofs.Guard.Meaning
import Lookahead.Proofs.Run.Basic
import Mathlib.Data.List.Nodup

/-! Collecting configurations: each position once, with the disjunction of its conditions.

A way carries two conditions, which are joined alike. `Aspect` tells them apart where a
statement is about both. -/
namespace Lookahead

/-- One of the two conditions of a way. -/
inductive Aspect where
  | context
  | gate

namespace Conditions

def guard (c : Conditions) : Aspect → Guard
  | .context => c.context
  | .gate => c.gate

theorem under_or (v : PredicateId → Bool) (c d : Conditions) (a : Aspect) :
    ((c.or d).guard a).under v = true ↔
      (c.guard a).under v = true ∨ (d.guard a).under v = true := by
  cases a with
  | context => exact Guard.under_or _ _
  | gate => exact Guard.under_or _ _

end Conditions

namespace Configuration
variable {c d : Configuration} {cs sources : List Configuration}

def position (c : Configuration) : Position := ⟨c.node, c.stack⟩

/-- What tells configurations of a state apart. -/
def place (c : Configuration) : Ordinal × Position := (c.alt, c.position)

theorem samePosition_iff : c.samePosition d = true ↔ c.place = d.place := by
  simp [samePosition, place, position, and_assoc]

/-- A position that is new comes last, and one that is not gets another way. -/
theorem add_cases (cs : List Configuration) (c : Configuration) :
    (c.place ∉ cs.map place ∧ add cs c = cs ++ [c]) ∨
    ∃ before d after, cs = before ++ d :: after ∧ d.place = c.place ∧
      add cs c = before ++ { d with conditions := d.conditions.or c.conditions } :: after := by
  induction cs with
  | nil => exact .inl ⟨nofun, rfl⟩
  | cons e cs ih =>
    by_cases he : e.samePosition c = true
    · exact .inr ⟨[], e, cs, rfl, samePosition_iff.mp he, by simp [add, he]⟩
    · have hadd : add (e :: cs) c = e :: add cs c := by simp [add, he]
      rw [hadd]
      rcases ih with ⟨hnew, hc⟩ | ⟨before, d, after, rfl, hd, hc⟩
      · refine .inl ⟨fun hmem => ?_, by rw [hc]; rfl⟩
        rcases List.mem_cons.mp hmem with hce | hmem
        · exact he (samePosition_iff.mpr hce.symm)
        · exact hnew hmem
      · exact .inr ⟨e :: before, d, after, rfl, hd, by rw [hc]; rfl⟩

theorem map_place_add (cs : List Configuration) (c : Configuration) :
    (add cs c).map place =
      if c.place ∈ cs.map place then cs.map place else cs.map place ++ [c.place] := by
  rcases add_cases cs c with ⟨hnew, hadd⟩ | ⟨before, d, after, rfl, hd, hadd⟩
  · rw [hadd, if_neg hnew, List.map_append]
    rfl
  · rw [hadd, if_pos (by simp [← hd]), List.map_append, List.map_append]
    rfl

/-- What is in a list to which a way has been added. -/
theorem mem_add_cases (hcs : (cs.map place).Nodup) (h : d ∈ add cs c) :
    (d ∈ cs ∧ d.place ≠ c.place) ∨ (d = c ∧ c.place ∉ cs.map place) ∨
    ∃ e ∈ cs, e.place = c.place ∧ d = { e with conditions := e.conditions.or c.conditions } := by
  rcases add_cases cs c with ⟨hnew, hadd⟩ | ⟨before, e, after, rfl, he, hadd⟩
  · rw [hadd] at h
    rcases List.mem_append.mp h with h | h
    · exact .inl ⟨h, fun hdc => hnew (List.mem_map.mpr ⟨d, h, hdc⟩)⟩
    · exact .inr (.inl ⟨List.mem_singleton.mp h, hnew⟩)
  · rw [hadd] at h
    rw [List.map_append, List.map_cons, List.nodup_middle, List.nodup_cons, he,
      ← List.map_append] at hcs
    rcases List.mem_append.mp h with h | h
    · have hmem : d ∈ before ++ after := List.mem_append_left _ h
      exact .inl ⟨List.mem_append_left _ h, fun hdc => hcs.1 (List.mem_map.mpr ⟨d, hmem, hdc⟩)⟩
    · rcases List.mem_cons.mp h with h | h
      · exact .inr (.inr ⟨e, List.mem_append_right _ (.head _), he, h⟩)
      · have hmem : d ∈ before ++ after := List.mem_append_right _ h
        exact .inl ⟨List.mem_append_right _ (.tail _ h),
          fun hdc => hcs.1 (List.mem_map.mpr ⟨d, hmem, hdc⟩)⟩

/-- `cs` are the places of `sources`, each once and with the disjunction of the
conditions. -/
structure Collects (sources cs : List Configuration) : Prop where
  nodup : (cs.map place).Nodup
  complete : ∀ s ∈ sources, s.place ∈ cs.map place
  sound : ∀ c ∈ cs, ∃ s ∈ sources, s.place = c.place ∧ s.accept = c.accept
  guard : ∀ c ∈ cs, ∀ a v, (c.conditions.guard a).under v = true ↔
    ∃ s ∈ sources, s.place = c.place ∧ (s.conditions.guard a).under v = true

theorem Collects.add (h : Collects sources cs) (s : Configuration) :
    Collects (sources ++ [s]) (add cs s) where
  nodup := by
    rw [map_place_add]
    split
    · exact h.nodup
    · next hnew =>
      refine List.nodup_append.mpr ⟨h.nodup, List.nodup_singleton _, fun x hx y hy => ?_⟩
      rw [List.mem_singleton.mp hy]
      exact fun hxs => hnew (hxs ▸ hx)
  complete x hx := by
    rw [map_place_add]
    have hold := h.complete x
    rcases List.mem_append.mp hx with hx | hx
    · split
      · exact hold hx
      · exact List.mem_append_left _ (hold hx)
    · rw [List.mem_singleton.mp hx]
      split
      · assumption
      · exact List.mem_append_right _ (.head _)
  sound c hc := by
    rcases mem_add_cases h.nodup hc with ⟨hc, _⟩ | ⟨rfl, _⟩ | ⟨e, he, hes, rfl⟩
    · obtain ⟨x, hx, hxc⟩ := h.sound c hc
      exact ⟨x, List.mem_append_left _ hx, hxc⟩
    · exact ⟨c, List.mem_append_right _ (.head _), rfl, rfl⟩
    · obtain ⟨x, hx, hxe⟩ := h.sound e he
      exact ⟨x, List.mem_append_left _ hx, hxe⟩
  guard c hc a v := by
    simp only [List.mem_append, List.mem_singleton, or_and_right, exists_or, exists_eq_left]
    rcases mem_add_cases h.nodup hc with ⟨hc, hne⟩ | ⟨rfl, hnew⟩ | ⟨e, he, hes, rfl⟩
    · rw [h.guard c hc a v, or_iff_left fun hs => hne hs.1.symm]
    · rw [or_iff_right, and_iff_right rfl]
      rintro ⟨x, hx, hxc, _⟩
      exact hnew (hxc ▸ h.complete x hx)
    · rw [Conditions.under_or, h.guard e he a v]
      refine or_congr Iff.rfl ⟨fun hv => ⟨hes.symm, hv⟩, And.right⟩

theorem collects_foldl_add (cs : List Configuration) :
    Collects cs (cs.foldl Configuration.add []) := by
  have hall : ∀ (later earlier collected : List Configuration), Collects earlier collected →
      Collects (earlier ++ later) (later.foldl Configuration.add collected) := by
    intro later
    induction later with
    | nil => exact fun earlier collected h => by rwa [List.append_nil]
    | cons c later ih =>
      intro earlier collected h
      have := ih _ _ (h.add c)
      rwa [List.append_assoc] at this
  exact hall cs [] [] ⟨.nil, nofun, nofun, nofun⟩

theorem collects_collect (cs : List Configuration) : Collects cs (collect cs) where
  nodup :=
    ((perm_sortBy _ _).map place).nodup_iff.mpr (collects_foldl_add cs).nodup
  complete s hs :=
    ((perm_sortBy _ _).map place).mem_iff.mpr ((collects_foldl_add cs).complete s hs)
  sound c hc := (collects_foldl_add cs).sound c (mem_sortBy.mp hc)
  guard c hc := (collects_foldl_add cs).guard c (mem_sortBy.mp hc)

/-- What holds of the conditions of all ways at their places holds of those of the
configurations, if it holds of a disjunction where it holds of both parts. -/
theorem forall_collect {P : Ordinal × Position → Conditions → Prop}
    (hor : ∀ x c d, P x c → P x d → P x (c.or d)) (hcs : ∀ c ∈ cs, P c.place c.conditions) :
    ∀ c ∈ collect cs, P c.place c.conditions := by
  have hadd {ds : List Configuration} (hds : ∀ d ∈ ds, P d.place d.conditions) {c : Configuration}
      (hc : P c.place c.conditions) : ∀ d ∈ add ds c, P d.place d.conditions := by
    intro d hd
    rcases add_cases ds c with ⟨_, heq⟩ | ⟨before, e, after, rfl, he, heq⟩
    · rw [heq] at hd
      rcases List.mem_append.mp hd with hd | hd
      · exact hds d hd
      · rwa [List.mem_singleton.mp hd]
    · rw [heq] at hd
      rcases List.mem_append.mp hd with hd | hd
      · exact hds d (List.mem_append_left _ hd)
      · rcases List.mem_cons.mp hd with rfl | hd
        · exact hor _ _ _ (hds e (List.mem_append_right _ (.head _))) (he ▸ hc)
        · exact hds d (List.mem_append_right _ (.tail _ hd))
  have hall : ∀ (later collected : List Configuration),
      (∀ c ∈ later, P c.place c.conditions) → (∀ c ∈ collected, P c.place c.conditions) →
      ∀ c ∈ later.foldl add collected, P c.place c.conditions := by
    intro later
    induction later with
    | nil => exact fun _ _ h => h
    | cons c later ih =>
      intro collected hlater hcollected
      exact ih _ (fun d hd => hlater d (.tail _ hd)) (hadd hcollected (hlater c (.head _)))
  exact fun c hc => hall cs [] hcs nofun c (mem_sortBy.mp hc)

end Configuration
end Lookahead
