import Lookahead.Exploration
import Lookahead.Iteration.Lemmas
import Mathlib.Data.Finset.Card
import Mathlib.Logic.Relation

/-! Exploring visits exactly what can be reached.

`explored` says so of an exploration whose bound is large enough: it lists each place
that can be reached from the starts once, or fails with what a visit to such a place
fails with. How large the bound has to be follows from how many places there are and
how many of them a visit can find (`Suffices`). Where an exploration does not fail, visits that
fail less often come to the same. -/
namespace Lookahead
variable {α β ε : Type}

/-- A visit to `x` finds `y`. -/
def Found (next : α → Except ε (List α)) (x y : α) : Prop := ∃ ys, next x = .ok ys ∧ y ∈ ys

/-- A chain of visits leads from one of `starts` to a place. -/
def Reachable (next : α → Except ε (List α)) (starts : List α) (x : α) : Prop :=
  ∃ s ∈ starts, Relation.ReflTransGen (Found next) s x

theorem Reachable.start {next : α → Except ε (List α)} {starts : List α} {s : α}
    (h : s ∈ starts) : Reachable next starts s :=
  ⟨s, h, .refl⟩

theorem Reachable.step {next : α → Except ε (List α)} {starts : List α} {x y : α}
    (h : Reachable next starts x) (hxy : Found next x y) : Reachable next starts y := by
  obtain ⟨s, hs, hsx⟩ := h
  exact ⟨s, hs, hsx.tail hxy⟩

/-- What the result of an exploration says about the places that can be reached. -/
def Explored (next : α → Except ε (List α)) (starts : List α) : Except ε (List α) → Prop
  | .ok visited =>
    visited.Nodup ∧ (∀ x, x ∈ visited ↔ Reachable next starts x) ∧
      ∀ x ∈ visited, ∃ ys, next x = .ok ys
  | .error e => ∃ x, Reachable next starts x ∧ next x = .error e

namespace Frontier

/-- What holds of every frontier of an exploration. -/
structure Sound (next : α → Except ε (List α)) (starts : List α) (f : Frontier α) : Prop where
  pending : ∀ x ∈ f.pending, Reachable next starts x
  visited : ∀ x ∈ f.visited, Reachable next starts x
  started : ∀ s ∈ starts, s ∈ f.visited ∨ s ∈ f.pending
  closed : ∀ x ∈ f.visited, ∃ ys, next x = .ok ys ∧ ∀ y ∈ ys, y ∈ f.visited ∨ y ∈ f.pending
  nodup : f.visited.Nodup

variable {next : α → Except ε (List α)} {starts : List α} {f g : Frontier α}

theorem sound_start : Sound next starts ⟨starts.reverse, []⟩ where
  pending _ hx := .start (List.mem_reverse.mp hx)
  visited _ hx := nomatch hx
  started _ hs := .inr (List.mem_reverse.mpr hs)
  closed _ hx := nomatch hx
  nodup := .nil

/-- A frontier with nothing pending has visited all that can be reached. -/
theorem Sound.mem_visited (h : Sound next starts f) (hp : f.pending = []) {x : α}
    (hx : Reachable next starts x) : x ∈ f.visited := by
  obtain ⟨s, hs, hsx⟩ := hx
  induction hsx with
  | refl => simpa [hp] using h.started s hs
  | tail _ hyz ih =>
    obtain ⟨ys, hys, hz⟩ := hyz
    obtain ⟨ys', hys', hall⟩ := h.closed _ ih
    obtain rfl := Except.ok.inj (hys.symm.trans hys')
    simpa [hp] using hall _ hz

variable [DecidableEq α]

/-- What one step can do. -/
theorem advance_cases (next : α → Except ε (List α)) (f : Frontier α) :
    (f.pending = [] ∧ advance next f = .done (.ok f.visited.reverse)) ∨
    ∃ x rest, f.pending = x :: rest ∧
      ((x ∈ f.visited ∧ advance next f = .more ⟨rest, f.visited⟩) ∨
       (x ∉ f.visited ∧ ∃ e, next x = .error e ∧ advance next f = .done (.error e)) ∨
       (x ∉ f.visited ∧ ∃ ys, next x = .ok ys ∧
          advance next f = .more ⟨ys.reverse ++ rest, x :: f.visited⟩)) := by
  obtain ⟨pending, visited⟩ := f
  cases pending with
  | nil => exact .inl ⟨rfl, rfl⟩
  | cons x rest =>
    refine .inr ⟨x, rest, rfl, ?_⟩
    by_cases hx : x ∈ visited
    · exact .inl ⟨hx, by simp [advance, hx]⟩
    · cases hn : next x with
      | error e => exact .inr (.inl ⟨hx, e, rfl, by simp [advance, hx, hn]⟩)
      | ok ys => exact .inr (.inr ⟨hx, ys, rfl, by simp [advance, hx, hn]⟩)

theorem Sound.advance (h : Sound next starts f) (hg : advance next f = .more g) :
    Sound next starts g := by
  rcases advance_cases next f with ⟨_, he⟩ | ⟨x, rest, hp, ⟨hx, he⟩ | ⟨_, e, _, he⟩ | ⟨hx, ys, hn, he⟩⟩
  · rw [he] at hg
    exact nomatch hg
  · obtain rfl := Step.more.inj (he.symm.trans hg)
    refine ⟨fun y hy => h.pending y (hp ▸ .tail _ hy), h.visited, fun s hs => ?_, fun y hy => ?_,
      h.nodup⟩
    · have := h.started s hs
      rw [hp] at this
      grind
    · obtain ⟨ys, hys, hall⟩ := h.closed y hy
      refine ⟨ys, hys, fun z hz => ?_⟩
      have := hall z hz
      rw [hp] at this
      grind
  · rw [he] at hg
    exact nomatch hg
  · obtain rfl := Step.more.inj (he.symm.trans hg)
    have hr : Reachable next starts x := h.pending x (hp ▸ .head _)
    refine ⟨fun y hy => ?_, fun y hy => ?_, fun s hs => ?_, fun y hy => ?_, h.nodup.cons hx⟩
    · rcases List.mem_append.mp hy with hy | hy
      · exact hr.step ⟨ys, hn, List.mem_reverse.mp hy⟩
      · exact h.pending y (hp ▸ .tail _ hy)
    · rcases List.mem_cons.mp hy with rfl | hy
      · exact hr
      · exact h.visited y hy
    · have := h.started s hs
      rw [hp] at this
      grind
    · rcases List.mem_cons.mp hy with rfl | hy
      · exact ⟨ys, hn, fun z hz => .inr (List.mem_append_left _ (List.mem_reverse.mpr hz))⟩
      · obtain ⟨zs, hzs, hall⟩ := h.closed y hy
        refine ⟨zs, hzs, fun z hz => ?_⟩
        have := hall z hz
        rw [hp] at this
        grind

theorem Sound.done (h : Sound next starts f) {r : Except ε (List α)}
    (hr : Frontier.advance next f = .done r) : Explored next starts r := by
  rcases advance_cases next f with ⟨hp, he⟩ | ⟨x, rest, hp, ⟨_, he⟩ | ⟨_, e, hn, he⟩ | ⟨_, ys, _, he⟩⟩
  · obtain rfl := Step.done.inj (he.symm.trans hr)
    refine ⟨List.nodup_reverse.mpr h.nodup, fun x => ?_, fun x hx => ?_⟩
    · rw [List.mem_reverse]
      exact ⟨h.visited x, h.mem_visited hp⟩
    · obtain ⟨ys, hys, _⟩ := h.closed x (List.mem_reverse.mp hx)
      exact ⟨ys, hys⟩
  · rw [he] at hr
    exact nomatch hr
  · obtain rfl := Step.done.inj (he.symm.trans hr)
    exact ⟨x, h.pending x (hp ▸ .head _), hn⟩
  · rw [he] at hr
    exact nomatch hr

theorem Sound.steps_done (h : Sound next starts f) (n : Nat) {r : Except ε (List α)}
    (hr : steps (Frontier.advance next) n f = .done r) : Explored next starts r := by
  induction n generalizing f with
  | zero => exact nomatch hr
  | succ n ih =>
    rw [steps] at hr
    cases hs : Frontier.advance next f with
    | done r' =>
      rw [hs] at hr
      obtain rfl := Step.done.inj hr
      exact h.done hs
    | more g =>
      rw [hs] at hr
      exact ih (h.advance hs) hr

/-! ### How many steps it takes -/

/-- What is left to do, where there are `total` places and a visit finds at most `width`
of them. -/
def left (total width : Nat) (f : Frontier α) : Nat :=
  f.pending.length + (total - f.visited.length) * (width + 1)

variable {places : Finset α} {width : Nat}

theorem left_advance (h : Sound next starts f)
    (hu : ∀ x, Reachable next starts x → x ∈ places)
    (hw : ∀ x ys, Reachable next starts x → next x = .ok ys → ys.length ≤ width)
    (hg : advance next f = .more g) : left places.card width g < left places.card width f := by
  rcases advance_cases next f with ⟨_, he⟩ | ⟨x, rest, hp, ⟨hx, he⟩ | ⟨_, e, _, he⟩ | ⟨hx, ys, hn, he⟩⟩
  · rw [he] at hg
    exact nomatch hg
  · obtain rfl := Step.more.inj (he.symm.trans hg)
    simp [left, hp]
  · rw [he] at hg
    exact nomatch hg
  · obtain rfl := Step.more.inj (he.symm.trans hg)
    have hr : Reachable next starts x := h.pending x (hp ▸ .head _)
    have hlen : ys.length ≤ width := hw x ys hr hn
    have hcard : (x :: f.visited).length ≤ places.card := by
      rw [← List.toFinset_card_of_nodup (h.nodup.cons hx)]
      refine Finset.card_le_card fun y hy => ?_
      rcases List.mem_cons.mp (List.mem_toFinset.mp hy) with rfl | hy
      · exact hu _ hr
      · exact hu _ (h.visited y hy)
    rw [List.length_cons] at hcard
    obtain ⟨k, hk⟩ := Nat.exists_eq_add_of_le hcard
    have hk' : places.card - f.visited.length = k + 1 := by omega
    have hk'' : places.card - (f.visited.length + 1) = k := by omega
    simp only [left, hp, List.length_append, List.length_reverse, List.length_cons, hk', hk'']
    rw [Nat.succ_mul]
    omega

theorem left_steps (h : Sound next starts f)
    (hu : ∀ x, Reachable next starts x → x ∈ places)
    (hw : ∀ x ys, Reachable next starts x → next x = .ok ys → ys.length ≤ width)
    {n : Nat} (hg : steps (advance next) n f = .more g) :
    left places.card width g + n ≤ left places.card width f := by
  induction n generalizing f with
  | zero =>
    obtain rfl := Step.more.inj hg
    exact Nat.le_refl _
  | succ n ih =>
    rw [steps] at hg
    cases hs : advance next f with
    | done r =>
      rw [hs] at hg
      cases hg
    | more f' =>
      rw [hs] at hg
      have := ih (h.advance hs) hg
      have := left_advance h hu hw hs
      omega

end Frontier

/-- A bound allows for all places that can be reached, and for all that is found on the way. -/
def Suffices (next : α → Except ε (List α)) (bound : Nat) (starts : List α) : Prop :=
  ∃ (places : Finset α) (width : Nat), (∀ x, Reachable next starts x → x ∈ places) ∧
    (∀ x ys, Reachable next starts x → next x = .ok ys → ys.length ≤ width) ∧
    starts.length + places.card * (width + 1) + 2 ≤ 2 ^ bound

section
variable [DecidableEq α] {next next' : α → Except ε (List α)} {starts visited : List α}
  {bound bound' : Nat}

/-- An exploration comes to an end where its bound is large enough. -/
theorem Suffices.steps_eq (h : Suffices next bound starts) :
    steps (Frontier.advance next) (2 ^ bound - 1) ⟨starts.reverse, []⟩ =
      .done (explore next bound starts) := by
  obtain ⟨places, width, hu, hw, hb⟩ := h
  rw [explore, bursts_eq_steps, Nat.add_zero, Nat.pow_zero]
  cases he : steps (Frontier.advance next) (2 ^ bound - 1) ⟨starts.reverse, []⟩ with
  | done r => rfl
  | more f =>
    have := Frontier.left_steps Frontier.sound_start hu hw he
    simp only [Frontier.left, List.length_reverse, List.length_nil, Nat.sub_zero] at this
    omega

theorem explored (h : Suffices next bound starts) :
    Explored next starts (explore next bound starts) :=
  Frontier.sound_start.steps_done _ h.steps_eq

/-! ### Exploring by visits that fail less often -/

/-- Visits that do not fail find what they found before. -/
theorem Frontier.steps_eq_ok_of_le (hle : ∀ x ys, next x = .ok ys → next' x = .ok ys) {n : Nat}
    {f : Frontier α} (h : steps (Frontier.advance next) n f = .done (.ok visited)) :
    steps (Frontier.advance next') n f = .done (.ok visited) := by
  induction n generalizing f with
  | zero => exact nomatch h
  | succ n ih =>
    have hadvance : advance next' f = advance next f := by
      rw [steps] at h
      unfold advance at h ⊢
      split
      · rfl
      · split
        · rfl
        · next x rest hp hx =>
          simp only [hp, hx, if_false] at h
          cases hn : next x with
          | error e =>
            rw [hn] at h
            cases h
          | ok ys => rw [hle x ys hn]
    rw [steps] at h ⊢
    rw [hadvance]
    cases hf : advance next f with
    | done r =>
      rw [hf] at h
      exact h
    | more g =>
      rw [hf] at h
      exact ih h

/-- An exploration that does not fail visits the same where visits fail less often. -/
theorem Suffices.explore_eq_ok_of_le (hsuffices : Suffices next bound starts)
    (hle : ∀ x ys, next x = .ok ys → next' x = .ok ys) (hbound : bound ≤ bound')
    (h : explore next bound starts = .ok visited) : explore next' bound' starts = .ok visited := by
  have hdone := Frontier.steps_eq_ok_of_le hle (h ▸ hsuffices.steps_eq)
  have hpow : 2 ^ bound - 1 ≤ 2 ^ bound' - 1 :=
    Nat.sub_le_sub_right (Nat.pow_le_pow_right (by decide) hbound) 1
  rw [explore, bursts_eq_steps, Nat.add_zero, Nat.pow_zero, steps_done_of_le hdone hpow]

end

/-! ### Exploring under other names -/

/-- Visits by `next'` find under the names that `φ` gives what visits by `next` find, as long as
places stay where names tell them apart. -/
structure Renames (next : α → Except ε (List α)) (next' : β → Except ε (List β)) (φ : α → β)
    (named : α → Prop) : Prop where
  injective : ∀ x y, named x → named y → φ x = φ y → x = y
  visit : ∀ x, named x → next' (φ x) = (next x).map (List.map φ)
  named : ∀ x ys, named x → next x = .ok ys → ∀ y ∈ ys, named y

namespace Frontier

def map (φ : α → β) (f : Frontier α) : Frontier β := ⟨f.pending.map φ, f.visited.map φ⟩

/-- All places of the frontier have a name. -/
def Named (named : α → Prop) (f : Frontier α) : Prop :=
  (∀ x ∈ f.pending, named x) ∧ ∀ x ∈ f.visited, named x

end Frontier

namespace Renames
variable [DecidableEq α] {next : α → Except ε (List α)} {next' : β → Except ε (List β)}
  {φ : α → β} {named : α → Prop} {f g : Frontier α} (h : Renames next next' φ named)
include h

theorem named_advance (hf : f.Named named) (hg : Frontier.advance next f = .more g) :
    g.Named named := by
  rcases Frontier.advance_cases next f with
    ⟨_, he⟩ | ⟨x, rest, hp, ⟨hx, he⟩ | ⟨_, e, _, he⟩ | ⟨hx, ys, hn, he⟩⟩
  · rw [he] at hg
    cases hg
  · obtain rfl := Step.more.inj (he.symm.trans hg)
    exact ⟨fun y hy => hf.1 y (hp ▸ .tail _ hy), hf.2⟩
  · rw [he] at hg
    cases hg
  · obtain rfl := Step.more.inj (he.symm.trans hg)
    have hx := hf.1 x (hp ▸ .head _)
    constructor
    · intro y hy
      rcases List.mem_append.mp hy with hy | hy
      · exact h.named x ys hx hn y (List.mem_reverse.mp hy)
      · exact hf.1 y (hp ▸ .tail _ hy)
    · intro y hy
      rcases List.mem_cons.mp hy with rfl | hy
      · exact hx
      · exact hf.2 y hy

variable [DecidableEq β]

/-- A step under other names is the same step. -/
theorem advance_map (hf : f.Named named) :
    Frontier.advance next' (f.map φ) =
      match Frontier.advance next f with
      | .done r => .done (r.map (List.map φ))
      | .more g => .more (g.map φ) := by
  obtain ⟨pending, visited⟩ := f
  cases pending with
  | nil => simp [Frontier.advance, Frontier.map, Except.map]
  | cons x rest =>
    have hx := hf.1 x (.head _)
    have hmem : φ x ∈ visited.map φ ↔ x ∈ visited := by
      constructor
      · intro hx'
        obtain ⟨y, hy, heq⟩ := List.mem_map.mp hx'
        exact h.injective y x (hf.2 y hy) hx heq ▸ hy
      · exact List.mem_map_of_mem
    by_cases hvisited : x ∈ visited
    · simp [Frontier.advance, Frontier.map, hmem, hvisited]
    · cases hn : next x with
      | error e => simp [Frontier.advance, Frontier.map, hmem, hvisited, h.visit x hx, hn, Except.map]
      | ok ys => simp [Frontier.advance, Frontier.map, hmem, hvisited, h.visit x hx, hn, Except.map]

theorem steps_map (hf : f.Named named) (n : Nat) :
    steps (Frontier.advance next') n (f.map φ) =
      match steps (Frontier.advance next) n f with
      | .done r => .done (r.map (List.map φ))
      | .more g => .more (g.map φ) := by
  induction n generalizing f with
  | zero => rfl
  | succ n ih =>
    rw [steps, steps, h.advance_map hf]
    cases hs : Frontier.advance next f with
    | done r => rfl
    | more g => exact ih (h.named_advance hf hs)

/-- An exploration under other names takes the same steps. -/
theorem steps_start {starts : List α} (hstarts : ∀ s ∈ starts, named s) (n : Nat) :
    steps (Frontier.advance next') n ⟨(starts.map φ).reverse, []⟩ =
      match steps (Frontier.advance next) n ⟨starts.reverse, []⟩ with
      | .done r => .done (r.map (List.map φ))
      | .more g => .more (g.map φ) := by
  have hstart : (⟨starts.reverse, []⟩ : Frontier α).Named named :=
    ⟨fun s hs => hstarts s (List.mem_reverse.mp hs), nofun⟩
  rw [← h.steps_map hstart, Frontier.map, List.map_reverse, List.map_nil]

theorem explore_map {starts : List α} (hstarts : ∀ s ∈ starts, named s) (bound : Nat) :
    explore next' bound (starts.map φ) = (explore next bound starts).map (List.map φ) := by
  rw [explore, explore, bursts_eq_steps, bursts_eq_steps, h.steps_start hstarts]
  cases steps (Frontier.advance next) (2 ^ (bound + 0) - 2 ^ 0) ⟨starts.reverse, []⟩ with
  | done r => rfl
  | more g => simp [Frontier.map, Except.map]

/-- A bound that is large enough is so under other names. -/
theorem steps_eq {starts : List α} (hstarts : ∀ s ∈ starts, named s) {bound : Nat}
    (hsuffices : Suffices next bound starts) :
    steps (Frontier.advance next') (2 ^ bound - 1) ⟨(starts.map φ).reverse, []⟩ =
      .done (explore next' bound (starts.map φ)) := by
  rw [h.steps_start hstarts, hsuffices.steps_eq, h.explore_map hstarts]

end Renames

end Lookahead
