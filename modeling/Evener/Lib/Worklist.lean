/-
  A worklist: visit what is reached from a start, each node once, and stop at the first error.

  It ends when the nodes that can be expanded are finitely many (`explore_ends`).
-/
import Mathlib.Data.List.Basic
import Mathlib.Logic.Relation

namespace Evener.Lib

open List

variable {α ε : Type} [DecidableEq α] (expand : α → Except ε (List α))

/-- The nodes that are seen, the newest first; `none` where the walk goes on. -/
def explore : Nat → List α → List α → Option (Except ε (List α))
  | 0, _, _ => none
  | _ + 1, [], seen => some (.ok seen)
  | fuel + 1, a :: pending, seen =>
    if a ∈ seen then explore fuel pending seen
    else
      match expand a with
      | .error e => some (.error e)
      | .ok next => explore fuel ((next.filter (· ∉ a :: seen)).reverse ++ pending) (a :: seen)

/-- One node is reached from another in one expansion. -/
def Expands (a b : α) : Prop := ∃ next, expand a = .ok next ∧ b ∈ next

abbrev Reaches : α → α → Prop := Relation.ReflTransGen (Expands expand)

/-! ## What a walk sees -/

/-- What a walk from `start` knows of its nodes. -/
structure Explored (start : α) (pending seen : List α) : Prop where
  reached : ∀ a, a ∈ pending ∨ a ∈ seen → Reaches expand start a
  start : start ∈ pending ∨ start ∈ seen
  closed : ∀ a ∈ seen, ∃ next, expand a = .ok next ∧ ∀ b ∈ next, b ∈ pending ∨ b ∈ seen

variable {expand} {start : α} {pending seen : List α}

omit [DecidableEq α] in
theorem Explored.initial (start : α) : Explored expand start [start] [] where
  reached a ha := by
    rcases ha with ha | ha
    · rw [mem_singleton.mp ha]
    · cases ha
  start := Or.inl (mem_singleton_self start)
  closed a ha := by cases ha

omit [DecidableEq α] in
theorem Explored.skip {a : α} (h : Explored expand start (a :: pending) seen) (ha : a ∈ seen) :
    Explored expand start pending seen := by
  have hkeeps : ∀ b, b ∈ a :: pending ∨ b ∈ seen → b ∈ pending ∨ b ∈ seen := by
    intro b hb
    rcases hb with hb | hb
    · rcases mem_cons.mp hb with rfl | hb
      · exact Or.inr ha
      · exact Or.inl hb
    · exact Or.inr hb
  refine ⟨fun b hb => h.reached b (hb.imp (mem_cons_of_mem a) id), hkeeps _ h.start, ?_⟩
  intro b hb
  obtain ⟨next, hnext, hclosed⟩ := h.closed b hb
  exact ⟨next, hnext, fun c hc => hkeeps c (hclosed c hc)⟩

theorem Explored.visit {a : α} (h : Explored expand start (a :: pending) seen) {next : List α}
    (hnext : expand a = .ok next) :
    Explored expand start ((next.filter (· ∉ a :: seen)).reverse ++ pending) (a :: seen) := by
  have hhere : Reaches expand start a := h.reached a (Or.inl mem_cons_self)
  have hkeeps : ∀ b, b ∈ a :: pending ∨ b ∈ seen →
      b ∈ (next.filter (· ∉ a :: seen)).reverse ++ pending ∨ b ∈ a :: seen := by
    intro b hb
    rcases hb with hb | hb
    · rcases mem_cons.mp hb with rfl | hb
      · exact Or.inr mem_cons_self
      · exact Or.inl (mem_append_right _ hb)
    · exact Or.inr (mem_cons_of_mem a hb)
  refine ⟨fun b hb => ?_, hkeeps _ h.start, fun b hb => ?_⟩
  · rcases hb with hb | hb
    · rcases mem_append.mp hb with hb | hb
      · have hb' := mem_of_mem_filter (mem_reverse.mp hb)
        exact hhere.tail ⟨next, hnext, hb'⟩
      · exact h.reached b (Or.inl (mem_cons_of_mem a hb))
    · rcases mem_cons.mp hb with rfl | hb
      · exact hhere
      · exact h.reached b (Or.inr hb)
  · rcases mem_cons.mp hb with rfl | hb
    · refine ⟨next, hnext, fun c hc => ?_⟩
      by_cases hseen : c ∈ b :: seen
      · exact Or.inr hseen
      · exact Or.inl (mem_append_left _ (mem_reverse.mpr
          (mem_filter.mpr ⟨hc, decide_eq_true hseen⟩)))
    · obtain ⟨next', hnext', hclosed⟩ := h.closed b hb
      exact ⟨next', hnext', fun c hc => hkeeps c (hclosed c hc)⟩

omit [DecidableEq α] in
/-- With nothing left to do, everything that is reached has been seen. -/
theorem Explored.all (h : Explored expand start [] seen) {a : α} (ha : Reaches expand start a) :
    a ∈ seen := by
  induction ha with
  | refl => exact h.start.resolve_left (not_mem_nil)
  | tail _ hstep ih =>
    obtain ⟨next, hnext, hclosed⟩ := h.closed _ ih
    obtain ⟨next', hnext', hmem⟩ := hstep
    rw [hnext] at hnext'
    cases hnext'
    exact (hclosed _ hmem).resolve_left (not_mem_nil)

/-- A walk sees what is reached, all of which expands, or stops at something reached that does
    not. -/
theorem explore_spec {fuel : Nat} {r : Except ε (List α)} (h : Explored expand start pending seen)
    (hexplore : explore expand fuel pending seen = some r) :
    (∃ all, r = .ok all ∧ (∀ a, a ∈ all ↔ Reaches expand start a) ∧
      ∀ a ∈ all, ∃ next, expand a = .ok next) ∨
    ∃ e a, r = .error e ∧ Reaches expand start a ∧ expand a = .error e := by
  induction fuel generalizing pending seen with
  | zero => cases hexplore
  | succ fuel ih =>
    cases pending with
    | nil =>
      cases hexplore
      refine Or.inl ⟨seen, rfl, fun a => ⟨fun ha => h.reached a (Or.inr ha), h.all⟩, fun a ha => ?_⟩
      obtain ⟨next, hnext, _⟩ := h.closed a ha
      exact ⟨next, hnext⟩
    | cons a pending =>
      unfold explore at hexplore
      split at hexplore
      · next ha => exact ih (h.skip ha) hexplore
      · split at hexplore
        · next e herror =>
          cases hexplore
          exact Or.inr ⟨e, a, rfl, h.reached a (Or.inl mem_cons_self), herror⟩
        · next next hnext => exact ih (h.visit hnext) hexplore

/-! ## The end -/

/-- The nodes that a walk may still expand. -/
def unseen (nodes seen : List α) : List α := nodes.filter (· ∉ seen)

theorem length_unseen_cons {nodes seen : List α} {a : α} (ha : a ∈ nodes) (hnew : a ∉ seen) :
    (unseen nodes (a :: seen)).length < (unseen nodes seen).length := by
  have hfewer : unseen nodes (a :: seen) = (unseen nodes seen).filter (· ≠ a) := by
    unfold unseen
    rw [filter_filter]
    apply filter_congr
    intro b _
    simp [not_or]
  rw [hfewer]
  apply length_filter_lt_length_iff_exists.mpr
  exact ⟨a, mem_filter.mpr ⟨ha, decide_eq_true hnew⟩, by simp⟩

/-- A walk ends when the nodes that expand are among finitely many. -/
theorem explore_ends (nodes : List α) (hnodes : ∀ a next, expand a = .ok next → a ∈ nodes)
    (pending seen : List α) :
    ∃ bound, ∀ fuel, bound ≤ fuel → ∃ r, explore expand fuel pending seen = some r := by
  induction hleft : (unseen nodes seen).length using Nat.strongRecOn
    generalizing pending seen with
  | ind left ih =>
    induction pending with
    | nil =>
      refine ⟨1, fun fuel hfuel => ?_⟩
      obtain ⟨fuel, rfl⟩ := Nat.exists_eq_succ_of_ne_zero (by omega : fuel ≠ 0)
      exact ⟨_, rfl⟩
    | cons a pending ihpending =>
      -- one step, and what the rest of the walk needs
      have hstep : ∀ bound, (∀ fuel, bound ≤ fuel → ∃ r,
          explore expand (fuel + 1) (a :: pending) seen = some r) →
          ∃ bound, ∀ fuel, bound ≤ fuel → ∃ r,
            explore expand fuel (a :: pending) seen = some r := by
        intro bound hrest
        refine ⟨bound + 1, fun fuel hfuel => ?_⟩
        obtain ⟨fuel, rfl⟩ := Nat.exists_eq_succ_of_ne_zero (by omega : fuel ≠ 0)
        exact hrest fuel (by omega)
      by_cases ha : a ∈ seen
      · obtain ⟨bound, hbound⟩ := ihpending
        apply hstep bound
        intro fuel hfuel
        rw [explore, if_pos ha]
        exact hbound fuel hfuel
      · cases hexpand : expand a with
        | error e =>
          apply hstep 0
          intro fuel _
          rw [explore, if_neg ha, hexpand]
          exact ⟨_, rfl⟩
        | ok next =>
          have hless := length_unseen_cons (hnodes a next hexpand) ha
          obtain ⟨bound, hbound⟩ := ih _ (hleft ▸ hless)
            ((next.filter (· ∉ a :: seen)).reverse ++ pending) (a :: seen) rfl
          apply hstep bound
          intro fuel hfuel
          rw [explore, if_neg ha, hexpand]
          exact hbound fuel hfuel

theorem explore_succ {fuel : Nat} {r : Except ε (List α)}
    (h : explore expand fuel pending seen = some r) :
    explore expand (fuel + 1) pending seen = some r := by
  induction fuel generalizing pending seen with
  | zero => cases h
  | succ fuel ih =>
    cases pending with
    | nil => exact h
    | cons a pending =>
      rw [explore] at h ⊢
      split
      · next ha =>
        rw [if_pos ha] at h
        exact ih h
      · next ha =>
        rw [if_neg ha] at h
        cases hexpand : expand a with
        | error e =>
          rw [hexpand] at h
          exact h
        | ok next =>
          rw [hexpand] at h
          exact ih h

/-- More fuel changes nothing. -/
theorem explore_mono {fuel more : Nat} {r : Except ε (List α)}
    (h : explore expand fuel pending seen = some r) (hmore : fuel ≤ more) :
    explore expand more pending seen = some r := by
  induction hmore with
  | refl => exact h
  | step _ ih => exact explore_succ ih

/-- The one end of a walk. -/
theorem explore_result (nodes : List α) (hnodes : ∀ a next, expand a = .ok next → a ∈ nodes)
    (pending seen : List α) :
    ∃ bound r, ∀ fuel, bound ≤ fuel → explore expand fuel pending seen = some r := by
  obtain ⟨bound, hbound⟩ := explore_ends nodes hnodes pending seen
  obtain ⟨r, hr⟩ := hbound bound (Nat.le_refl bound)
  exact ⟨bound, r, fun fuel hfuel => explore_mono hr hfuel⟩

end Evener.Lib
