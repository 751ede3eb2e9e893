/-
  Searches by levels: a place is looked for at the strictest level first, and at the next level
  only when no place from the start on is found.
-/
import Mathlib.Data.List.Basic

namespace Evener.Lib

variable {μ : Type}

/-- The first place from `start` on. -/
def FirstFrom (P : Nat → Prop) (start k : Nat) : Prop :=
  start ≤ k ∧ P k ∧ ∀ i, start ≤ i → i < k → ¬P i

/-- The first place at the first level that has a place from `start` on. -/
inductive BestMatch (P : μ → Nat → Prop) (start k : Nat) : List μ → Prop where
  | here {level : μ} {levels : List μ} (h : FirstFrom (P level) start k) :
      BestMatch P start k (level :: levels)
  | later {level : μ} {levels : List μ} (hnone : ∀ i, start ≤ i → ¬P level i)
      (h : BestMatch P start k levels) : BestMatch P start k (level :: levels)

def searchLevels (search : μ → Option Nat) : List μ → Option Nat
  | [] => none
  | level :: levels => search level <|> searchLevels search levels

/-- What a search at one level has to answer. -/
structure Finds (search : Option Nat) (P : Nat → Prop) (start : Nat) : Prop where
  found : ∀ k, search = some k ↔ FirstFrom P start k
  missed : search = none ↔ ∀ i, start ≤ i → ¬P i

section Levels

variable {search : μ → Option Nat} {P : μ → Nat → Prop} {start : Nat}

theorem BestMatch.first_le {levels : List μ} {k : Nat} (h : BestMatch P start k levels) :
    start ≤ k := by
  induction h with
  | here h => exact h.1
  | later _ _ ih => exact ih

theorem BestMatch.holds {levels : List μ} {k : Nat} (h : BestMatch P start k levels) :
    ∃ level ∈ levels, P level k := by
  induction h with
  | here h => exact ⟨_, List.mem_cons_self, h.2.1⟩
  | later _ _ ih =>
    obtain ⟨level, hmem, hk⟩ := ih
    exact ⟨level, List.mem_cons_of_mem _ hmem, hk⟩

theorem searchLevels_eq_some (hfinds : ∀ level, Finds (search level) (P level) start)
    (levels : List μ) (k : Nat) :
    searchLevels search levels = some k ↔ BestMatch P start k levels := by
  induction levels with
  | nil =>
    constructor
    · intro h
      cases h
    · intro h
      cases h
  | cons level levels ih =>
    unfold searchLevels
    cases hlevel : search level with
    | none =>
      have hnone := (hfinds level).missed.mp hlevel
      constructor
      · intro h
        exact .later hnone (ih.mp h)
      · intro h
        cases h with
        | here h => exact absurd h.2.1 (hnone k h.1)
        | later _ h => exact ih.mpr h
    | some i =>
      have hfirst := ((hfinds level).found i).mp hlevel
      constructor
      · intro h
        obtain rfl := Option.some.inj h
        exact .here hfirst
      · intro h
        cases h with
        | here h => exact hlevel.symm.trans (((hfinds level).found k).mpr h)
        | later hnone _ => exact absurd hfirst.2.1 (hnone i hfirst.1)

theorem searchLevels_eq_none (hfinds : ∀ level, Finds (search level) (P level) start)
    (levels : List μ) :
    searchLevels search levels = none ↔ ∀ level ∈ levels, ∀ i, start ≤ i → ¬P level i := by
  induction levels with
  | nil => exact ⟨fun _ level hmem => absurd hmem List.not_mem_nil, fun _ => rfl⟩
  | cons level levels ih =>
    rw [List.forall_mem_cons]
    unfold searchLevels
    cases hlevel : search level with
    | none =>
      have hnone := (hfinds level).missed.mp hlevel
      exact ⟨fun h => ⟨hnone, ih.mp h⟩, fun h => ih.mpr h.2⟩
    | some i =>
      have hfirst := ((hfinds level).found i).mp hlevel
      constructor
      · intro h
        cases h
      · intro h
        exact absurd hfirst.2.1 (h.1 i hfirst.1)

end Levels

end Evener.Lib
