/-
  A stable sort by a key: insertion sort, which puts a value before the first one whose key is not
  smaller. On distinct keys the result depends on the set of values only.
-/
import Mathlib.Data.List.Sort
import Evener.Lib.KeyedList

namespace Evener.Lib

open List

variable {α κ : Type} [LinearOrder κ] (key : α → κ)

/-- The values in the order of their keys; values of one key keep their order. -/
def sortBy (l : List α) : List α := l.insertionSort fun a b => key a ≤ key b

variable {key}

theorem sortBy_perm (l : List α) : (sortBy key l).Perm l := perm_insertionSort _ l

theorem mem_sortBy {l : List α} {a : α} : a ∈ sortBy key l ↔ a ∈ l := (sortBy_perm l).mem_iff

theorem sortBy_pairwise (l : List α) : (sortBy key l).Pairwise fun a b => key a ≤ key b := by
  have : Std.Total fun a b : α => key a ≤ key b := ⟨fun a b => le_total (key a) (key b)⟩
  have : IsTrans α fun a b => key a ≤ key b := ⟨fun _ _ _ hab hbc => le_trans hab hbc⟩
  exact pairwise_insertionSort _ l

theorem sortBy_eq_self {l : List α} (h : l.Pairwise fun a b => key a ≤ key b) :
    sortBy key l = l := List.Pairwise.insertionSort_eq h

/-- Distinct keys leave one order only. -/
theorem sortBy_eq_of_perm {l l' : List α} (h : KeysNodup key l) (hp : l.Perm l') :
    sortBy key l = sortBy key l' := by
  refine List.Perm.eq_of_pairwise ?_ (sortBy_pairwise l) (sortBy_pairwise l')
    ((sortBy_perm l).trans (hp.trans (sortBy_perm l').symm))
  intro a b ha hb hab hba
  exact h.eq_of_key ((mem_sortBy).mp ha) (hp.mem_iff.mpr ((mem_sortBy).mp hb)) (le_antisymm hab hba)

/-- A value no larger than all of `l'` is inserted in front of it. -/
theorem orderedInsert_append {a : α} {l l' : List α} (h : ∀ b ∈ l', key a ≤ key b) :
    List.orderedInsert (fun x y => key x ≤ key y) a (l ++ l') =
      List.orderedInsert (fun x y => key x ≤ key y) a l ++ l' := by
  induction l with
  | nil =>
    cases l' with
    | nil => rfl
    | cons b l' => simp [h b mem_cons_self]
  | cons b l ih =>
    by_cases hab : key a ≤ key b
    · simp [hab]
    · simp [hab, ih]

theorem sortBy_append {l l' : List α} (h : ∀ a ∈ l, ∀ b ∈ l', key a ≤ key b) :
    sortBy key (l ++ l') = sortBy key l ++ sortBy key l' := by
  induction l with
  | nil => rfl
  | cons a l ih =>
    have hrest := ih fun x hx => h x (mem_cons_of_mem _ hx)
    have ha : ∀ b ∈ sortBy key l', key a ≤ key b :=
      fun b hb => h a mem_cons_self b ((mem_sortBy).mp hb)
    unfold sortBy at hrest ha ⊢
    rw [cons_append, insertionSort_cons, hrest, orderedInsert_append ha]
    rfl

end Evener.Lib
