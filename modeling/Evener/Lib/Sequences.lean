/-
  Lists that stand for one another element by element, and lists cut into the classes of a key.

  `flatMap_classes`: a list whose keys never decrease is the concatenation of its classes, taken
  over any increasing list of keys that covers it.
-/
import Mathlib.Data.List.Forall2
import Mathlib.Data.List.Pairwise
import Mathlib.Order.MinMax

namespace Evener.Lib

open List

variable {α β κ : Type}

/-! ## Lists that stand for one another -/

section Forall₂

variable {R : α → β → Prop} {l : List α} {l' : List β}

theorem exists_of_forall₂_right (h : List.Forall₂ R l l') {b : β} (hb : b ∈ l') :
    ∃ a ∈ l, R a b := by
  induction h with
  | nil => cases hb
  | cons hab _ ih =>
    rcases mem_cons.mp hb with rfl | hb
    · exact ⟨_, mem_cons_self, hab⟩
    · obtain ⟨a, ha, hab⟩ := ih hb
      exact ⟨a, mem_cons_of_mem _ ha, hab⟩

/-- A pairwise relation carried from one list to the one that stands for it. -/
theorem pairwise_of_forall₂ {S : α → α → Prop} {S' : β → β → Prop} (h : List.Forall₂ R l l')
    (hl : l.Pairwise S)
    (himp : ∀ a ∈ l, ∀ b, R a b → ∀ a' ∈ l, ∀ b', R a' b' → S a a' → S' b b') :
    l'.Pairwise S' := by
  induction h with
  | nil => exact List.Pairwise.nil
  | cons hab hrest ih =>
    obtain ⟨hhead, htail⟩ := pairwise_cons.mp hl
    refine pairwise_cons.mpr ⟨fun b' hb' => ?_, ih htail fun a ha b hab a' ha' =>
      himp a (mem_cons_of_mem _ ha) b hab a' (mem_cons_of_mem _ ha')⟩
    obtain ⟨a', ha', hab'⟩ := exists_of_forall₂_right hrest hb'
    exact himp _ mem_cons_self _ hab a' (mem_cons_of_mem _ ha') b' hab' (hhead a' ha')

end Forall₂

/-! ## Classes of a key -/

section Classes

variable [LinearOrder κ] {key : α → κ}

/-- The class of the least key comes first. -/
theorem filter_least_append {l : List α} (hl : l.Pairwise fun a b => key a ≤ key b) {k : κ}
    (hk : ∀ a ∈ l, k ≤ key a) :
    (l.filter fun a => key a = k) ++ (l.filter fun a => key a ≠ k) = l := by
  induction l with
  | nil => rfl
  | cons a l ih =>
    obtain ⟨hhead, htail⟩ := pairwise_cons.mp hl
    have hrest := ih htail fun b hb => hk b (mem_cons_of_mem _ hb)
    by_cases ha : key a = k
    · simp only [ha, filter_cons, ne_eq, decide_true, if_true, not_true_eq_false,
        decide_false, Bool.false_eq_true, if_false, cons_append]
      exact congrArg (a :: ·) hrest
    · -- every later key is above `k` too, so the class of `k` is empty
      have hnone : (l.filter fun b => decide (key b = k)) = [] := by
        refine filter_eq_nil_iff.mpr fun b hb hbk => ha ?_
        have hle : key a ≤ k := of_decide_eq_true hbk ▸ hhead b hb
        exact le_antisymm hle (hk a mem_cons_self)
      rw [hnone, nil_append] at hrest
      simp only [ha, filter_cons, ne_eq, decide_false, Bool.false_eq_true, if_false,
        not_false_eq_true, decide_true, if_true]
      rw [hnone, nil_append]
      exact congrArg (a :: ·) hrest

theorem flatMap_classes {l : List α} (hl : l.Pairwise fun a b => key a ≤ key b) {keys : List κ}
    (hkeys : keys.Pairwise (· < ·)) (hcover : ∀ a ∈ l, key a ∈ keys) :
    (keys.flatMap fun k => l.filter fun a => key a = k) = l := by
  induction keys generalizing l with
  | nil =>
    cases l with
    | nil => rfl
    | cons a l => exact absurd (hcover a mem_cons_self) not_mem_nil
  | cons k keys ih =>
    obtain ⟨hleast, htail⟩ := pairwise_cons.mp hkeys
    have hk : ∀ a ∈ l, k ≤ key a := by
      intro a ha
      rcases mem_cons.mp (hcover a ha) with h | h
      · exact h.ge
      · exact (hleast _ h).le
    have hsame : ∀ k' ∈ keys, (l.filter fun a => decide (key a = k')) =
        (l.filter fun a => key a ≠ k).filter fun a => decide (key a = k') := by
      intro k' hk'
      rw [filter_filter]
      refine filter_congr fun a _ => ?_
      by_cases ha : key a = k'
      · have hne : key a ≠ k := ha ▸ (hleast k' hk').ne'
        simp [ha, ha ▸ hne]
      · simp [ha]
    have hrest : (keys.flatMap fun k' => l.filter fun a => decide (key a = k')) =
        l.filter fun a => key a ≠ k := by
      rw [flatMap_congr hsame]
      refine ih (hl.sublist filter_sublist) htail fun a ha => ?_
      obtain ⟨hmem, hne⟩ := mem_filter.mp ha
      exact (mem_cons.mp (hcover a hmem)).resolve_left (of_decide_eq_true hne)
    rw [flatMap_cons, hrest]
    exact filter_least_append hl hk

theorem foldl_max_spec (l : List κ) (a : κ) :
    a ≤ l.foldl max a ∧ (∀ x ∈ l, x ≤ l.foldl max a) ∧ (l.foldl max a = a ∨ l.foldl max a ∈ l) := by
  induction l generalizing a with
  | nil => exact ⟨le_refl a, fun _ h => absurd h not_mem_nil, Or.inl rfl⟩
  | cons b l ih =>
    rw [foldl_cons]
    obtain ⟨hstart, hall, hmem⟩ := ih (max a b)
    refine ⟨le_trans (le_max_left a b) hstart, ?_, ?_⟩
    · intro x hx
      rcases mem_cons.mp hx with rfl | hx
      · exact le_trans (le_max_right a x) hstart
      · exact hall x hx
    · rcases hmem with heq | hmem
      · rw [heq]
        rcases max_choice a b with h | h
        · exact Or.inl h
        · rw [h]
          exact Or.inr mem_cons_self
      · exact Or.inr (mem_cons_of_mem _ hmem)

end Classes

end Evener.Lib
