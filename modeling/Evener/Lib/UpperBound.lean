/-
  Upper-bound binary search on a list, and insertion at the index it finds: on a list sorted by a
  total preorder it stays sorted, and the element comes after every tie.
-/
import Mathlib.Data.List.Pairwise
import Mathlib.Data.List.Perm.Basic

namespace Evener.Lib

open List

variable {α : Type}

/-- The search loop. The fuel bounds `high - low`. -/
def upperBoundLoop (p : α → Bool) (l : List α) : Nat → Nat → Nat → Nat
  | 0, low, _ => low
  | fuel + 1, low, high =>
    if low < high then
      match l[(low + high) / 2]? with
      | some a =>
        if p a then upperBoundLoop p l fuel ((low + high) / 2 + 1) high
        else upperBoundLoop p l fuel low ((low + high) / 2)
      | none => low
    else low

/-- The number of leading elements of `l` that satisfy `p`, by binary search. -/
def upperBound (p : α → Bool) (l : List α) : Nat := upperBoundLoop p l l.length 0 l.length

/-- Insert `a` at index `n`. -/
def insertAt (n : Nat) (a : α) (l : List α) : List α := l.take n ++ a :: l.drop n

/-- `p` holds on a prefix of `l` only. -/
def Partitioned (p : α → Bool) (l : List α) : Prop := l.Pairwise fun a b => p b → p a

theorem Partitioned.of_le {p : α → Bool} {l : List α} (h : Partitioned p l) {i j : Nat}
    (hij : i ≤ j) {a b : α} (ha : l[i]? = some a) (hb : l[j]? = some b) (hp : p b) : p a := by
  rcases Nat.lt_or_eq_of_le hij with hlt | rfl
  · obtain ⟨hi, rfl⟩ := List.getElem?_eq_some_iff.mp ha
    obtain ⟨hj, rfl⟩ := List.getElem?_eq_some_iff.mp hb
    exact pairwise_iff_getElem.mp h i j hi hj hlt hp
  · rw [ha] at hb
    cases hb
    exact hp

/-- The loop invariant: everything below `low` satisfies `p`, nothing from `high` on does. -/
structure SearchInv (p : α → Bool) (l : List α) (low high : Nat) : Prop where
  le : low ≤ high
  bound : high ≤ l.length
  below : ∀ i a, i < low → l[i]? = some a → p a
  above : ∀ i a, high ≤ i → l[i]? = some a → ¬ p a

theorem upperBoundLoop_inv {p : α → Bool} {l : List α} (hl : Partitioned p l) :
    ∀ fuel low high, high - low ≤ fuel → SearchInv p l low high →
      SearchInv p l (upperBoundLoop p l fuel low high) (upperBoundLoop p l fuel low high) := by
  intro fuel
  induction fuel with
  | zero =>
    intro low high hf h
    have hle := h.le
    have : high = low := by omega
    subst this
    exact h
  | succ fuel ih =>
    intro low high hf h
    have hbound := h.bound
    unfold upperBoundLoop
    split
    · next hlt =>
      have hmid : (low + high) / 2 < l.length := by omega
      rw [getElem?_eq_getElem hmid]
      have hget : l[(low + high) / 2]? = some l[(low + high) / 2] :=
        getElem?_eq_getElem hmid
      dsimp only
      split
      · next hp =>
        refine ih _ _ (by omega) ⟨by omega, hbound, ?_, h.above⟩
        intro i a hi ha
        exact hl.of_le (by omega) ha hget hp
      · next hp =>
        refine ih _ _ (by omega) ⟨by omega, by omega, h.below, ?_⟩
        intro i a hi ha hpa
        exact hp (hl.of_le hi hget ha hpa)
    · next hlt =>
      have hle := h.le
      have : high = low := by omega
      subst this
      exact h

theorem upperBound_spec {p : α → Bool} {l : List α} (hl : Partitioned p l) :
    SearchInv p l (upperBound p l) (upperBound p l) := by
  refine upperBoundLoop_inv hl _ _ _ (by omega) ⟨Nat.zero_le _, Nat.le_refl _, ?_, ?_⟩
  · intro i a hi
    exact absurd hi (Nat.not_lt_zero i)
  · intro i a hi ha
    obtain ⟨hlt, -⟩ := List.getElem?_eq_some_iff.mp ha
    omega

/-- Every element the search leaves in front satisfies `p`. -/
theorem mem_take_upperBound {p : α → Bool} {l : List α} (hl : Partitioned p l) {a : α}
    (ha : a ∈ l.take (upperBound p l)) : p a := by
  obtain ⟨i, hi⟩ := mem_iff_getElem?.mp ha
  rw [getElem?_take] at hi
  split at hi
  · next hlt => exact (upperBound_spec hl).below i a hlt hi
  · cases hi

/-- No element the search leaves behind satisfies `p`. -/
theorem mem_drop_upperBound {p : α → Bool} {l : List α} (hl : Partitioned p l) {a : α}
    (ha : a ∈ l.drop (upperBound p l)) : ¬ p a := by
  obtain ⟨i, hi⟩ := mem_iff_getElem?.mp ha
  rw [getElem?_drop] at hi
  exact (upperBound_spec hl).above _ a (by omega) hi

theorem insertAt_perm (n : Nat) (a : α) (l : List α) : (insertAt n a l).Perm (a :: l) := by
  unfold insertAt
  exact perm_middle.trans (by rw [take_append_drop])

theorem mem_insertAt {n : Nat} {a b : α} {l : List α} :
    b ∈ insertAt n a l ↔ b = a ∨ b ∈ l := by
  rw [(insertAt_perm n a l).mem_iff, mem_cons]

section Sorted

variable {r : α → α → Prop} [DecidableRel r]

theorem partitioned_of_pairwise (htrans : ∀ a b c, r a b → r b c → r a c) {l : List α}
    (hl : l.Pairwise r) (x : α) : Partitioned (fun a => decide (r a x)) l := by
  refine List.Pairwise.imp ?_ hl
  intro a b hab hb
  exact decide_eq_true (htrans a b x hab (of_decide_eq_true hb))

/-- Inserting at the upper bound keeps a list sorted by a total preorder sorted. -/
theorem pairwise_insertAt_upperBound (htrans : ∀ a b c, r a b → r b c → r a c)
    (htotal : ∀ a b, r a b ∨ r b a) {l : List α} (hl : l.Pairwise r) (x : α) :
    (insertAt (upperBound (fun a => decide (r a x)) l) x l).Pairwise r := by
  have hpart := partitioned_of_pairwise htrans hl x
  have hbefore : ∀ a ∈ l.take (upperBound (fun a => decide (r a x)) l), r a x :=
    fun a ha => of_decide_eq_true (mem_take_upperBound hpart ha)
  have hafter : ∀ b ∈ l.drop (upperBound (fun a => decide (r a x)) l), r x b := by
    intro b hb
    have hnot : ¬ r b x := fun h => mem_drop_upperBound hpart hb (decide_eq_true h)
    exact (htotal x b).resolve_right hnot
  have hsplit := hl
  rw [← take_append_drop (upperBound (fun a => decide (r a x)) l) l] at hsplit
  obtain ⟨h1, h2, h12⟩ := pairwise_append.mp hsplit
  refine pairwise_append.mpr ⟨h1, pairwise_cons.mpr ⟨hafter, h2⟩, ?_⟩
  intro a ha b hb
  rcases mem_cons.mp hb with rfl | hb
  · exact hbefore a ha
  · exact h12 a ha b hb

omit [DecidableRel r] in
/-- In a list without ties, two members that precede each other are one. -/
theorem eq_of_pairwise_not {l : List α} (h : l.Pairwise fun a b => ¬ r b a) {a b : α}
    (ha : a ∈ l) (hb : b ∈ l) (hab : r a b) (hba : r b a) : a = b := by
  have : Std.Symm fun x y => r x y → r y x → x = y :=
    ⟨fun x y hxy hyx hxy' => (hxy hxy' hyx).symm⟩
  have hpair : l.Pairwise fun x y => r x y → r y x → x = y :=
    h.imp fun {x y} hnot _ hyx => absurd hyx hnot
  exact hpair.forall_of_forall (fun x _ _ _ => rfl) ha hb hab hba

end Sorted

end Evener.Lib
