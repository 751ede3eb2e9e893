/-
  Filling a page: the newest kept items are selected, one more than the limit if there are so
  many, and the end of what is kept is cut to size.
-/
import Evener.Apphistory.Paging

namespace Evener.Apphistory

open Evener.Lib List

/-! ## Selecting -/

def itemsOf (candidates : List TranscriptItemCandidate) : List ThreadItem :=
  candidates.map TranscriptItemCandidate.item

theorem selectNewest_items (selection : ThreadContentSelection) (limit : Nat)
    (selected cs : List TranscriptItemCandidate) (h : selected.length ≤ limit + 1) :
    itemsOf (selectNewest selection limit selected cs) =
      (itemsOf selected ++ (itemsOf cs).filterMap selection.item).take (limit + 1) := by
  unfold itemsOf
  induction cs generalizing selected with
  | nil =>
    rw [selectNewest, map_nil, filterMap_nil, append_nil,
      take_of_length_le (by rw [length_map]; exact h)]
  | cons c cs ih =>
    rw [selectNewest, map_cons]
    split
    · next hroom =>
      cases hitem : selection.item c.item with
      | none =>
        dsimp only
        rw [ih selected h, filterMap_cons_none hitem]
      | some item =>
        dsimp only
        rw [ih _ (by rw [length_append, length_singleton]; omega),
          filterMap_cons_some hitem, map_append, append_assoc]
        rfl
    · next hfull =>
      rw [take_append_of_le_length (by rw [length_map]; omega),
        take_of_length_le (by rw [length_map]; exact h)]

/-! ## Cutting -/

theorem keys_selected (selection : ThreadContentSelection) (items : List ThreadItem) :
    ((items.filterMap selection.item).map ThreadItem.transcriptKey).Sublist
      (items.map ThreadItem.transcriptKey) := by
  induction items with
  | nil => exact .slnil
  | cons item items ih =>
    cases hitem : selection.item item with
    | none =>
      rw [filterMap_cons_none hitem]
      exact ih.cons _
    | some shown =>
      rw [filterMap_cons_some hitem, map_cons, map_cons,
        (ThreadContentSelection.item_same hitem).1]
      exact ih.cons_cons _

theorem cutItems_spec (codec : Codec) (bytes : Nat) (selected : List TranscriptItemCandidate) :
    ∃ m, cutItems codec bytes selected = selected.drop m ∧ m ≤ selected.length ∧
      (selected ≠ [] → m < selected.length) := by
  fun_induction cutItems codec bytes selected with
  | case1 bytes first second rest _ ih =>
    obtain ⟨m, hcut, _, hm⟩ := ih
    have hm := hm (cons_ne_nil _ _)
    refine ⟨m + 1, hcut, ?_, fun _ => ?_⟩
    · simp only [length_cons] at hm ⊢
      omega
    · simp only [length_cons] at hm ⊢
      omega
  | case2 bytes first second rest _ => exact ⟨0, rfl, Nat.zero_le _, fun _ => by simp⟩
  | case3 bytes selected _ =>
    exact ⟨0, rfl, Nat.zero_le _, fun hne => length_pos_iff.mpr hne⟩

/-! ## The page -/

theorem itemsOf_drop (cs : List TranscriptItemCandidate) (m : Nat) :
    itemsOf (cs.drop m) = (itemsOf cs).drop m := map_drop

/-- The newest candidates, turned around and cut to the limit, are the end of what is kept. -/
theorem itemsOf_selected {newest : List TranscriptItemCandidate} {kept : List ThreadItem}
    {limit : Nat} (h : itemsOf newest = kept.reverse.take (limit + 1)) :
    itemsOf (newest.take limit).reverse = kept.drop (kept.length - limit) := by
  have htake : itemsOf (newest.take limit) = (kept.reverse.take (limit + 1)).take limit := by
    rw [← h]
    exact map_take
  rw [take_take, Nat.min_eq_left (Nat.le_succ limit), take_reverse] at htake
  show (newest.take limit).reverse.map TranscriptItemCandidate.item = _
  rw [map_reverse]
  show (itemsOf (newest.take limit)).reverse = _
  rw [htake, reverse_reverse]

end Evener.Apphistory
