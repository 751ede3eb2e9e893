/-
  Which pattern trees the expansion refuses: those whose spread is past the bound.

  A round shares out the spread of a tree among what it leaves, so the list that is built has as
  many texts as the spread says, however often the same text is in it.
-/
import Evener.GlobPattern.Expansion

namespace Evener.GlobPattern

open List
open Evener.Lib (Bytes)

/-! ## The size of the list that is built -/

/-- The expansion of a text makes a list of `n` texts, or is refused where that is too many. -/
def Makes (expandOne : Bytes → Except ExpandError (List Bytes)) (pattern : Bytes) (n : Nat) : Prop :=
  (n ≤ maxExpansions → ∃ r, expandOne pattern = .ok r ∧ r.length = n) ∧
    (maxExpansions < n → expandOne pattern = .error .limitExceeded)

theorem expandEach_makes {expandOne : Bytes → Except ExpandError (List Bytes)} :
    ∀ {qs : List Pattern}, (∀ q ∈ qs, Makes expandOne q.text q.spread) → ∀ {acc : List Bytes},
    acc.length ≤ maxExpansions →
    (acc.length + (qs.map Pattern.spread).sum ≤ maxExpansions →
      ∃ r, expandEach expandOne (qs.map Pattern.text) acc = .ok r ∧
        r.length = acc.length + (qs.map Pattern.spread).sum) ∧
    (maxExpansions < acc.length + (qs.map Pattern.spread).sum →
      expandEach expandOne (qs.map Pattern.text) acc = .error .limitExceeded)
  | [], _, acc, hacc => by
    simp only [map_nil, sum_nil, expandEach, Nat.add_zero]
    exact ⟨fun _ => ⟨acc, rfl, rfl⟩, fun hlarge => absurd hacc (Nat.not_le.mpr hlarge)⟩
  | q :: qs, h, acc, hacc => by
    obtain ⟨hfits, hlarge⟩ := h q mem_cons_self
    simp only [map_cons, sum_cons, expandEach]
    rcases Nat.lt_or_ge maxExpansions q.spread with hq | hq
    · rw [hlarge hq]
      exact ⟨fun hsum => by omega, fun _ => rfl⟩
    · obtain ⟨r, hr, hlength⟩ := hfits hq
      rw [hr]
      dsimp only
      split
      · exact ⟨fun hsum => by omega, fun _ => rfl⟩
      · have hadded : (acc ++ r).length ≤ maxExpansions := by
          rw [length_append]
          omega
        have hrest := expandEach_makes (fun q hq => h q (mem_cons_of_mem _ hq)) hadded
        rw [length_append, hlength, Nat.add_assoc] at hrest
        exact hrest

/-- Each round takes a group away, so the bound on the depth is out of reach. -/
theorem expandWithin_makes : ∀ {left : Nat} {p : Pattern}, p.groups < left → p.Fits false →
    Makes (expandWithin left) p.text p.spread
  | 0, _, h, _ => absurd h (Nat.not_lt_zero _)
  | left + 1, p, h, hfits => by
    obtain ⟨qs, hqs, hrun⟩ | ⟨q, -, hq, hrun⟩ | ⟨hmany, -, hrun⟩ := expandWithin_cases left hfits
    · have hparts : ∀ q ∈ qs, Makes (expandWithin left) q.text q.spread := by
        intro q hq
        have hlt := Pattern.splices_groups hqs q hq
        exact expandWithin_makes (by omega) (Pattern.splices_fits hfits hqs q hq)
      have hnone : ([] : List Bytes).length ≤ maxExpansions := Nat.zero_le _
      have hall := expandEach_makes hparts hnone
      rw [Pattern.splices_spread hqs, length_nil, Nat.zero_add] at hall
      unfold Makes
      rw [hrun]
      exact hall
    · have hlt := Pattern.splices_groups hq q mem_cons_self
      have hspread := Pattern.splices_spread hq
      rw [map_singleton, sum_singleton] at hspread
      have hfewer : q.groups < left := by omega
      have hone := expandWithin_makes hfewer (Pattern.splices_fits hfits hq q mem_cons_self)
      unfold Makes at hone ⊢
      rw [hrun, ← hspread]
      exact hone
    · unfold Makes
      rw [hrun, Pattern.spread_eq_one hmany]
      exact ⟨fun _ => ⟨_, rfl, rfl⟩, fun hlarge => absurd hlarge (by decide)⟩

theorem expand_error_iff {pattern : Bytes} :
    (∃ err, expand pattern = .error err) ↔ ∃ err, expandAt pattern 0 = .error err := by
  unfold expand
  cases expandAt pattern 0 with
  | error err => simp [Except.map]
  | ok r => simp [Except.map]

theorem tree_refused_iff {t : PatternTree} (h : t.groups < 128) :
    (∃ err, expand t.text = .error err) ↔ maxExpansions < t.spread := by
  have hleft : t.groups < maxExpansions + 1 - 0 := Nat.lt_of_lt_of_le h (by decide)
  obtain ⟨hfits, hlarge⟩ := expandWithin_makes hleft t.fits
  rw [expand_error_iff]
  constructor
  · rintro ⟨err, herr⟩
    by_contra hle
    obtain ⟨r, hr, -⟩ := hfits (Nat.le_of_not_lt hle)
    have herr : expandWithin (maxExpansions + 1 - 0) t.root.text = .error err := herr
    rw [hr] at herr
    cases herr
  · exact fun hspread => ⟨_, hlarge hspread⟩

end Evener.GlobPattern
