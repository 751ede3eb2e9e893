/-
  Transcript positions (`transcriptHistory.ts`, `comparePositions`).

  `PosLe` is a total preorder and not an order: a missing `sub` and `sub = 0` tie, and so do any
  two absent positions.
-/
import Mathlib.Data.Prod.Lex
import Mathlib.Order.Lattice
import Mathlib.Order.Lattice.Nat

namespace Evener.Transcript

/-- The wire `ThreadItemPosition`. -/
structure ThreadItemPosition where
  entry : Nat
  item : Nat
  sub : Option Nat := none
deriving DecidableEq, Repr

/-- `a || b` on numbers: `a` unless it is 0. -/
def orElseInt (a b : Int) : Int := if a = 0 then b else a

def comparePositions : Option ThreadItemPosition → Option ThreadItemPosition → Int
  | some left, some right =>
    orElseInt ((left.entry : Int) - right.entry)
      (orElseInt ((left.item : Int) - right.item)
        ((left.sub.getD 0 : Int) - (right.sub.getD 0 : Int)))
  | some _, none => -1
  | none, some _ => 1
  | none, none => 0

/-- `left` sorts no later than `right`. -/
def PosLe (left right : Option ThreadItemPosition) : Prop := comparePositions left right ≤ 0

instance : DecidableRel PosLe := fun _ _ => inferInstanceAs (Decidable (_ ≤ _))

/-- The lexicographic rank behind `comparePositions`. -/
def posRank : Option ThreadItemPosition → Nat ×ₗ Nat ×ₗ Nat ×ₗ Nat
  | none => toLex (1, toLex (0, toLex (0, 0)))
  | some p => toLex (0, toLex (p.entry, toLex (p.item, p.sub.getD 0)))

theorem posLe_iff_rank (left right : Option ThreadItemPosition) :
    PosLe left right ↔ posRank left ≤ posRank right := by
  unfold PosLe
  cases left with
  | none => cases right <;> simp [comparePositions, posRank, Prod.Lex.toLex_le_toLex]
  | some l =>
    cases right with
    | none => simp [comparePositions, posRank, Prod.Lex.toLex_le_toLex]
    | some r =>
      simp only [comparePositions, posRank, Prod.Lex.toLex_le_toLex, orElseInt, lt_irrefl,
        true_and, false_or]
      split_ifs <;> omega

theorem posLe_trans (a b c : Option ThreadItemPosition) (h : PosLe a b) (h' : PosLe b c) :
    PosLe a c := by
  rw [posLe_iff_rank] at h h' ⊢
  exact h.trans h'

theorem posLe_total (a b : Option ThreadItemPosition) : PosLe a b ∨ PosLe b a := by
  rw [posLe_iff_rank, posLe_iff_rank]
  exact le_total _ _

end Evener.Transcript
