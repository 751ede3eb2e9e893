/-
  Decimal numerals as bytes: writing one, and reading one that has no other spelling.
-/
import Evener.Lib.Lines
import Mathlib.Data.List.Induction

namespace Evener.Lib

open List

def isDigit (b : UInt8) : Bool := 48 ≤ b && b ≤ 57

/-- `%d`. -/
def decimal (n : Nat) : Bytes := (Nat.toDigits 10 n).map fun c => UInt8.ofNat c.toNat

def numeralValue (digits : Bytes) : Nat := digits.foldl (fun n b => 10 * n + (b.toNat - 48)) 0

/-- `strconv.ParseUint` in base 10. -/
def parseUint (s : Bytes) (bitSize : Nat) : Option Nat :=
  if s = [] ∨ ¬ s.all isDigit then none
  else if numeralValue s < 2 ^ bitSize then some (numeralValue s)
  else none

/-! ## Writing -/

theorem decimal_digits (n : Nat) : ∀ b ∈ decimal n, isDigit b = true := by
  intro b hb
  obtain ⟨c, hc, rfl⟩ := mem_map.mp hb
  have hdigit := Nat.isDigit_of_mem_toDigits (by decide) (by decide) hc
  have hall : ∀ k, k ≤ 57 → 48 ≤ k → isDigit (UInt8.ofNat k) = true := by decide
  unfold Char.isDigit at hdigit
  rw [Bool.and_eq_true, decide_eq_true_eq, decide_eq_true_eq] at hdigit
  exact hall c.toNat hdigit.2 hdigit.1

theorem not_mem_decimal {b : UInt8} (h : isDigit b = false) (n : Nat) : b ∉ decimal n := by
  intro hb
  rw [decimal_digits n b hb] at h
  exact nomatch h

theorem length_decimal (n : Nat) : (decimal n).length = (Nat.toDigits 10 n).length := by
  unfold decimal
  rw [length_map]

theorem decimal_ne_nil (n : Nat) : decimal n ≠ [] := by
  have hpos : 0 < (Nat.toDigits 10 n).length := Nat.length_toDigits_pos
  rw [← length_decimal] at hpos
  exact length_pos_iff.mp hpos

theorem decimal_digit {d : Nat} (h : d < 10) : decimal d = [UInt8.ofNat (48 + d)] := by
  have hall : ∀ d < 10, decimal d = [UInt8.ofNat (48 + d)] := by decide
  exact hall d h

/-- A digit more. -/
theorem decimal_append {n d : Nat} (hn : 0 < n) (hd : d < 10) :
    decimal n ++ decimal d = decimal (10 * n + d) := by
  unfold decimal
  rw [← map_append, Nat.toDigits_append_toDigits (by decide) hn hd]

/-! ## Reading -/

theorem digit_value {b : UInt8} (h : isDigit b = true) :
    b.toNat - 48 < 10 ∧ b = UInt8.ofNat (48 + (b.toNat - 48)) := by
  unfold isDigit at h
  rw [Bool.and_eq_true, decide_eq_true_eq, decide_eq_true_eq, UInt8.le_iff_toNat_le,
    UInt8.le_iff_toNat_le] at h
  have hlow : (48 : UInt8).toNat = 48 := rfl
  have hhigh : (57 : UInt8).toNat = 57 := rfl
  refine ⟨by omega, UInt8.toNat_inj.mp ?_⟩
  rw [UInt8.toNat_ofNat']
  omega

theorem numeralValue_append (digits : Bytes) (b : UInt8) :
    numeralValue (digits ++ [b]) = 10 * numeralValue digits + (b.toNat - 48) := by
  unfold numeralValue
  rw [foldl_append]
  rfl

theorem numeralValue_decimal (n : Nat) : numeralValue (decimal n) = n := by
  induction n using Nat.strongRecOn with
  | ind n ih =>
    by_cases hn : n < 10
    · have hall : ∀ d < 10, numeralValue (decimal d) = d := by decide
      exact hall n hn
    · have hpos : 0 < n / 10 := by omega
      have hdigit : n % 10 < 10 := Nat.mod_lt _ (by decide)
      have hsplit : n = 10 * (n / 10) + n % 10 := by omega
      have hlast : (UInt8.ofNat (48 + n % 10)).toNat - 48 = n % 10 := by
        rw [UInt8.toNat_ofNat']
        omega
      conv_lhs => rw [hsplit, ← decimal_append hpos hdigit, decimal_digit hdigit]
      rw [numeralValue_append, ih (n / 10) (by omega), hlast]
      omega

/-- Digits without a leading zero, unless they are one. -/
def Canonical (s : Bytes) : Prop :=
  s ≠ [] ∧ (∀ b ∈ s, isDigit b = true) ∧ (1 < s.length → s.head? ≠ some 48)

instance (s : Bytes) : Decidable (Canonical s) := inferInstanceAs (Decidable (_ ∧ _ ∧ _))

theorem decimal_numeralValue {s : Bytes} (h : Canonical s) : decimal (numeralValue s) = s := by
  induction s using List.reverseRecOn with
  | nil => exact absurd rfl h.1
  | append_singleton digits b ih =>
    obtain ⟨_, hdigits, hlead⟩ := h
    obtain ⟨hsmall, hb⟩ := digit_value (hdigits b (by simp))
    rw [numeralValue_append]
    by_cases hempty : digits = []
    · subst hempty
      have hzero : 10 * numeralValue [] + (b.toNat - 48) = b.toNat - 48 := by
        unfold numeralValue
        rw [foldl_nil]
        omega
      rw [hzero, decimal_digit hsmall, ← hb]
      rfl
    · have hhead : digits.head? ≠ some 48 := by
        have hlength := length_pos_iff.mpr hempty
        have hmore := hlead (by rw [length_append, length_singleton]; omega)
        rwa [head?_append_of_ne_nil _ hempty] at hmore
      have hcanonical : Canonical digits :=
        ⟨hempty, fun d hd => hdigits d (mem_append_left _ hd), fun _ => hhead⟩
      have hvalue := ih hcanonical
      have hpos : 0 < numeralValue digits := by
        rcases Nat.eq_zero_or_pos (numeralValue digits) with hzero | hpos
        · rw [hzero] at hvalue
          rw [← hvalue] at hhead
          exact absurd (by decide) hhead
        · exact hpos
      rw [← decimal_append hpos hsmall, hvalue, decimal_digit hsmall, ← hb]

theorem head_decimal {n : Nat} (h : 0 < n) : (decimal n).head? ≠ some 48 := by
  induction n using Nat.strongRecOn with
  | ind n ih =>
    by_cases hn : n < 10
    · have hall : ∀ d < 10, 0 < d → (decimal d).head? ≠ some 48 := by decide
      exact hall n hn h
    · have hpos : 0 < n / 10 := by omega
      have hsplit : n = 10 * (n / 10) + n % 10 := by omega
      rw [hsplit, ← decimal_append hpos (Nat.mod_lt _ (by decide)),
        head?_append_of_ne_nil _ (decimal_ne_nil _)]
      exact ih (n / 10) (by omega) hpos

theorem canonical_decimal (n : Nat) : Canonical (decimal n) := by
  refine ⟨decimal_ne_nil n, decimal_digits n, fun hlong => head_decimal ?_⟩
  rcases Nat.eq_zero_or_pos n with rfl | hpos
  · exact absurd hlong (by decide)
  · exact hpos

theorem parseUint_some {s : Bytes} {bitSize n : Nat} (h : parseUint s bitSize = some n) :
    s ≠ [] ∧ (∀ b ∈ s, isDigit b = true) ∧ n = numeralValue s ∧ n < 2 ^ bitSize := by
  unfold parseUint at h
  split at h
  · cases h
  · next hdigits =>
    split at h
    · next hsmall =>
      cases h
      rw [not_or, not_not, all_eq_true] at hdigits
      exact ⟨hdigits.1, hdigits.2, rfl, hsmall⟩
    · cases h

theorem parseUint_decimal {n bitSize : Nat} (h : n < 2 ^ bitSize) :
    parseUint (decimal n) bitSize = some n := by
  unfold parseUint
  rw [if_neg, numeralValue_decimal, if_pos h]
  rw [not_or, not_not, all_eq_true]
  exact ⟨decimal_ne_nil n, decimal_digits n⟩

end Evener.Lib
