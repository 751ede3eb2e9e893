/-
  Boot generation tokens (`bootGeneration.ts`).

  A token is `"<n>"`, `"<n>@<owner>"` or anything else. `apply` is an equivalence relation: a
  chain of merged reads speaks of one boot generation although its tokens may be spelled
  differently.
-/
import Mathlib.Data.List.Basic
import Mathlib.Algebra.GroupWithZero.Nat

namespace Evener.Transcript

inductive BootGenerationAction where
  | apply
  | ignore
  | replace
deriving DecidableEq, Repr

/-- A parsed counter token. -/
structure BootCounter where
  counter : Nat
  owner : String
deriving DecidableEq, Repr

/-- `(1n << 64n) - 1n`. -/
def maxUint64 : Nat := 2 ^ 64 - 1

/-- `BigInt(number)` on a string of decimal digits. -/
def decimalValue (digits : List Char) : Nat :=
  digits.foldl (fun n c => 10 * n + (c.toNat - 48)) 0

/-- Decimal digits only, at most `maxUint64`; an owner, when `@` is there, is not empty. -/
def parseBootGeneration (token : String) : Option BootCounter :=
  let number := token.toList.takeWhile (· ≠ '@')
  let rest := token.toList.dropWhile (· ≠ '@')
  let owner := String.ofList rest.tail
  if rest ≠ [] ∧ owner = "" then none
  else if number = [] ∨ ¬ number.all Char.isDigit then none
  else if maxUint64 < decimalValue number then none
  else some { counter := decimalValue number, owner := owner }

def compareBootGeneration (held incoming : String) : BootGenerationAction :=
  if held = incoming then .apply
  else
    match parseBootGeneration held, parseBootGeneration incoming with
    | some heldCounter, some incomingCounter =>
      if heldCounter.owner ≠ incomingCounter.owner then .replace
      else if incomingCounter.counter < heldCounter.counter then .ignore
      else if incomingCounter.counter = heldCounter.counter then .apply
      else .replace
    | _, _ => .replace

theorem compareBootGeneration_apply {held incoming : String} :
    compareBootGeneration held incoming = .apply ↔
      held = incoming ∨
        ∃ c, parseBootGeneration held = some c ∧ parseBootGeneration incoming = some c := by
  unfold compareBootGeneration
  split
  · next heq => simp [heq]
  · next hne =>
    simp only [hne, false_or]
    split
    · next c c' hc hc' =>
      obtain ⟨n, o⟩ := c
      obtain ⟨n', o'⟩ := c'
      constructor
      · intro h
        have : o = o' ∧ n' = n := by
          split_ifs at h
          simp_all
        obtain ⟨rfl, rfl⟩ := this
        exact ⟨_, hc, hc'⟩
      · rintro ⟨d, hd, hd'⟩
        rw [hc, Option.some.injEq] at hd
        rw [hc', Option.some.injEq] at hd'
        subst hd
        cases hd'
        simp
    · next hno =>
      simp only [reduceCtorEq, false_iff]
      rintro ⟨d, hd, hd'⟩
      exact hno d d hd hd'

/-- Two tokens name the same boot generation. -/
def BootApplies (held incoming : String) : Prop := compareBootGeneration held incoming = .apply

instance : DecidableRel BootApplies := fun _ _ => inferInstanceAs (Decidable (_ = _))

theorem bootApplies_refl (a : String) : BootApplies a a :=
  (compareBootGeneration_apply).mpr (Or.inl rfl)

theorem bootApplies_symm {a b : String} (h : BootApplies a b) : BootApplies b a := by
  unfold BootApplies at h ⊢
  rw [compareBootGeneration_apply] at h ⊢
  rcases h with rfl | ⟨c, ha, hb⟩
  · exact Or.inl rfl
  · exact Or.inr ⟨c, hb, ha⟩

theorem bootApplies_trans {a b c : String} (h : BootApplies a b) (h' : BootApplies b c) :
    BootApplies a c := by
  unfold BootApplies at h h' ⊢
  rw [compareBootGeneration_apply] at h h' ⊢
  rcases h with rfl | ⟨x, ha, hb⟩
  · exact h'
  · rcases h' with rfl | ⟨y, hb', hc⟩
    · exact Or.inr ⟨x, ha, hb⟩
    · rw [hb] at hb'
      cases hb'
      exact Or.inr ⟨x, ha, hc⟩

example : compareBootGeneration "12@root" "9@root" = .ignore := by decide
example : compareBootGeneration "daemonless" "3" = .replace := by decide

end Evener.Transcript
