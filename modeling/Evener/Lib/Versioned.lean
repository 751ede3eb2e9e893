/-
  Versioned rows: a list of delivered rows, each with a key and an optional version, of which a
  store keeps the newest one per key.

  The lemmas at the end say how the set of newest rows changes when one more row is delivered.
-/
import Mathlib.Data.List.Induction

namespace Evener.Lib

open List

/-- An absent version is below every present one. -/
def VersionLe (a b : Option Nat) : Prop := ∀ v, a = some v → ∃ w, b = some w ∧ v ≤ w

theorem versionLe_refl (a : Option Nat) : VersionLe a a := fun v h => ⟨v, h, Nat.le_refl v⟩

theorem versionLe_none (b : Option Nat) : VersionLe none b := by
  intro v hv
  cases hv

theorem versionLe_some {v w : Nat} : VersionLe (some v) (some w) ↔ v ≤ w := by
  simp [VersionLe]

theorem versionLe_trans {a b c : Option Nat} (hab : VersionLe a b) (hbc : VersionLe b c) :
    VersionLe a c := by
  intro v hv
  obtain ⟨w, hw, hvw⟩ := hab v hv
  obtain ⟨x, hx, hwx⟩ := hbc w hw
  exact ⟨x, hx, Nat.le_trans hvw hwx⟩

theorem versionLe_antisymm {a b : Option Nat} (hab : VersionLe a b) (hba : VersionLe b a) :
    a = b := by
  cases a with
  | none =>
    cases b with
    | none => rfl
    | some w =>
      obtain ⟨v, hv, -⟩ := hba w rfl
      cases hv
  | some v =>
    obtain ⟨w, rfl, hvw⟩ := hab v rfl
    have hwv := (versionLe_some).mp hba
    rw [Nat.le_antisymm hvw hwv]

theorem versionLe_total (a b : Option Nat) : VersionLe a b ∨ VersionLe b a := by
  cases a with
  | none => exact Or.inl (versionLe_none b)
  | some v =>
    cases b with
    | none => exact Or.inr (versionLe_none _)
    | some w => exact (Nat.le_total v w).imp (versionLe_some).mpr (versionLe_some).mpr

section Newest

variable {ρ κ : Type} (key : ρ → κ) (version : ρ → Option Nat)

/-- The pair (key, version) names one row. -/
def VersionedSource (rows : List ρ) : Prop :=
  ∀ r ∈ rows, ∀ s ∈ rows, key r = key s → version r = version s → r = s

/-- `r` was delivered, and nothing newer was delivered under its key. -/
def IsNewest (rows : List ρ) (r : ρ) : Prop :=
  r ∈ rows ∧ ∀ s ∈ rows, key s = key r → VersionLe (version s) (version r)

variable {key version} {rows : List ρ}

theorem IsNewest.unique (hsrc : VersionedSource key version rows) {r s : ρ}
    (hr : IsNewest key version rows r) (hs : IsNewest key version rows s)
    (hk : key r = key s) : r = s :=
  hsrc r hr.1 s hs.1 hk
    (versionLe_antisymm (hs.2 r hr.1 hk) (hr.2 s hs.1 hk.symm))

theorem isNewest_congr {rows' : List ρ} (h : ∀ r, r ∈ rows ↔ r ∈ rows') (r : ρ) :
    IsNewest key version rows r ↔ IsNewest key version rows' r := by
  simp only [IsNewest, h]

theorem VersionedSource.subset {rows' : List ρ} (h : VersionedSource key version rows)
    (hsub : ∀ r ∈ rows', r ∈ rows) : VersionedSource key version rows' :=
  fun r hr s hs => h r (hsub r hr) s (hsub s hs)

/-- A row of a key that `s` does not touch is as new after `s` as before. -/
theorem isNewest_append_of_ne {r s : ρ} (hk : key s ≠ key r) :
    IsNewest key version (rows ++ [s]) r ↔ IsNewest key version rows r := by
  constructor
  · rintro ⟨hr, hmax⟩
    rcases mem_append.mp hr with hr | hr
    · exact ⟨hr, fun x hx => hmax x (mem_append_left _ hx)⟩
    · exact absurd (congrArg key (mem_singleton.mp hr)).symm hk
  · rintro ⟨hr, hmax⟩
    refine ⟨mem_append_left _ hr, fun x hx hxk => ?_⟩
    rcases mem_append.mp hx with hx | hx
    · exact hmax x hx hxk
    · rw [mem_singleton.mp hx] at hxk
      exact absurd hxk hk

theorem isNewest_append_self {s : ρ}
    (hmax : ∀ r ∈ rows, key r = key s → VersionLe (version r) (version s)) :
    IsNewest key version (rows ++ [s]) s := by
  refine ⟨mem_append_right _ (mem_singleton.mpr rfl), fun x hx hxk => ?_⟩
  rcases mem_append.mp hx with hx | hx
  · exact hmax x hx hxk
  · rw [mem_singleton.mp hx]
    exact versionLe_refl _

/-- A delivery no newer than the held row of its key changes nothing. -/
theorem isNewest_append_of_le {h s : ρ} (hsrc : VersionedSource key version (rows ++ [s]))
    (hh : IsNewest key version rows h) (hk : key s = key h)
    (hle : VersionLe (version s) (version h)) (r : ρ) :
    IsNewest key version (rows ++ [s]) r ↔ IsNewest key version rows r := by
  by_cases hr : key s = key r
  · have hh' : IsNewest key version (rows ++ [s]) h := by
      refine ⟨mem_append_left _ hh.1, fun x hx hxk => ?_⟩
      rcases mem_append.mp hx with hx | hx
      · exact hh.2 x hx hxk
      · rw [mem_singleton.mp hx]
        exact hle
    have hsrc' : VersionedSource key version rows :=
      hsrc.subset fun x hx => mem_append_left _ hx
    constructor
    · intro hn
      rw [IsNewest.unique hsrc hn hh' (hr.symm.trans hk)]
      exact hh
    · intro hn
      rw [IsNewest.unique hsrc' hn hh (hr.symm.trans hk)]
      exact hh'
  · exact isNewest_append_of_ne hr

/-- A delivery at least as new as the held row of its key takes its place. -/
theorem isNewest_append_of_ge {h s : ρ} (hsrc : VersionedSource key version (rows ++ [s]))
    (hh : IsNewest key version rows h) (hk : key s = key h)
    (hle : VersionLe (version h) (version s)) (r : ρ) :
    IsNewest key version (rows ++ [s]) r ↔
      r = s ∨ (IsNewest key version rows r ∧ key r ≠ key s) := by
  have hs : IsNewest key version (rows ++ [s]) s :=
    isNewest_append_self fun x hx hxk => versionLe_trans (hh.2 x hx (hxk.trans hk)) hle
  by_cases hr : key s = key r
  · constructor
    · intro hn
      exact Or.inl (IsNewest.unique hsrc hn hs hr.symm)
    · rintro (rfl | ⟨-, hne⟩)
      · exact hs
      · exact absurd hr.symm hne
  · rw [isNewest_append_of_ne hr]
    constructor
    · intro hn
      exact Or.inr ⟨hn, Ne.symm hr⟩
    · rintro (rfl | ⟨hn, -⟩)
      · exact absurd rfl hr
      · exact hn

/-- The first delivery of a key is the newest of it. -/
theorem isNewest_append_of_new {s : ρ} (hnew : ∀ r ∈ rows, key r ≠ key s) (r : ρ) :
    IsNewest key version (rows ++ [s]) r ↔ r = s ∨ IsNewest key version rows r := by
  have hs : IsNewest key version (rows ++ [s]) s :=
    isNewest_append_self fun x hx hxk => absurd hxk (hnew x hx)
  by_cases hr : key s = key r
  · constructor
    · intro hn
      rcases mem_append.mp hn.1 with hm | hm
      · exact absurd hr.symm (hnew r hm)
      · exact Or.inl (mem_singleton.mp hm)
    · rintro (rfl | hn)
      · exact hs
      · exact absurd hr.symm (hnew r hn.1)
  · rw [isNewest_append_of_ne hr]
    constructor
    · exact Or.inr
    · rintro (rfl | hn)
      · exact absurd rfl hr
      · exact hn

/-- Every delivered key has a newest row. -/
theorem exists_isNewest [DecidableEq κ] {r : ρ} (hr : r ∈ rows) :
    ∃ n, IsNewest key version rows n ∧ key n = key r := by
  induction rows using List.reverseRecOn generalizing r with
  | nil => cases hr
  | append_singleton l s ih =>
    by_cases hk : key s = key r
    · by_cases hheld : ∃ x ∈ l, key x = key s
      · obtain ⟨x, hx, hxs⟩ := hheld
        obtain ⟨n, hn, hnx⟩ := ih hx
        have hns : key n = key s := hnx.trans hxs
        rcases versionLe_total (version s) (version n) with hle | hle
        · refine ⟨n, ⟨mem_append_left _ hn.1, fun y hy hyk => ?_⟩, hns.trans hk⟩
          rcases mem_append.mp hy with hy | hy
          · exact hn.2 y hy hyk
          · rw [mem_singleton.mp hy]
            exact hle
        · refine ⟨s, isNewest_append_self fun y hy hyk => ?_, hk⟩
          exact versionLe_trans (hn.2 y hy (hyk.trans hns.symm)) hle
      · refine ⟨s, isNewest_append_self fun y hy hyk => ?_, hk⟩
        exact absurd ⟨y, hy, hyk⟩ hheld
    · have hl : r ∈ l := by
        rcases mem_append.mp hr with hr | hr
        · exact hr
        · exact absurd (congrArg key (mem_singleton.mp hr)).symm hk
      obtain ⟨n, hn, hnr⟩ := ih hl
      exact ⟨n, (isNewest_append_of_ne fun h => hk (h.trans hnr)).mpr hn, hnr⟩

end Newest

end Evener.Lib
