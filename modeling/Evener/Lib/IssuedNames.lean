/-
  Names issued from a counter: every name a value of a keyed list carries was issued at or below
  the counter, and no two keys carry one name.
-/
import Evener.Lib.KeyedList
import Mathlib.Data.Nat.Digits.Defs

namespace Evener.Lib

/-- A text with a number after it tells the number. -/
theorem append_toString_inj {text : String} {m n : Nat}
    (h : text ++ toString m = text ++ toString n) : m = n := by
  have hlist := congrArg String.toList h
  rw [String.toList_append, String.toList_append] at hlist
  have htext : toString m = toString n := String.toList_inj.mp (List.append_cancel_left hlist)
  rw [Nat.toString_eq_ofList_toDigits, Nat.toString_eq_ofList_toDigits, String.ofList_inj] at htext
  have hnum := congrArg (fun ds => Nat.ofDigitChars 10 ds 0) htext
  simpa using hnum

variable {κ ν τ : Type} [DecidableEq κ]

structure Issued (key : ν → κ) (name : ν → Option τ) (issue : Nat → τ) (l : List ν) (next : Nat) :
    Prop where
  issued : ∀ {k v t}, lookup key k l = some v → name v = some t → ∃ n ≤ next, t = issue n
  distinct : ∀ {k k' v v' t}, lookup key k l = some v → lookup key k' l = some v' →
    name v = some t → name v' = some t → k = k'

variable {key : ν → κ} {name : ν → Option τ} {issue : Nat → τ} {l : List ν} {next next' : Nat}

theorem Issued.nil : Issued key name issue [] next where
  issued h := by simp at h
  distinct h := by simp at h

theorem Issued.mono (h : Issued key name issue l next) (hle : next ≤ next') :
    Issued key name issue l next' where
  issued hv ht := by
    obtain ⟨n, hn, rfl⟩ := h.issued hv ht
    exact ⟨n, by omega, rfl⟩
  distinct := h.distinct

theorem Issued.put (hinj : ∀ {m n}, issue m = issue n → m = n) (h : Issued key name issue l next)
    (hle : next ≤ next') {v : ν}
    (hname : ∀ t, name v = some t →
      (∃ w, lookup key (key v) l = some w ∧ name w = some t) ∨
      (next' = next + 1 ∧ t = issue next')) :
    Issued key name issue (put key v l) next' := by
  have hclash : ∀ {k w t}, lookup key k l = some w → name w = some t → name v = some t →
      key v = k := by
    intro k w t hw hwt hvt
    rcases hname t hvt with ⟨old, hold, hot⟩ | ⟨hnext, hfresh⟩
    · exact h.distinct hold hw hot hwt
    · obtain ⟨n, hn, hnt⟩ := h.issued hw hwt
      have : n = next' := hinj (hnt.symm.trans hfresh)
      omega
  constructor
  · intro k w t hw hwt
    rw [lookup_put] at hw
    split at hw
    · obtain rfl := Option.some.inj hw
      rcases hname t hwt with ⟨old, hold, hot⟩ | ⟨hnext, hfresh⟩
      · obtain ⟨n, hn, hnt⟩ := h.issued hold hot
        exact ⟨n, by omega, hnt⟩
      · exact ⟨next', Nat.le_refl _, hfresh⟩
    · obtain ⟨n, hn, hnt⟩ := h.issued hw hwt
      exact ⟨n, by omega, hnt⟩
  · intro k k' w w' t hw hw' hwt hwt'
    rw [lookup_put] at hw hw'
    split at hw <;> split at hw'
    · next ha hb => exact ha.symm.trans hb
    · next ha hb =>
      obtain rfl := Option.some.inj hw
      exact absurd (hclash hw' hwt' hwt) hb
    · next ha hb =>
      obtain rfl := Option.some.inj hw'
      exact absurd (hclash hw hwt hwt') ha
    · exact h.distinct hw hw' hwt hwt'

end Evener.Lib
