/-
  Folds that may refuse: `List.foldlM` in `Except` and in `Option`, over an append, and with a
  property that every accepted step keeps.
-/
import Mathlib.Data.List.Basic

namespace Evener.Lib

variable {ε α β σ : Type}

theorem bind_eq_ok {x : Except ε α} {f : α → Except ε β} {b : β} :
    (x >>= f) = .ok b ↔ ∃ a, x = .ok a ∧ f a = .ok b := by
  cases x with
  | error err =>
    constructor
    · intro h
      cases h
    · intro ⟨a, ha, _⟩
      cases ha
  | ok a =>
    constructor
    · intro h
      exact ⟨a, rfl, h⟩
    · intro ⟨a', ha', h⟩
      cases ha'
      exact h

theorem map_eq_ok {x : Except ε α} {f : α → β} {b : β} :
    x.map f = .ok b ↔ ∃ a, x = .ok a ∧ f a = b := by
  cases x with
  | error err =>
    constructor
    · intro h
      cases h
    · intro ⟨a, ha, _⟩
      cases ha
  | ok a =>
    constructor
    · intro h
      exact ⟨a, rfl, Except.ok.inj h⟩
    · intro ⟨a', ha', h⟩
      obtain rfl := Except.ok.inj ha'
      exact congrArg Except.ok h

theorem foldlM_append_eq_ok {f : σ → α → Except ε σ} {l l' : List α} {s t : σ} :
    (l ++ l').foldlM f s = .ok t ↔ ∃ m, l.foldlM f s = .ok m ∧ l'.foldlM f m = .ok t := by
  rw [List.foldlM_append]
  exact bind_eq_ok

/-- The invariant rule, with the elements read so far. -/
theorem foldlM_induct {f : σ → α → Except ε σ} {P : List α → σ → Prop}
    (step : ∀ l a s t, P l s → f s a = .ok t → P (l ++ [a]) t) {l : List α} {read : List α} {s t : σ}
    (hs : P read s) (h : l.foldlM f s = .ok t) : P (read ++ l) t := by
  induction l generalizing read s with
  | nil =>
    cases h
    rw [List.append_nil]
    exact hs
  | cons a l ih =>
    rw [List.foldlM_cons] at h
    obtain ⟨m, hm, h⟩ := (bind_eq_ok).mp h
    have hrest := ih (step read a s m hs hm) h
    rwa [List.append_assoc] at hrest

theorem foldlM_induct_nil {f : σ → α → Except ε σ} {P : List α → σ → Prop}
    (step : ∀ l a s t, P l s → f s a = .ok t → P (l ++ [a]) t) {l : List α} {s t : σ}
    (hs : P [] s) (h : l.foldlM f s = .ok t) : P l t :=
  foldlM_induct step hs h

/-- The run rule: what every accepted step keeps, a whole accepted fold keeps. -/
theorem foldlM_run {f : σ → α → Option σ} {P : σ → Prop} {R : σ → σ → Prop}
    (refl : ∀ {s}, P s → R s s) (trans : ∀ {s t u}, R s t → R t u → R s u)
    (step : ∀ {s a t}, P s → f s a = some t → P t ∧ R s t) {l : List α} {s t : σ} (hs : P s)
    (h : l.foldlM f s = some t) : P t ∧ R s t := by
  induction l generalizing s with
  | nil =>
    obtain rfl := Option.some.inj h
    exact ⟨hs, refl hs⟩
  | cons a l ih =>
    rw [List.foldlM_cons] at h
    obtain ⟨m, hm, h⟩ := Option.bind_eq_some_iff.mp h
    obtain ⟨hp, hr⟩ := step hs hm
    obtain ⟨hp', hr'⟩ := ih hp h
    exact ⟨hp', trans hr hr'⟩

/-! ## Runs under a condition -/

/-- Every step of a run meets the condition in the state it is taken in. -/
def Along (step : σ → α → σ) (P : σ → α → Prop) : σ → List α → Prop
  | _, [] => True
  | s, a :: l => P s a ∧ Along step P (step s a) l

theorem foldl_along {step : σ → α → σ} {P : σ → α → Prop} {I : σ → Prop}
    (h : ∀ s a, I s → P s a → I (step s a)) {l : List α} {s : σ} (hs : I s)
    (hl : Along step P s l) : I (l.foldl step s) := by
  induction l generalizing s with
  | nil => exact hs
  | cons a l ih => exact ih (h s a hs hl.1) hl.2

instance {step : σ → α → σ} {P : σ → α → Prop} [∀ s a, Decidable (P s a)] :
    (s : σ) → (l : List α) → Decidable (Along step P s l)
  | _, [] => inferInstanceAs (Decidable True)
  | s, a :: l =>
    have : Decidable (Along step P (step s a) l) := instDecidableAlong (step s a) l
    inferInstanceAs (Decidable (P s a ∧ Along step P (step s a) l))

end Evener.Lib
