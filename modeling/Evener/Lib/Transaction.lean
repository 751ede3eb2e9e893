/-
  Transactions over a working copy of a state.

  `runTransaction` keeps the writes only when the body returns and the commit goes through. `wp x
  s Q E` is the weakest precondition of a body: run from `s`, it returns a value that meets `Q`
  with the state it leaves, or fails with an error that meets `E`.
-/
import Mathlib.Data.List.Basic

namespace Evener.Lib

def Tx (σ ε α : Type) : Type := σ → Except ε α × σ

namespace Tx

variable {σ ε α β : Type}

instance : Monad (Tx σ ε) where
  pure a := fun s => (.ok a, s)
  bind x f := fun s =>
    match x s with
    | (.ok a, s') => f a s'
    | (.error e, s') => (.error e, s')

/-- The working copy. -/
def read : Tx σ ε σ := fun s => (.ok s, s)

def write (f : σ → σ) : Tx σ ε Unit := fun s => (.ok (), f s)

def abort (e : ε) : Tx σ ε α := fun s => (.error e, s)

/-- The body with its failure as a value; what it wrote before it failed stays. -/
def attempt (x : Tx σ ε α) : Tx σ ε (Except ε α) := fun s => (.ok (x s).1, (x s).2)

/-- Run a body as one transaction. `fault` is an error of the commit itself, and `rollback`
    gives the state after an abort from the states before and after the body. -/
def runTransaction (rollback : σ → σ → σ) (fault : Option ε) (x : Tx σ ε α) (s : σ) :
    Except ε α × σ :=
  match x s, fault with
  | (.ok a, s'), none => (.ok a, s')
  | (.ok _, s'), some e => (.error e, rollback s s')
  | (.error e, s'), _ => (.error e, rollback s s')

/-- The body on every element in turn. -/
def each (f : α → Tx σ ε Unit) : List α → Tx σ ε Unit
  | [] => pure ()
  | a :: l => do
    f a
    each f l

/-- The body on every element in turn, with what it returned for each. -/
def forEach (f : α → Tx σ ε β) : List α → Tx σ ε (List β)
  | [] => pure []
  | a :: l => do
    let b ← f a
    let bs ← forEach f l
    return b :: bs

/-! ## Weakest preconditions -/

def wp (x : Tx σ ε α) (s : σ) (Q : α → σ → Prop) (E : ε → σ → Prop) : Prop :=
  match x s with
  | (.ok a, s') => Q a s'
  | (.error e, s') => E e s'

variable {Q : α → σ → Prop} {E : ε → σ → Prop} {s : σ}

@[simp] theorem wp_pure (a : α) : wp (pure a : Tx σ ε α) s Q E ↔ Q a s := Iff.rfl

@[simp] theorem wp_read {Q : σ → σ → Prop} : wp (read : Tx σ ε σ) s Q E ↔ Q s s := Iff.rfl

@[simp] theorem wp_write {Q : Unit → σ → Prop} (f : σ → σ) :
    wp (write f : Tx σ ε Unit) s Q E ↔ Q () (f s) := Iff.rfl

@[simp] theorem wp_abort (e : ε) : wp (abort e : Tx σ ε α) s Q E ↔ E e s := Iff.rfl

@[simp] theorem wp_bind {Q : β → σ → Prop} (x : Tx σ ε α) (f : α → Tx σ ε β) :
    wp (x >>= f) s Q E ↔ wp x s (fun a s' => wp (f a) s' Q E) E := by
  unfold wp
  show (match (match x s with
      | (.ok a, s') => f a s'
      | (.error e, s') => (.error e, s') : Except ε β × σ) with
    | (.ok a, s') => Q a s'
    | (.error e, s') => E e s') ↔ _
  rcases x s with ⟨_ | a, s'⟩
  · rfl
  · rfl

theorem wp_attempt {Q : Except ε α → σ → Prop} (x : Tx σ ε α) :
    wp (attempt x) s Q E ↔ wp x s (fun a s' => Q (.ok a) s') (fun e s' => Q (.error e) s') := by
  unfold wp attempt
  rcases x s with ⟨_ | a, s'⟩
  · rfl
  · rfl

theorem wp_ite {p : Prop} [Decidable p] (x y : Tx σ ε α) :
    wp (if p then x else y) s Q E ↔ (p → wp x s Q E) ∧ (¬ p → wp y s Q E) := by
  split
  · next h => simp [h]
  · next h => simp [h]

theorem wp_mono {x : Tx σ ε α} {Q' : α → σ → Prop} {E' : ε → σ → Prop} (h : wp x s Q E)
    (hQ : ∀ a s', Q a s' → Q' a s') (hE : ∀ e s', E e s' → E' e s') : wp x s Q' E' := by
  unfold wp at h ⊢
  split at h
  · exact hQ _ _ h
  · exact hE _ _ h

theorem wp_and {x : Tx σ ε α} {Q' : α → σ → Prop} {E' : ε → σ → Prop} (h : wp x s Q E)
    (h' : wp x s Q' E') :
    wp x s (fun a s' => Q a s' ∧ Q' a s') (fun e s' => E e s' ∧ E' e s') := by
  unfold wp at h h' ⊢
  split at h
  · next hx =>
    rw [hx] at h'
    exact ⟨h, h'⟩
  · next hx =>
    rw [hx] at h'
    exact ⟨h, h'⟩

/-- What holds however the body ends holds of the state it leaves. -/
theorem wp_final {x : Tx σ ε α} {P : σ → Prop} (h : wp x s (fun _ s' => P s') fun _ s' => P s') :
    P (x s).2 := by
  unfold wp at h
  split at h
  · next hx =>
    rw [hx]
    exact h
  · next hx =>
    rw [hx]
    exact h

theorem wp_of_ok {x : Tx σ ε α} {a : α} {s' : σ} (h : wp x s Q E) (hx : x s = (.ok a, s')) :
    Q a s' := by
  unfold wp at h
  rwa [hx] at h

theorem wp_of_error {x : Tx σ ε α} {e : ε} {s' : σ} (h : wp x s Q E)
    (hx : x s = (.error e, s')) : E e s' := by
  unfold wp at h
  rwa [hx] at h

/-- A loop of writes that cannot fail is the fold of its writes. -/
theorem wp_each_write (f : α → σ → σ) (l : List α) {Q : Unit → σ → Prop}
    (h : Q () (l.foldl (fun s a => f a s) s)) : wp (each (fun a => write (f a)) l) s Q E := by
  induction l generalizing s with
  | nil => exact h
  | cons a l ih => exact ih h

/-- A body with nothing asked of it. -/
theorem wp_trivial (x : Tx σ ε α) (s : σ) : wp x s (fun _ _ => True) (fun _ _ => True) := by
  unfold wp
  split <;> trivial

/-- What every pass of a loop returns, whatever state it runs on, the loop returns for each
    element. -/
theorem wp_forEach {f : α → Tx σ ε β} {P : α → β → Prop} {l : List α}
    (h : ∀ a ∈ l, ∀ s, wp (f a) s (fun b _ => P a b) (fun _ _ => True)) :
    wp (forEach f l) s (fun bs _ => ∀ b ∈ bs, ∃ a ∈ l, P a b) (fun _ _ => True) := by
  induction l generalizing s with
  | nil => exact fun b hb => absurd hb List.not_mem_nil
  | cons a l ih =>
    rw [forEach, wp_bind]
    refine wp_mono (h a List.mem_cons_self s) (fun b s₁ hb => ?_) fun _ _ _ => trivial
    rw [wp_bind]
    refine wp_mono (ih fun a' ha' => h a' (List.mem_cons_of_mem a ha')) (fun bs s₂ hbs => ?_)
      fun _ _ _ => trivial
    intro b' hb'
    rcases List.mem_cons.mp hb' with rfl | hb'
    · exact ⟨a, List.mem_cons_self, hb⟩
    · obtain ⟨a', ha', hP⟩ := hbs b' hb'
      exact ⟨a', List.mem_cons_of_mem a ha', hP⟩

/-! ## Invariants of a body -/

/-- The body leaves a state that meets `I` whenever it starts on one, however it ends. -/
def Keeps (I : σ → Prop) (x : Tx σ ε α) : Prop :=
  ∀ s, I s → wp x s (fun _ s' => I s') (fun _ s' => I s')

section Keeps

variable {I : σ → Prop}

theorem keeps_pure (a : α) : Keeps I (pure a : Tx σ ε α) := fun _ h => h

theorem keeps_read : Keeps I (read : Tx σ ε σ) := fun _ h => h

theorem keeps_abort (e : ε) : Keeps I (abort e : Tx σ ε α) := fun _ h => h

theorem keeps_write {f : σ → σ} (h : ∀ s, I s → I (f s)) : Keeps I (write f : Tx σ ε Unit) := h

theorem Keeps.bind {x : Tx σ ε α} {f : α → Tx σ ε β} (hx : Keeps I x) (hf : ∀ a, Keeps I (f a)) :
    Keeps I (x >>= f) := by
  intro s hs
  rw [wp_bind]
  exact wp_mono (hx s hs) (fun a s' hs' => hf a s' hs') fun _ _ hs' => hs'

/-- After a read, the value read is a state the invariant holds of. -/
theorem keeps_read_bind {f : σ → Tx σ ε β} (hf : ∀ s, I s → Keeps I (f s)) :
    Keeps I (read >>= f) := fun s hs => hf s hs s hs

theorem Keeps.attempt {x : Tx σ ε α} (hx : Keeps I x) : Keeps I (attempt x) := by
  intro s hs
  rw [wp_attempt]
  exact hx s hs

theorem keeps_ite {p : Prop} [Decidable p] {x y : Tx σ ε α} (hx : p → Keeps I x)
    (hy : ¬ p → Keeps I y) : Keeps I (if p then x else y) := by
  intro s hs
  rw [wp_ite]
  exact ⟨fun hp => hx hp s hs, fun hp => hy hp s hs⟩

theorem keeps_each {f : α → Tx σ ε Unit} (hf : ∀ a, Keeps I (f a)) (l : List α) :
    Keeps I (each f l) := by
  induction l with
  | nil => exact keeps_pure ()
  | cons a l ih => exact (hf a).bind fun _ => ih

end Keeps

/-- A body that fails takes what follows with it. -/
theorem bind_error {x : Tx σ ε α} {f : α → Tx σ ε β} {e : ε} {s s' : σ}
    (h : x s = (.error e, s')) : (x >>= f) s = (.error e, s') := by
  show (match x s with
    | (.ok a, s') => f a s'
    | (.error e, s') => (.error e, s') : Except ε β × σ) = _
  rw [h]

theorem bind_ok {x : Tx σ ε α} {f : α → Tx σ ε β} {a : α} {s s' : σ} (h : x s = (.ok a, s')) :
    (x >>= f) s = f a s' := by
  show (match x s with
    | (.ok a, s') => f a s'
    | (.error e, s') => (.error e, s') : Except ε β × σ) = _
  rw [h]

/-- What a transaction does: commit the body's result, or roll back. -/
theorem runTransaction_cases {rollback : σ → σ → σ} {fault : Option ε} {x : Tx σ ε α}
    (h : wp x s Q E) :
    (∃ a s', runTransaction rollback fault x s = (.ok a, s') ∧ Q a s') ∨
      (∃ e s', runTransaction rollback fault x s = (.error e, rollback s s') ∧
        ((∃ a, Q a s') ∨ E e s')) := by
  unfold wp at h
  unfold runTransaction
  rcases hx : x s with ⟨_ | a, s'⟩
  · rw [hx] at h
    exact Or.inr ⟨_, s', rfl, Or.inr h⟩
  · rw [hx] at h
    cases fault with
    | none => exact Or.inl ⟨a, s', rfl, h⟩
    | some e => exact Or.inr ⟨e, s', rfl, Or.inl ⟨a, h⟩⟩

end Tx

end Evener.Lib
