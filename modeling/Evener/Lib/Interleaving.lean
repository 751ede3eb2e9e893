/-
  Programs of atomic steps over a shared state, which other programs may move between two steps.

  `run` is a program with nothing in between. `Keeps R G I Q p s` is the rely-guarantee reading:
  from `s`, while everybody else moves the state by `R` and keeps `I`, every step of `p` keeps `I`
  and moves the state by `G`, and a value that `p` returns meets `Q`.
-/
import Evener.Lib.Transaction

namespace Evener.Lib

inductive Prog (σ ε α : Type) where
  | ret (a : α)
  | raise (e : ε)
  | act (next : σ → Prog σ ε α) (write : σ → σ)

namespace Prog

variable {σ ε α β : Type}

def bind : Prog σ ε α → (α → Prog σ ε β) → Prog σ ε β
  | ret a, f => f a
  | raise e, _ => raise e
  | act next write, f => act (fun s => (next s).bind f) write

instance : Monad (Prog σ ε) where
  pure := ret
  bind := bind

/-- A transaction body as one step. -/
def atomic (x : Tx σ ε α) : Prog σ ε α :=
  .act (fun s => match (x s).1 with
    | .ok a => ret a
    | .error e => raise e) fun s => (x s).2

/-! ## Running alone -/

def run : Prog σ ε α → Tx σ ε α
  | ret a => pure a
  | raise e => Tx.abort e
  | act next write => fun s => (next s).run (write s)

@[simp] theorem run_pure (a : α) : run (pure a : Prog σ ε α) = pure a := rfl

@[simp] theorem run_raise (e : ε) : run (raise e : Prog σ ε α) = Tx.abort e := rfl

@[simp] theorem run_bind (p : Prog σ ε α) (f : α → Prog σ ε β) :
    run (p >>= f) = run p >>= fun a => run (f a) := by
  induction p with
  | ret a => rfl
  | raise e => rfl
  | act next write ih =>
    funext s
    exact congrFun (ih s) (write s)

@[simp] theorem run_atomic (x : Tx σ ε α) : run (atomic x) = x := by
  funext s
  show run (match (x s).1 with
    | .ok a => ret a
    | .error e => raise e) (x s).2 = x s
  rcases x s with ⟨_ | a, s'⟩
  · rfl
  · rfl

@[simp] theorem run_ite {c : Prop} [Decidable c] (p q : Prog σ ε α) :
    run (if c then p else q) = if c then run p else run q :=
  apply_ite run c p q

section Alone

variable {Q : α → σ → Prop} {E : ε → σ → Prop} {s : σ}

theorem wp_run_bind {Q : β → σ → Prop} {p : Prog σ ε α} {f : α → Prog σ ε β} :
    Tx.wp (run (p >>= f)) s Q E ↔
      Tx.wp (run p) s (fun a s' => Tx.wp (run (f a)) s' Q E) E := by
  rw [run_bind, Tx.wp_bind]

theorem wp_run_atomic {x : Tx σ ε α} : Tx.wp (run (atomic x)) s Q E ↔ Tx.wp x s Q E := by
  rw [run_atomic]

theorem wp_run_ite {c : Prop} [Decidable c] {p q : Prog σ ε α} :
    Tx.wp (run (if c then p else q)) s Q E ↔
      (c → Tx.wp (run p) s Q E) ∧ (¬ c → Tx.wp (run q) s Q E) := by
  rw [run_ite, Tx.wp_ite]

end Alone

/-! ## Running among others -/

section RelyGuarantee

def Keeps (R G : σ → σ → Prop) (I : σ → Prop) (Q : α → σ → Prop) : Prog σ ε α → σ → Prop
  | ret a, s => Q a s
  | raise _, _ => True
  | act next write, s => ∀ s', R s s' → I s' →
      I (write s') ∧ G s' (write s') ∧ Keeps R G I Q (next s') (write s')

variable {R G : σ → σ → Prop} {I : σ → Prop} {Q : α → σ → Prop} {s t : σ}

@[simp] theorem keeps_pure (a : α) : Keeps R G I Q (pure a : Prog σ ε α) s ↔ Q a s := Iff.rfl

@[simp] theorem keeps_raise (e : ε) : Keeps R G I Q (raise e : Prog σ ε α) s := trivial

theorem keeps_bind {Q : β → σ → Prop} {p : Prog σ ε α} {f : α → Prog σ ε β} :
    Keeps R G I Q (p >>= f) s ↔ Keeps R G I (fun a t => Keeps R G I Q (f a) t) p s := by
  induction p generalizing s with
  | ret a => exact Iff.rfl
  | raise e => exact Iff.rfl
  | act next write ih =>
    refine forall_congr' fun s' => imp_congr_right fun _ => imp_congr_right fun _ => ?_
    exact and_congr_right fun _ => and_congr_right fun _ => ih s'

theorem keeps_atomic {x : Tx σ ε α}
    (h : ∀ s', R s s' → I s' → Tx.wp x s' (fun a t => I t ∧ G s' t ∧ Q a t) fun _ t => I t ∧ G s' t) :
    Keeps R G I Q (atomic x) s := by
  intro s' hr hi
  have hx := h s' hr hi
  unfold Tx.wp at hx
  dsimp only
  rcases hrun : x s' with ⟨e | a, t⟩
  · rw [hrun] at hx
    exact ⟨hx.1, hx.2, trivial⟩
  · rw [hrun] at hx
    exact hx

theorem keeps_mono {Q' : α → σ → Prop} {p : Prog σ ε α} (h : Keeps R G I Q p s)
    (hQ : ∀ a t, Q a t → Q' a t) : Keeps R G I Q' p s := by
  induction p generalizing s with
  | ret a => exact hQ a s h
  | raise e => trivial
  | act next write ih =>
    intro s' hr hi
    obtain ⟨hi', hg, hnext⟩ := h s' hr hi
    exact ⟨hi', hg, ih s' hnext⟩

/-- What nobody's steps destroy is still there at the end. -/
theorem keeps_stable {S : σ → Prop} {p : Prog σ ε α} (h : Keeps R G I Q p s)
    (hR : ∀ {u v}, S u → R u v → S v) (hG : ∀ {u v}, S u → G u v → S v) (hs : S s) :
    Keeps R G I (fun a t => Q a t ∧ S t) p s := by
  induction p generalizing s with
  | ret a => exact ⟨h, hs⟩
  | raise e => trivial
  | act next write ih =>
    intro s' hr hi
    obtain ⟨hi', hg, hnext⟩ := h s' hr hi
    exact ⟨hi', hg, ih s' hnext (hG (hR hs hr) hg)⟩

/-- The state may move by the rely before the next step. -/
theorem keeps_rely {p : Prog σ ε α} (h : Keeps R G I Q p s)
    (trans : ∀ {u}, R s t → R t u → R s u) (hQ : ∀ a, Q a s → R s t → Q a t) (hr : R s t) :
    Keeps R G I Q p t := by
  cases p with
  | ret a => exact hQ a h hr
  | raise e => trivial
  | act next write => exact fun u hu hi => h u (trans hr hu) hi

/-- A program is fine under a narrower rely and a wider guarantee. -/
theorem keeps_weaken {R' G' : σ → σ → Prop} {I' : σ → Prop} {p : Prog σ ε α}
    (h : Keeps R G I Q p s) (hR : ∀ {s t}, R' s t → R s t) (hI : ∀ {s}, I' s → I s)
    (hG : ∀ {s t}, I' s → G s t → I' t ∧ G' s t) : Keeps R' G' I' Q p s := by
  induction p generalizing s with
  | ret a => exact h
  | raise e => trivial
  | act next write ih =>
    intro s' hr hi
    obtain ⟨_, hg, hnext⟩ := h s' (hR hr) (hI hi)
    exact ⟨(hG hi hg).1, (hG hi hg).2, ih s' hnext⟩

end RelyGuarantee

end Prog

end Evener.Lib
