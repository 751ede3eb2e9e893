/-
  The fences of a run, and what an alias's recovery sequence stands for: the begin of a fence that
  is held, the end of one that was released (`World.standing`).

  A fence saves what stood below it (`Fenced.previous`).
-/
import Mathlib.Order.Bounds.Basic
import Evener.Hubcore.ResumeLocks

namespace Evener.Hubcore

open Evener.Lib Function Option
open List hiding lookup

/-! ## Loops over aliases -/

variable {α : Type} {aliases : List String} {i : Nat} {x : String} {r : ResumeLocks}
  {g f : ForceStopFence} {call : Call}

theorem foldl_update {change : String → α → α} (hnodup : aliases.Nodup) (m : String → α)
    (x : String) :
    aliases.foldl (fun m id => Function.update m id (change id (m id))) m x =
      if x ∈ aliases then change x (m x) else m x := by
  induction aliases generalizing m with
  | nil => rfl
  | cons id aliases ih =>
    obtain ⟨hnew, hnodup⟩ := nodup_cons.mp hnodup
    rw [foldl_cons, ih hnodup]
    by_cases hx : x = id
    · subst hx
      rw [if_neg hnew, if_pos mem_cons_self, update_self]
    · rw [update_of_ne hx]
      simp only [mem_cons, hx, false_or]

namespace ResumeLocks

theorem each_apply (hnodup : aliases.Nodup)
    (change : String → SessionRecoveryState → SessionRecoveryState)
    (recovery : String → SessionRecoveryState) (x : String) :
    each aliases change recovery x = if x ∈ aliases then change x (recovery x) else recovery x :=
  foldl_update hnodup recovery x

theorem overwrite_fold (hnodup : aliases.Nodup) (sequence : Nat)
    (saved : (String → SessionRecoveryState) × (String → Nat)) (x : String) :
    (aliases.foldl (overwrite sequence) saved).1 x =
      (if x ∈ aliases then
        { saved.1 x with
          lastRecoverySequence := sequence
          stopping := (saved.1 x).stopping + 1 }
      else saved.1 x) ∧
    (aliases.foldl (overwrite sequence) saved).2 x =
      if x ∈ aliases then (saved.1 x).lastRecoverySequence else saved.2 x := by
  induction aliases generalizing saved with
  | nil => exact ⟨rfl, rfl⟩
  | cons id aliases ih =>
    obtain ⟨hnew, hnodup⟩ := nodup_cons.mp hnodup
    obtain ⟨hstate, hprevious⟩ := ih hnodup (overwrite sequence saved id)
    rw [foldl_cons, hstate, hprevious]
    by_cases hx : x = id
    · subst hx
      rw [if_neg hnew, if_neg hnew, if_pos mem_cons_self, if_pos mem_cons_self]
      exact ⟨update_self .., update_self ..⟩
    · simp only [mem_cons, hx, false_or]
      unfold overwrite
      dsimp only
      rw [update_of_ne hx, update_of_ne hx]
      exact ⟨rfl, rfl⟩

end ResumeLocks

theorem ForceStopFence.retire_previous (f held : ForceStopFence) (x : String) :
    (f.retire held).previous x =
      if x ∈ f.aliases ∧ held.previous x = f.sequence then f.previous x else held.previous x := by
  have hfold : ∀ (aliases : List String) (previous : String → Nat),
      aliases.foldl (fun previous id =>
        if previous id = f.sequence then Function.update previous id (f.previous id)
        else previous) previous x =
      if x ∈ aliases ∧ previous x = f.sequence then f.previous x else previous x := by
    intro aliases
    induction aliases with
    | nil => simp
    | cons id aliases ih =>
      intro previous
      rw [foldl_cons, ih]
      by_cases hx : x = id
      · subst hx
        by_cases hsaved : previous x = f.sequence
        · simp [hsaved]
        · simp [hsaved]
      · by_cases hsaved : previous id = f.sequence
        · simp [hsaved, hx]
        · simp [hsaved, hx]
  exact hfold f.aliases held.previous

theorem countP_mapIdx {p q : α → Bool} {f : Nat → α → α} {l : List α}
    (h : ∀ i a, l[i]? = some a → p (f i a) = q a) : (l.mapIdx f).countP p = l.countP q := by
  induction l generalizing f with
  | nil => rfl
  | cons a l ih =>
    rw [mapIdx_cons, countP_cons, countP_cons, h 0 a rfl,
      ih fun i b hb => h (i + 1) b hb]

/-! ## Runs -/

/-- The fence at an address. -/
abbrev ResumeLocks.At (r : ResumeLocks) (i : Nat) (f : ForceStopFence) : Prop := r.fences[i]? = some f

/-- The registry beside two records of its run: how often an alias's admissions were invalidated,
    and the sequence that a fence's `Finish` took. -/
structure World where
  locks : ResumeLocks := {}
  invalidated : String → Nat := fun _ => 0
  finishedAt : Nat → Nat := fun _ => 0

namespace World

def unfinished (w : World) (fence : Nat) : Bool :=
  w.locks.fences[fence]?.any fun f => !f.finished

def step (w : World) (call : Call) : World where
  locks := w.locks.step call
  invalidated :=
    match call with
    | .invalidateResumeAdmission aliases => fun x =>
      if x ∈ aliases then w.invalidated x + 1 else w.invalidated x
    | _ => w.invalidated
  finishedAt :=
    match call with
    | .finish fence _ =>
      if w.unfinished fence then Function.update w.finishedAt fence (w.locks.sequence + 1)
      else w.finishedAt
    | _ => w.finishedAt

def run (calls : List Call) : World := calls.foldl step {}

/-- What a fence stands for. -/
def value (w : World) (i : Nat) (f : ForceStopFence) : Nat :=
  if f.finished then w.finishedAt i else f.sequence

/-- The sequences of the alias's unrejected fences. -/
def standing (w : World) (x : String) : Set Nat :=
  { v | ∃ i f, w.locks.At i f ∧ x ∈ f.aliases ∧ f.rejected = false ∧ v = w.value i f }

/-- Nothing was published for the alias above the sequence. -/
def Unpublished (w : World) (x : String) (sequence : Nat) : Prop :=
  ∀ i f, w.locks.At i f → x ∈ f.aliases → f.rejected = false → f.finished = true →
    w.finishedAt i < sequence

end World

/-- The fence holds the alias. -/
def ForceStopFence.holds (x : String) (f : ForceStopFence) : Bool := !f.finished && x ∈ f.aliases

/-- The fence was published for the alias. -/
def ForceStopFence.published (x : String) (f : ForceStopFence) : Bool :=
  f.finished && !f.rejected && x ∈ f.aliases

structure Fenced (w : World) : Prop where
  nodup : ∀ i f, w.locks.At i f → f.aliases.Nodup
  held : ∀ i, i ∈ w.locks.held ↔ w.unfinished i = true
  /-- Sequences are taken in order. -/
  ordered : ∀ i j f g, w.locks.At i f → w.locks.At j g → i < j → f.sequence < g.sequence
  taken : ∀ i f, w.locks.At i f → 0 < f.sequence ∧ f.sequence ≤ w.locks.sequence
  finishes : ∀ i f, w.locks.At i f → f.finished = true →
    f.sequence < w.finishedAt i ∧ w.finishedAt i ≤ w.locks.sequence
  apart : ∀ i j f g, w.locks.At i f → w.locks.At j g → f.finished = true →
    w.finishedAt i ≠ g.sequence
  stopping : ∀ x, (w.locks.recovery x).stopping = w.locks.fences.countP (ForceStopFence.holds x)
  epoch : ∀ x, (w.locks.recovery x).epoch =
    w.invalidated x + w.locks.fences.countP (ForceStopFence.published x)
  last : ∀ x, IsGreatest (insert 0 (w.standing x)) (w.locks.recovery x).lastRecoverySequence
  previous : ∀ i f, w.locks.At i f → f.finished = false → f.rejected = false → ∀ x ∈ f.aliases,
    w.Unpublished x f.sequence →
      IsGreatest (insert 0 { v ∈ w.standing x | v < f.sequence }) (f.previous x)

theorem Fenced.initial : Fenced {} where
  nodup _ _ h := nomatch h
  held i := by simp [World.unfinished]
  ordered _ _ _ _ h := nomatch h
  taken _ _ h := nomatch h
  finishes _ _ h := nomatch h
  apart _ _ _ _ h := nomatch h
  stopping _ := rfl
  epoch _ := rfl
  last x := by
    have hnone : World.standing {} x = ∅ := by
      ext v
      simp [World.standing]
    rw [hnone]
    simp
  previous _ _ h := nomatch h

/-! ## What a call does to the fences -/

variable {w w' : World}

/-- Fences stay as they are; epochs advance with invalidations only. -/
structure Frame (w w' : World) : Prop where
  fences : w'.locks.fences = w.locks.fences
  held : w'.locks.held = w.locks.held
  sequence : w'.locks.sequence = w.locks.sequence
  finishedAt : w'.finishedAt = w.finishedAt
  stopping : ∀ x, (w'.locks.recovery x).stopping = (w.locks.recovery x).stopping
  last : ∀ x, (w'.locks.recovery x).lastRecoverySequence =
    (w.locks.recovery x).lastRecoverySequence
  epoch : ∀ x, (w'.locks.recovery x).epoch + w.invalidated x =
    (w.locks.recovery x).epoch + w'.invalidated x

theorem Fenced.frame (hw : Fenced w) (h : Frame w w') : Fenced w' := by
  have hat : ∀ i f, w'.locks.At i f ↔ w.locks.At i f := by
    intro i f
    unfold ResumeLocks.At
    rw [h.fences]
  have hstanding : w'.standing = w.standing := by
    unfold World.standing World.value
    simp only [hat, h.finishedAt]
  have hunpublished : w'.Unpublished = w.Unpublished := by
    unfold World.Unpublished
    simp only [hat, h.finishedAt]
  refine ⟨?_, fun i => ?_, ?_, ?_, ?_, ?_, fun x => ?_, fun x => ?_, fun x => ?_, ?_⟩
  · simpa only [hat] using hw.nodup
  · rw [h.held, hw.held]
    unfold World.unfinished
    rw [h.fences]
  · simpa only [hat] using hw.ordered
  · simpa only [hat, h.sequence] using hw.taken
  · simpa only [hat, h.sequence, h.finishedAt] using hw.finishes
  · simpa only [hat, h.finishedAt] using hw.apart
  · rw [h.stopping, h.fences, hw.stopping]
  · have hepoch := h.epoch x
    rw [hw.epoch] at hepoch
    rw [h.fences]
    omega
  · rw [h.last, hstanding]
    exact hw.last x
  · simpa only [hat, hstanding, hunpublished] using hw.previous

theorem getElem?_concat_iff {l : List α} {a b : α} :
    (l ++ [a])[i]? = some b ↔ l[i]? = some b ∨ i = l.length ∧ b = a := by
  by_cases hi : i < l.length
  · rw [getElem?_append_left hi]
    exact ⟨Or.inl, fun h => h.resolve_right fun h => by omega⟩
  · rw [getElem?_append_right (by omega), getElem?_eq_none (l := l) (by omega),
      getElem?_singleton]
    constructor
    · intro h
      split at h
      · exact Or.inr ⟨by omega, (some.inj h).symm⟩
      · cases h
    · rintro (h | ⟨rfl, rfl⟩)
      · cases h
      · rw [if_pos (by omega)]

theorem getElem?_set_iff {l : List α} {a b c : α} {j : Nat} (h : l[i]? = some c) :
    (l.set i a)[j]? = some b ↔ j = i ∧ b = a ∨ j ≠ i ∧ l[j]? = some b := by
  obtain ⟨hi, _⟩ := List.getElem?_eq_some_iff.mp h
  rw [getElem?_set]
  by_cases hj : i = j
  · subst hj
    simp [hi, eq_comm]
  · simp [hj, Ne.symm hj]

theorem greatest_top {S : Set Nat} {m : Nat} (h : ∀ v ∈ S, v ≤ m) :
    IsGreatest (insert 0 (insert m S)) m := by
  refine ⟨Or.inr (Or.inl rfl), ?_⟩
  rintro v (rfl | rfl | hv)
  · exact Nat.zero_le _
  · exact Nat.le_refl _
  · exact h v hv

theorem Fenced.standing_le (hw : Fenced w) {v : Nat} (hv : v ∈ w.standing x) :
    0 < v ∧ v ≤ w.locks.sequence := by
  obtain ⟨i, f, hf, _, _, rfl⟩ := hv
  have htaken := hw.taken i f hf
  unfold World.value
  split
  · next hfinished =>
    have := hw.finishes i f hf hfinished
    omega
  · exact htaken

end Evener.Hubcore
