/-
  The lifecycle of one delegate, apart from the journal that drives it.

  Every move of `Life.Step` keeps `Life.Coherent`; none lowers the generation, leaves the closed
  phase, or reopens a generation that was settled.
-/
import Evener.Delegatestore.Records

namespace Evener.Delegatestore

structure Life where
  generation : Nat
  phase : Phase
  runOpen : Bool
  prepared : Bool
  resumable : Bool
  stopSeq : Nat

namespace Life

inductive Label where
  | quiet
  | start (generation : Nat)
  | prepare
  | finish (generation : Nat)
  | close
  | stop (seq : Nat)
  | release

/-- Where a delegate with no run and no stop rests. -/
def restPhase (resumable : Bool) : Phase := if resumable then .idle else .closed

/-- A delegate that was just created. -/
def initial (resumable : Bool) : Life where
  generation := 0
  phase := restPhase resumable
  runOpen := false
  prepared := false
  resumable := resumable
  stopSeq := 0

inductive Step : Label → Life → Life → Prop where
  | quiet {l : Life} : Step .quiet l l
  | start {l : Life} (hidle : l.phase = .idle) :
      Step (.start (l.generation + 1)) l
        { l with
          generation := l.generation + 1
          phase := .running
          runOpen := true
          prepared := false }
  | prepare {l : Life} (hopen : l.runOpen = true) (hrunning : l.phase = .running) :
      Step .prepare l { l with prepared := true, phase := .settling }
  | finish {l : Life} (hopen : l.runOpen = true) (hphase : l.phase = .running ∨ l.phase = .settling) :
      Step (.finish l.generation) l
        { l with runOpen := false, prepared := false, phase := restPhase l.resumable }
  -- a run that finishes under a stop leaves the delegate to the stop
  | finishStopping {l : Life} (hopen : l.runOpen = true) (hstopping : l.phase = .stopping) :
      Step (.finish l.generation) l { l with runOpen := false }
  | close {l : Life} (hresumable : l.resumable = true) :
      Step .close l
        { l with
          resumable := false
          phase := if l.phase = .idle then .closed else l.phase }
  | stop {l : Life} (seq : Nat) (hseq : seq ≠ 0) :
      Step (.stop seq) l
        { l with
          stopSeq := seq
          phase := if l.phase ≠ .closed then .stopping else l.phase }
  | release {l : Life} (hopen : l.runOpen = false) :
      Step .release l
        { l with stopSeq := 0, prepared := false, phase := restPhase l.resumable }

/-- What every delegate keeps. -/
structure Coherent (l : Life) : Prop where
  working : l.phase = .running ∨ l.phase = .settling → l.runOpen = true
  opened : l.runOpen = true → l.phase = .running ∨ l.phase = .settling ∨ l.phase = .stopping
  idle : l.phase = .idle → l.resumable = true ∧ l.runOpen = false ∧ l.stopSeq = 0
  closed : l.phase = .closed → l.resumable = false ∧ l.runOpen = false
  stopping : l.phase = .stopping ↔ l.stopSeq ≠ 0 ∧ l.phase ≠ .closed
  settling : l.phase = .settling → l.prepared = true
  unprepared : l.phase = .running ∨ l.phase = .idle → l.prepared = false

theorem coherent_initial (resumable : Bool) : (initial resumable).Coherent := by
  cases resumable <;> constructor <;> simp [initial, restPhase]

variable {l l' : Life} {label : Label} {generation : Nat}

/-- A rested delegate: no run, no stop, nothing prepared, in the phase its resumability gives. -/
theorem coherent_rested (hopen : l.runOpen = false) (hstop : l.stopSeq = 0)
    (hprepared : l.prepared = false) (hphase : l.phase = restPhase l.resumable) : l.Coherent := by
  unfold restPhase at hphase
  constructor <;> split at hphase <;> simp_all

theorem Coherent.step (h : l.Coherent) (hstep : Step label l l') : l'.Coherent := by
  cases hstep with
  | quiet => exact h
  | start hidle =>
    obtain ⟨_, _, hstop⟩ := h.idle hidle
    constructor <;> simp [hstop]
  | prepare hopen hrunning =>
    have hstop : l.stopSeq = 0 := by
      by_contra hne
      have hstopping := h.stopping.mpr ⟨hne, by simp [hrunning]⟩
      simp [hrunning] at hstopping
    constructor <;> simp [hopen, hstop]
  | finish hopen hphase =>
    have hstop : l.stopSeq = 0 := by
      by_contra hne
      have hopened := h.stopping.mpr ⟨hne, by rcases hphase with hp | hp <;> simp [hp]⟩
      rcases hphase with hp | hp <;> simp [hp] at hopened
    exact coherent_rested rfl hstop rfl rfl
  | finishStopping hopen hstopping =>
    have hstop := h.stopping.mp hstopping
    constructor <;> simp [hstopping, hstop.1]
  | close hresumable =>
    have hclosed : l.phase ≠ .closed := by
      intro hp
      have := (h.closed hp).1
      simp [hresumable] at this
    by_cases hidle : l.phase = .idle
    · obtain ⟨_, hopen, hstop⟩ := h.idle hidle
      have hprepared := h.unprepared (Or.inr hidle)
      constructor <;> simp [hidle, hopen, hstop]
    · refine ⟨?_, ?_, ?_, ?_, ?_, ?_, ?_⟩ <;> simp only [if_neg hidle]
      · exact h.working
      · exact h.opened
      · exact fun hp => absurd hp hidle
      · exact fun hp => absurd hp hclosed
      · exact h.stopping
      · exact h.settling
      · exact h.unprepared
  | stop seq hseq =>
    by_cases hclosed : l.phase = .closed
    · obtain ⟨hresumable, hopen⟩ := h.closed hclosed
      constructor <;> simp [hclosed, hresumable, hopen]
    · constructor <;> simp [hclosed, hseq]
  | release hopen => exact coherent_rested hopen rfl rfl rfl

theorem Step.generation_le (hstep : Step label l l') : l.generation ≤ l'.generation := by
  cases hstep <;> simp

/-- A coherent delegate never leaves the closed phase. -/
theorem Step.closed (hstep : Step label l l') (h : l.Coherent) (hclosed : l.phase = .closed) :
    l'.phase = .closed := by
  obtain ⟨hresumable, hopen⟩ := h.closed hclosed
  cases hstep with
  | quiet => exact hclosed
  | start hidle => simp [hclosed] at hidle
  | prepare hopen' hrunning => simp [hclosed] at hrunning
  | finish hopen' hphase => simp [hopen] at hopen'
  | finishStopping hopen' hstopping => simp [hopen] at hopen'
  | close hresumable' => simp [hresumable] at hresumable'
  | stop seq hseq => simp [hclosed]
  | release hopen' => simp [restPhase, hresumable]

/-! ## Generations -/

/-- The generation was started at or before this point. -/
def Begun (l : Life) (generation : Nat) : Prop := generation ≤ l.generation

/-- No run of the generation is open or still to come. -/
def Settled (l : Life) (generation : Nat) : Prop :=
  generation < l.generation ∨ (generation = l.generation ∧ l.runOpen = false)

theorem Step.begun (hstep : Step label l l') (h : l.Begun generation) : l'.Begun generation :=
  Nat.le_trans h hstep.generation_le

theorem Step.settled (hstep : Step label l l') (h : l.Settled generation) :
    l'.Settled generation := by
  unfold Settled at h ⊢
  cases hstep with
  | start hidle => exact Or.inl (by simp only; omega)
  | finish hopen hphase => exact h.imp id fun h => ⟨h.1, rfl⟩
  | finishStopping hopen hstopping => exact h.imp id fun h => ⟨h.1, rfl⟩
  | _ => exact h

theorem Step.of_start (hstep : Step (.start generation) l l') :
    ¬ l.Begun generation ∧ l'.Begun generation := by
  cases hstep with
  | start hidle => exact ⟨by unfold Begun; omega, by unfold Begun; exact Nat.le_refl _⟩

theorem Step.of_finish (hstep : Step (.finish generation) l l') :
    ¬ l.Settled generation ∧ l'.Settled generation := by
  cases hstep with
  | finish hopen hphase => exact ⟨by simp [Settled, hopen], by simp [Settled]⟩
  | finishStopping hopen hstopping => exact ⟨by simp [Settled, hopen], by simp [Settled]⟩

/-! ## Stops -/

/-- A move that is not a stop keeps the stop or clears it. -/
theorem Step.stopSeq (hstep : Step label l l') :
    l'.stopSeq = l.stopSeq ∨ l'.stopSeq = 0 ∨ ∃ seq, label = .stop seq ∧ l'.stopSeq = seq := by
  cases hstep with
  | release hopen => exact Or.inr (Or.inl rfl)
  | stop seq hseq => exact Or.inr (Or.inr ⟨seq, rfl, rfl⟩)
  | _ => exact Or.inl rfl

end Life

/-- The lifecycle an aggregate carries. -/
def Aggregate.life (a : Aggregate) : Life where
  generation := a.generation
  phase := a.phase
  runOpen := a.currentRunOpen
  prepared := a.preparedTerminal.isSome
  resumable := a.resumable
  stopSeq := a.pendingStopSeq

end Evener.Delegatestore
