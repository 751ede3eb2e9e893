/-
  The generation state machine of a thread's recorded history (`transcriptHistory.ts`:
  `readIdentity`, `classifySignal`, `invalidated`, `identityDisposition`, `readDisposition`,
  `pageDisposition`).

  A signal that names a newer identity marks it invalid; from then on it is compared with what it
  awaits (`awaitedIdentity`), not with what it holds.
-/
import Evener.Transcript.BootGeneration
import Evener.Transcript.MergeHistory

namespace Evener.Transcript

/-! ## Identities -/

structure SnapshotIdentity where
  incarnation : String
  length : Nat
deriving DecidableEq, Repr

/-- What a read or a page names of the history it was projected from. -/
structure ReadIdentity where
  bootGeneration : String
  epoch : Nat
  incarnation : Option String
  length : Nat
deriving DecidableEq, Repr

/-- The defaults of an identity the response leaves out. -/
def readIdentity (bootGeneration : Option String) (epoch : Option Nat)
    (snapshot : Option SnapshotIdentity) : ReadIdentity where
  bootGeneration := bootGeneration.getD ""
  epoch := epoch.getD 0
  incarnation := snapshot.map (·.incarnation)
  length := (snapshot.map (·.length)).getD 0

/-- A backfill page. -/
structure ThreadTurnsListResponse where
  data : Option (List Turn)
  nextCursor : Option String := none
  bootGeneration : Option String := none
  epoch : Option Nat := none
  snapshot : Option SnapshotIdentity := none
  authoritative : Bool := false
deriving DecidableEq, Repr

def ThreadTurnsListResponse.identity (resp : ThreadTurnsListResponse) : ReadIdentity :=
  readIdentity resp.bootGeneration resp.epoch resp.snapshot

/-- The boot generation and epoch an invalid thread waits for. -/
structure Awaited where
  bootGeneration : String
  epoch : Nat
deriving DecidableEq, Repr

structure HistoryState extends ReadIdentity where
  appliedGeneration : Nat
  issuedGeneration : Nat
  invalidatedAtGeneration : Option Nat := none
  awaited : Option Awaited := none
  pendingIncarnation : Option String := none
  deferredPages : List ThreadTurnsListResponse := []
  failed : Option String := none
  turns : List TurnModel
deriving DecidableEq, Repr

/-- `EMPTY_HISTORY`. -/
def emptyHistory : HistoryState where
  bootGeneration := ""
  epoch := 0
  incarnation := none
  length := 0
  appliedGeneration := 0
  issuedGeneration := 0
  turns := []

/-- The identity a history update, a resync or a page names. -/
structure HistorySignal where
  bootGeneration : Option String := none
  epoch : Option Nat := none
  incarnation : Option String := none
deriving DecidableEq, Repr

def ReadIdentity.signal (identity : ReadIdentity) : HistorySignal where
  bootGeneration := some identity.bootGeneration
  epoch := some identity.epoch
  incarnation := identity.incarnation

/-- What signals are compared with: what an invalid thread awaits, else what is held. -/
def HistoryState.awaitedIdentity (held : HistoryState) : Awaited :=
  held.awaited.getD { bootGeneration := held.bootGeneration, epoch := held.epoch }

/-! ## Signals -/

inductive SignalAction where
  | ignore
  | apply
  | invalidate
deriving DecidableEq, Repr

def classifySignal (held : HistoryState) (signal : HistorySignal) : SignalAction :=
  let awaited := held.awaitedIdentity
  let action : BootGenerationAction :=
    match signal.bootGeneration with
    | none => .apply
    | some incoming => compareBootGeneration awaited.bootGeneration incoming
  if action = .ignore then .ignore
  else
    match signal.epoch with
    | none => .invalidate
    | some epoch =>
      if action = .replace ∨ epoch > awaited.epoch then .invalidate
      else if epoch < awaited.epoch then .ignore
      else if held.invalidatedAtGeneration.isNone ∧ signal.incarnation.isSome ∧
          signal.incarnation ≠ held.incarnation then .invalidate
      else .apply

/-- Marks a history invalid, or re-arms an invalid one. -/
def invalidated (history : HistoryState) (signal : HistorySignal := {}) : HistoryState :=
  let awaited := history.awaitedIdentity
  let bootGeneration := signal.bootGeneration.getD awaited.bootGeneration
  let sameBoot := compareBootGeneration awaited.bootGeneration bootGeneration = .apply
  { history with
    invalidatedAtGeneration := some history.issuedGeneration
    -- epochs count again from zero in each boot generation
    awaited := some
      { bootGeneration := bootGeneration
        epoch := signal.epoch.getD (if sameBoot then awaited.epoch else 0) }
    pendingIncarnation :=
      if signal.incarnation.isSome ∧ signal.incarnation ≠ history.incarnation then
        signal.incarnation
      else history.pendingIncarnation }

/-- `historyIsLive`, on a held history. -/
def HistoryState.live (history : HistoryState) : Bool := history.invalidatedAtGeneration.isNone

/-! ## Reads and pages -/

inductive ReadDisposition where
  | discard
  | replace
  | merge
deriving DecidableEq, Repr

/-- Replace, merge or discard from the identity alone. -/
def identityDisposition (held : HistoryState) (identity : ReadIdentity) : ReadDisposition :=
  if held.invalidatedAtGeneration.isSome then
    if classifySignal held
        { bootGeneration := some identity.bootGeneration, epoch := some identity.epoch } = .ignore then
      .discard
    else .replace
  else
    match compareBootGeneration held.bootGeneration identity.bootGeneration with
    | .ignore => .discard
    | .replace => .replace
    | .apply =>
      if identity.epoch < held.epoch then .discard
      else if identity.epoch > held.epoch ∨ identity.incarnation ≠ held.incarnation then .replace
      else if identity.length < held.length then .discard
      else .merge

/-- A response to `generation` is too old to apply, and so is a failure. -/
def supersededRead (held : HistoryState) (generation : Nat) : Bool :=
  generation < held.issuedGeneration ||
    (match held.invalidatedAtGeneration with
      | some threshold => generation ≤ threshold
      | none => false)

def readDisposition (held : HistoryState) (generation : Nat) (identity : ReadIdentity) :
    ReadDisposition :=
  if supersededRead held generation then .discard else identityDisposition held identity

inductive PageDisposition where
  | discard
  | defer
  | invalidate
  | merge
deriving DecidableEq, Repr

def pageDisposition (held : HistoryState) (resp : ThreadTurnsListResponse) : PageDisposition :=
  if held.failed.isSome then .discard
  else
    match classifySignal held resp.identity.signal with
    | .ignore => .discard
    | .invalidate => .invalidate
    | .apply =>
      if held.invalidatedAtGeneration.isSome then
        if resp.identity.incarnation = held.pendingIncarnation then .defer else .discard
      else if resp.identity.length < held.length then .discard
      else .merge

/-! ## What the dispositions say -/

/-- `identity` names the very history that is held. -/
structure Matches (held : ReadIdentity) (bootGeneration : String) (epoch : Nat)
    (incarnation : Option String) : Prop where
  boot : BootApplies held.bootGeneration bootGeneration
  epoch : epoch = held.epoch
  incarnation : incarnation = held.incarnation

/-- Not a lower counter of the same boot owner, and not a lower epoch of the same boot
    generation. -/
structure NotOlder (awaited : Awaited) (identity : ReadIdentity) : Prop where
  boot : compareBootGeneration awaited.bootGeneration identity.bootGeneration ≠ .ignore
  epoch : BootApplies awaited.bootGeneration identity.bootGeneration → awaited.epoch ≤ identity.epoch

variable {held : HistoryState}

theorem awaitedIdentity_of_none (h : held.awaited = none) :
    held.awaitedIdentity = ⟨held.bootGeneration, held.epoch⟩ := by
  unfold HistoryState.awaitedIdentity
  rw [h]
  rfl

/-- A signal that applies to a live history names the history's own identity. -/
theorem classifySignal_apply (hlive : held.invalidatedAtGeneration = none)
    (hawait : held.awaited = none) {boot : String} {epoch : Nat} {incarnation : Option String}
    (hinc : incarnation.isSome)
    (h : classifySignal held ⟨some boot, some epoch, incarnation⟩ = .apply) :
    Matches held.toReadIdentity boot epoch incarnation := by
  unfold classifySignal at h
  rw [awaitedIdentity_of_none hawait] at h
  dsimp only at h
  split_ifs at h with h1 h2 h3 h4
  have hboot : compareBootGeneration held.bootGeneration boot = .apply := by
    cases hc : compareBootGeneration held.bootGeneration boot with
    | apply => rfl
    | ignore => exact absurd hc h1
    | replace => exact absurd (Or.inl hc) h2
  refine ⟨hboot, by omega, ?_⟩
  by_contra hne
  exact h4 ⟨by rw [hlive]; rfl, hinc, hne⟩

/-- A signal that is not ignored is not older than what is awaited. -/
theorem notOlder_of_classifySignal {identity : ReadIdentity}
    (h : classifySignal held
      { bootGeneration := some identity.bootGeneration, epoch := some identity.epoch } ≠ .ignore) :
    NotOlder held.awaitedIdentity identity := by
  unfold classifySignal at h
  dsimp only at h
  constructor
  · intro hboot
    rw [if_pos hboot] at h
    exact h rfl
  · intro hboot
    unfold BootApplies at hboot
    by_contra hlt
    rw [hboot, if_neg (by decide), if_neg (by simp; omega), if_pos (by omega)] at h
    exact h rfl

theorem supersededRead_false {generation : Nat} (h : supersededRead held generation = false) :
    held.issuedGeneration ≤ generation ∧
      ∀ threshold, held.invalidatedAtGeneration = some threshold → threshold < generation := by
  unfold supersededRead at h
  rw [Bool.or_eq_false_iff] at h
  refine ⟨by simpa using h.1, fun threshold ht => ?_⟩
  have h2 := h.2
  rw [ht] at h2
  simpa using h2

/-- What is read back from a disposition that is not `discard`. -/
theorem readDisposition_spec {generation : Nat} {identity : ReadIdentity}
    (h : readDisposition held generation identity ≠ .discard) :
    supersededRead held generation = false ∧
      readDisposition held generation identity = identityDisposition held identity := by
  unfold readDisposition at h ⊢
  cases hs : supersededRead held generation with
  | true =>
    rw [hs] at h
    exact absurd rfl h
  | false => exact ⟨rfl, rfl⟩

/-- A read merges only into a live history, under the history's own identity. -/
theorem identityDisposition_merge {identity : ReadIdentity}
    (h : identityDisposition held identity = .merge) :
    held.invalidatedAtGeneration = none ∧
      Matches held.toReadIdentity identity.bootGeneration identity.epoch identity.incarnation := by
  unfold identityDisposition at h
  split at h
  · split at h <;> cases h
  · next hlive =>
    split at h
    · cases h
    · cases h
    · next hboot =>
      split_ifs at h with h1 h2 h3
      rw [not_or] at h2
      refine ⟨by simpa using hlive, hboot, by omega, ?_⟩
      simpa using h2.2

/-- A read that is not discarded is not older than what is held, or awaited. -/
theorem identityDisposition_notOlder {identity : ReadIdentity}
    (hawait : held.invalidatedAtGeneration = none → held.awaited = none)
    (h : identityDisposition held identity ≠ .discard) :
    NotOlder held.awaitedIdentity identity := by
  unfold identityDisposition at h
  split at h
  · split at h
    · exact absurd rfl h
    · next hsig => exact notOlder_of_classifySignal hsig
  · next hlive =>
    rw [awaitedIdentity_of_none (hawait (by simpa using hlive))]
    constructor
    · intro hboot
      rw [hboot] at h
      exact h rfl
    · intro hboot
      unfold BootApplies at hboot
      dsimp only at hboot ⊢
      by_contra hlt
      rw [hboot] at h
      rw [if_pos (by omega)] at h
      exact h rfl

/-- A page merges only into a live history, on a signal that applies. -/
theorem pageDisposition_merge_live {resp : ThreadTurnsListResponse}
    (h : pageDisposition held resp = .merge) :
    held.invalidatedAtGeneration = none ∧ classifySignal held resp.identity.signal = .apply := by
  unfold pageDisposition at h
  split at h
  · cases h
  · split at h
    · cases h
    · cases h
    · next hsig =>
      split at h
      · split at h <;> cases h
      · next hlive => exact ⟨by simpa using hlive, hsig⟩

/-- The signal of a page that merges names the held history's own identity. -/
theorem pageDisposition_merge {resp : ThreadTurnsListResponse}
    (hawait : held.invalidatedAtGeneration = none → held.awaited = none)
    (hsnap : resp.identity.incarnation.isSome) (h : pageDisposition held resp = .merge) :
    Matches held.toReadIdentity resp.identity.bootGeneration resp.identity.epoch
      resp.identity.incarnation := by
  obtain ⟨hlive, hsig⟩ := pageDisposition_merge_live h
  exact classifySignal_apply hlive (hawait hlive) hsnap hsig

end Evener.Transcript
