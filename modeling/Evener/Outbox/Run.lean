/-
  Runs of the outbox: the transactions any number of tabs issue against one database, in the order
  they commit.

  `fault` is a failure of the commit itself; a transaction that fails for any reason leaves the
  four stores as they were. The sweeps a settlement starts wait in `sweeps` until some later step
  runs them.
-/
import Evener.Outbox.Operations
import Mathlib.Data.List.Induction

namespace Evener.Outbox

open Evener.Lib

inductive OutboxOp where
  | enqueueIntent (tab : Tab) (intent : MutationIntent) (barrier : Option Nat)
  | enqueueInterruptAndCancel (tab : Tab) (intent : MutationIntent)
  | cancelUnattempted (targetRef : String)
  | discardCanceled (targetRef : String)
  | discardCanceledOfInstance (targetRef supersededInstanceId : String)
  | mintRetryFromRow (tab : Tab) (id : String) (capture : MutationRetryCapture)
  | retargetOutbox (fromRef toRef : String) (identity : ResumedIdentity)
  | settleReceipt (id projectionState : String)
  | settleApplied (id : String)
  | sweep (index : Nat)
  | markAttempted (id : String)
  | unmarkAttempted (id : String)
  | markUnknown (id : String) (onlyAttempted : Bool)
  | restoreProvenAbsent (tab : Tab) (targetRef : String) (authoritativeIds : List String)
  | transferToRecovery (id : String) (recoveryKind : MutationRecoveryKind)
      (recoveryReason : Option String) (wireDeliveryUncertain : Bool)
  | editQueuedMessage (expected : MutationOutboxRecord) (barrier : Nat)
  | removeQueuedMessage (expected : MutationOutboxRecord) (barrier : Nat)
  | updateRecoveryInput (id : String) (update : RecoveryUpdate)
  | preserveRecoveryComposition (tab : Tab) (base : MutationRecoveryRecord)
      (draft : PreservedComposition)
  | discardRecovery (id : String) (shouldDiscard : Bool) (expectedRevision : Option Nat)
  | resendRecovery (tab : Tab) (request : ResendRequest)

inductive Reply where
  | row (record : Option MutationOutboxRecord)
  | rows (requeued : List (String × MutationOutboxRecord))
  | recovery (record : Option MutationRecoveryRecord)
  | flag (b : Bool)
  | keys (ids : List String)
  | moved (mutations : RetargetedMutations)
  | settled (outcome : SettleOutcome)
  | resent (result : MutationRecoveryResendResult)

/-- The origin's database and the sweeps its settlements left to run. -/
structure World where
  db : Db := {}
  sweeps : List Sweep := []

variable (supply : Nat → String)

/-- The body of one call; a sweep runs the pending sweep it names. -/
def exec (sweeps : List Sweep) : OutboxOp → DbTx Reply
  | .enqueueIntent tab intent barrier => do
    return .row (some (← enqueueIntent supply tab intent barrier))
  | .enqueueInterruptAndCancel tab intent => do
    return .row (some (← enqueueInterruptAndCancel supply tab intent).1)
  | .cancelUnattempted targetRef => do return .keys (← cancelUnattempted targetRef)
  | .discardCanceled targetRef => do return .keys (← discardCanceled targetRef)
  | .discardCanceledOfInstance targetRef instanceId => do
    return .keys (← discardCanceledOfInstance targetRef instanceId)
  | .mintRetryFromRow tab id capture => do
    return .row (← mintRetryFromRow supply tab id capture).1
  | .retargetOutbox fromRef toRef identity => do
    return .moved (← retargetOutbox fromRef toRef identity)
  | .settleReceipt id projectionState => do
    return .settled (← settleReceiptResult id projectionState)
  | .settleApplied id => do return .settled (← settleAppliedResult id)
  | .sweep index =>
    match sweeps[index]? with
    | some sweep => do return .keys (← runSweep sweep)
    | none => return .keys []
  | .markAttempted id => do return .flag (← markAttempted id)
  | .unmarkAttempted id => do return .flag (← unmarkAttempted id)
  | .markUnknown id onlyAttempted => do return .flag (← markUnknown id onlyAttempted)
  | .restoreProvenAbsent tab targetRef ids => do
    return .rows (← restoreProvenAbsent supply tab targetRef ids).1
  | .transferToRecovery id kind reason uncertain => do
    return .recovery (← transferToRecovery id kind reason uncertain)
  | .editQueuedMessage expected barrier => do
    return .recovery (← editQueuedMessage expected barrier)
  | .removeQueuedMessage expected barrier => do
    return .flag (← removeQueuedMessage expected barrier).1
  | .updateRecoveryInput id update => do
    return .recovery (← updateRecoveryInput id update).1
  | .preserveRecoveryComposition tab base draft => do
    return .recovery (some (← preserveRecoveryComposition supply tab base draft))
  | .discardRecovery id shouldDiscard expectedRevision => do
    return .flag (← discardRecovery id shouldDiscard expectedRevision).1
  | .resendRecovery tab request => do
    return .resent (← resendRecoveryResult supply tab request)

/-- An abort restores the four stores; ids already handed out stay used. -/
def rollback (before after : Db) : Db := { before with drawn := after.drawn }

/-- One call and how its commit went. -/
structure Step where
  op : OutboxOp
  fault : Option OutboxError := none

/-- A step and the world it ran on. -/
structure Event where
  before : World
  step : Step

/-- The transaction an event ran, with its reply and the database it left. -/
def Event.result (event : Event) : Except OutboxError Reply × Db :=
  Tx.runTransaction rollback event.step.fault
    (exec supply event.before.sweeps event.step.op) event.before.db

/-- The sweeps a reply starts. -/
def Reply.sweeps : Reply → List Sweep
  | .settled outcome => outcome.sweeps
  | _ => []

/-- The sweeps left after an event: a settlement adds its own, a sweep that ran is gone. -/
def Event.sweepsAfter (event : Event) : List Sweep :=
  match event.step.op, (event.result supply).1 with
  | .sweep index, _ => event.before.sweeps.eraseIdx index
  | _, .ok reply => event.before.sweeps ++ reply.sweeps
  | _, .error _ => event.before.sweeps

def Event.after (event : Event) : World where
  db := (event.result supply).2
  sweeps := event.sweepsAfter supply

/-- The events of a run from `w`. -/
def events (w : World) : List Step → List Event
  | [] => []
  | step :: steps => ⟨w, step⟩ :: events (Event.after supply ⟨w, step⟩) steps

/-- The world a run ends in. -/
def run (w : World) : List Step → World
  | [] => w
  | step :: steps => run (Event.after supply ⟨w, step⟩) steps

theorem run_append (w : World) (steps steps' : List Step) :
    run supply w (steps ++ steps') = run supply (run supply w steps) steps' := by
  induction steps generalizing w with
  | nil => rfl
  | cons step steps ih => exact ih _

theorem events_append (w : World) (steps steps' : List Step) :
    events supply w (steps ++ steps') =
      events supply w steps ++ events supply (run supply w steps) steps' := by
  induction steps generalizing w with
  | nil => rfl
  | cons step steps ih =>
    rw [List.cons_append, events, ih]
    rfl

/-- What holds of the empty database and survives every step holds after every run, with the
    events of the run at hand. -/
theorem run_induction {P : List Event → World → Prop} (hstart : P [] {})
    (hstep : ∀ (trace : List Event) (w : World) (step : Step), P trace w →
      P (trace ++ [⟨w, step⟩]) (Event.after supply ⟨w, step⟩)) (steps : List Step) :
    P (events supply {} steps) (run supply {} steps) := by
  induction steps using List.reverseRecOn with
  | nil => exact hstart
  | append_singleton steps step ih =>
    rw [run_append, events_append]
    exact hstep _ _ _ ih

/-! ## A small setting for runs on fixed inputs -/

/-- Ids told apart by their length: `"i"`, `"ii"`, `"iii"`, ... -/
def tallyIds (n : Nat) : String := String.ofList (List.replicate (n + 1) 'i')

theorem tallyIds_injective : Function.Injective tallyIds := by
  intro m n h
  have hlength := congrArg List.length (String.ofList_injective h)
  simpa using hlength

def oneTab : Tab where
  ownClientId := "tab"
  now := 0
  createPresentationId _ := "attachment"

def sendTo (targetRef : String) : MutationIntent where
  targetRef := targetRef
  method := sendMethod
  payload := [("ref", .str targetRef)]

end Evener.Outbox
