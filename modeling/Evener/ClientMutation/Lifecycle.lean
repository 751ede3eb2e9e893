/-
  The transitions an accepted mutation goes through: claims, returns, incorporation, completion,
  the end of a Stop, and what a restart makes of the loaded snapshot.

  A transition is a function of the snapshot; `none` is one whose mutation returns an error, so
  that nothing is committed. What the session samples before it locks the store is an argument,
  and so is the order in which a loop visits the pending executions.
-/
import Evener.ClientMutation.Accept
import Mathlib.Data.Prod.Lex

namespace Evener.ClientMutation

open Evener.Lib

/-! ## Claiming queued input -/

def queueHeadClaimable (s : Snapshot) : Bool :=
  match s.inputQueue with
  | [] => false
  | entry :: _ =>
    s.interruptFence.isNone && !s.queueHeld && !clientMutationQueueEntryReserved s entry.id

/-- The head of the queue becomes the claimed execution of its record. -/
def claimQueueEntry (s : Snapshot) (record : Record) (entry : QueueEntry)
    (rest : List QueueEntry) : Snapshot × QueuedInput :=
  let record :=
    { record with
      executionState := .claimed
      projectionState := acceptedClientMutationProjection record.method }
  let s := (s.putRecord record).putPending
    { clientMutationID := entry.clientMutationID
      method := record.method
      input := entry.input
      executionState := .claimed
      turnID := record.stableTurnID
      queueEntryIDs := [entry.id]
      projectionState := acceptedClientMutationProjection record.method }
  let s :=
    { s.release entry.clientMutationID with
      inputQueue := rest
      queueRevision := s.queueRevision + 1
      acceptedTurns := s.acceptedTurns + 1 }
  (s, { queuedInputFromClientMutation entry with
    clientMutationID := entry.clientMutationID
    stableTurnID := record.stableTurnID })

/-- `healthy` is the transcript writer's answer, read inside the store's serializer. -/
def popQueueHead (healthy : Bool) (s : Snapshot) : Option (Snapshot × Option QueuedInput) :=
  if !queueHeadClaimable s then some (s, none)
  else if !healthy then none
  else
    match s.inputQueue with
    | [] => some (s, none)
    | entry :: rest => do
      let record ← s.record? entry.clientMutationID
      let named :=
        if record.stableTurnID = "" then reserveClientMutationTurnID s record else (s, record)
      let claimed := claimQueueEntry named.1 named.2 entry rest
      return ({ claimed.1 with activeTurnID := named.2.stableTurnID }, some claimed.2)

/-! ## Claiming starts -/

def clientMutationStartSequence (turnID : String) : Option Nat :=
  let chars := turnID.toList
  let digits := chars.drop 6
  let sequence := Nat.ofDigitChars 10 digits 0
  if "turn_m".toList.isPrefixOf chars ∧ digits ≠ [] ∧ digits.all Char.isDigit ∧ sequence < 2 ^ 64
  then some sequence else none

/-- Where a start stands among the claimable ones: the inherited turn first when its name has no
    sequence, then by sequence, then names without one, then by id. -/
def startRank (recoveredTurnID : String) (s : Snapshot) (startID : String) :
    Nat ×ₗ Nat ×ₗ Nat ×ₗ String :=
  let turnID := ((s.pending? startID).map PendingMutation.turnID).getD ""
  let inherited :=
    recoveredTurnID ≠ "" ∧ clientMutationStartSequence recoveredTurnID = none ∧
      turnID = recoveredTurnID
  let sequence := clientMutationStartSequence turnID
  toLex (if inherited then 0 else 1,
    toLex (if sequence.isSome then 0 else 1, toLex (sequence.getD 0, startID)))

def claimableClientMutationStartIDs (recoveredTurnID : String) (s : Snapshot) : List String :=
  sortBy (startRank recoveredTurnID s)
    ((s.pendingExecutions.filter fun pending =>
      pending.method = .start &&
        (pending.executionState = .accepted || pending.executionState = .incorporated)).map
      PendingMutation.clientMutationID)

/-- The start branch: an accepted start is claimed, an incorporated one is handed out again. -/
def claimStart (s : Snapshot) (record : Record) (pending : PendingMutation) :
    Snapshot × QueuedInput :=
  let projection := acceptedClientMutationProjection record.method
  let claimed : Snapshot × Record × PendingMutation :=
    if pending.executionState = .accepted then
      ({ s.release pending.clientMutationID with acceptedTurns := s.acceptedTurns + 1 },
        { record with executionState := .claimed, projectionState := projection },
        { pending with executionState := .claimed, projectionState := projection })
    else (s, record, pending)
  -- the claim is the authority on the slot, so it names this turn whatever the slot named
  ({ (claimed.1.putRecord claimed.2.1).putPending claimed.2.2 with
      activeTurnID := pending.turnID },
    { queuedInputFromClientMutation { id := "", clientMutationID := "", input := pending.input } with
      clientMutationID := pending.clientMutationID
      stableTurnID := pending.turnID })

/-- A queued turn whose transcript entry landed, under the name the slot still holds. -/
def incorporatedQueueTurn? (order : List String) (s : Snapshot) : Option PendingMutation :=
  order.findSome? fun id =>
    (s.pending? id).filter fun pending =>
      pending.method = .queue && pending.executionState = .incorporated && pending.turnID ≠ "" &&
        s.activeTurnID = pending.turnID

def claimClientMutationStart (recoveredTurnID : String) (order : List String) (healthy : Bool)
    (s : Snapshot) : Option (Snapshot × Option QueuedInput) :=
  let startIDs :=
    if s.interruptFence.isNone then claimableClientMutationStartIDs recoveredTurnID s else []
  match startIDs with
  | id :: _ => do
    let pending ← s.pending? id
    let record ← s.record? id
    if !healthy then none
    else
      let claimed := claimStart s record pending
      return (claimed.1, some claimed.2)
  | [] =>
    -- the queue branches are not fenced
    match incorporatedQueueTurn? order s with
    | some pending =>
      if !healthy then none
      else
        let queued := queuedInputFromClientMutation
          { id := "", clientMutationID := "", input := pending.input }
        let entryID :=
          match pending.queueEntryIDs with
          | [entryID] => entryID
          | _ => queued.id
        some (s, some { queued with
          id := entryID
          clientMutationID := pending.clientMutationID
          stableTurnID := pending.turnID })
    | none =>
      match s.inputQueue with
      | [] => some (s, none)
      | entry :: rest =>
        match s.record? entry.clientMutationID with
        | none => some (s, none)
        | some record =>
          if record.method ≠ .queue ∨ record.stableTurnID = "" ∨
              s.activeTurnID ≠ record.stableTurnID then
            some (s, none)
          else if !healthy then none
          else
            let claimed := claimQueueEntry s record entry rest
            some (claimed.1, some claimed.2)

/-! ## Carriers and turns without a mutation -/

def steeringCarrierRailOpen (s : Snapshot) : Bool :=
  s.interruptFence.isNone && s.activeTurnID = "" && !s.steeringHeld

def claimableSteeringCarrier (s : Snapshot) (inFlight : List String) : Option PendingMutation :=
  s.steeringOrder.findSome? fun id =>
    (s.pending? id).filter fun pending =>
      pending.executionState = .accepted && pending.turnID ≠ "" && id ∉ inFlight

/-- `inFlight` holds the steers a turn has popped and is appending. -/
def claimSteeringCarrierInput (inFlight : List String) (healthy : Bool) (s : Snapshot) :
    Option (Snapshot × Option QueuedInput) :=
  if !steeringCarrierRailOpen s then some (s, none)
  else
    match claimableSteeringCarrier s inFlight with
    | none => some (s, none)
    | some pending =>
      if !healthy then none
      else some ({ s with activeTurnID := pending.turnID },
        some { clientMutationID := pending.clientMutationID
               stableTurnID := pending.turnID
               steeringCarrier := true })

/-- The name of a turn the agent starts for itself; `none` beside the state when it runs unnamed. -/
def mintRunningTurnID (s : Snapshot) : Snapshot × Option String :=
  if s.interruptFence.isSome || s.activeTurnID ≠ "" then (s, none)
  else
    let turnID := clientMutationTurnID (s.nextTurnSequence + 1)
    ({ s with nextTurnSequence := s.nextTurnSequence + 1, activeTurnID := turnID }, some turnID)

def releaseRunningTurnID (turnID : String) (s : Snapshot) : Snapshot :=
  if s.activeTurnID ≠ turnID then s else { s with activeTurnID := "" }

/-! ## Direct turns -/

/-- `acceptedTurnsFloor` is the session's own count of the turns it has run. -/
def claimDirectClientMutationTurn (cfg : Config) (acceptedTurnsFloor : Nat) (s : Snapshot) :
    Option Snapshot :=
  let s := { s with acceptedTurns := max s.acceptedTurns acceptedTurnsFloor }
  if budgetExhausted cfg s then none
  else some { s with acceptedTurns := s.acceptedTurns + 1 }

def returnClaimedDirectClientMutationTurn (s : Snapshot) : Snapshot :=
  { s with acceptedTurns := s.acceptedTurns - 1 }

/-! ## Incorporation and returns -/

def isUserTurn : Method → Bool
  | .queue | .start => true
  | .steer | .drain | .promote | .cancel | .interrupt => false

def markClaimedUserTranscriptIncorporated (id : String) (s : Snapshot) : Option Snapshot :=
  match s.pending? id with
  | none => some s
  | some pending =>
    if !isUserTurn pending.method then none
    else do
      let record ← s.record? id
      return (s.putRecord
          { record with executionState := .incorporated, projectionState := .reflected }).putPending
        { pending with executionState := .incorporated, projectionState := .reflected }

def returnClaimedClientMutationStart (id : String) (s : Snapshot) : Option Snapshot :=
  match s.pending? id with
  | none => some s
  | some pending =>
    if pending.method ≠ .start ∨ pending.executionState ≠ .claimed then some s
    else do
      let record ← s.record? id
      let s := (s.putRecord { record with executionState := .accepted }).putPending
        { pending with executionState := .accepted }
      return { s.reserve id { turnID := pending.turnID, slots := 1 } with
        acceptedTurns := s.acceptedTurns - 1 }

/-- The claimed entry goes back to the head of the queue; the caller stores the record. -/
def returnClaimedQueuedMutation (s : Snapshot) (id : String) (pending : PendingMutation)
    (record : Record) : Option (Snapshot × Record) :=
  match pending.queueEntryIDs with
  | [entryID] =>
    let s := (s.reserve id { turnID := pending.turnID, slots := 1 }).deletePending id
    some ({ s with
        inputQueue :=
          { actor := record.actor, id := entryID, clientMutationID := id, input := pending.input }
            :: s.inputQueue
        acceptedTurns := s.acceptedTurns - 1
        activeTurnID := if s.activeTurnID = pending.turnID then "" else s.activeTurnID },
      { record with projectionState := acceptedClientMutationProjection record.method })
  | _ => none

/-- The return both the completion of a turn and the end of a Stop make. -/
def returnQueuedClaim (s : Snapshot) (id : String) (pending : PendingMutation) (record : Record) :
    Option Snapshot := do
  let returned ← returnClaimedQueuedMutation s id pending record
  let s := returned.1.putRecord { returned.2 with executionState := .accepted }
  return { s with queueRevision := s.queueRevision + 1 }

/-! ## Steering the transcript holds -/

def finalizeSteeringInSnapshot (s : Snapshot) (id : String) (terminalState : ExecutionState) :
    Option Snapshot := do
  let record ← s.record? id
  let s := (s.putRecord
    { record with
      operationState := .terminal
      executionState := terminalState
      projectionState := .reflected
      payload := none }).deletePending id
  return { s with steeringOrder := s.steeringOrder.erase id }

def finalizeIncorporatedSteering (id : String) (s : Snapshot) : Option Snapshot :=
  match s.pending? id with
  | none => some s
  | some pending =>
    if pending.method = .queue then none else finalizeSteeringInSnapshot s id .incorporated

def reconcileSteer (recorded : String → Option ExecutionState) (s : Snapshot) (id : String) :
    Option Snapshot :=
  match s.pending? id with
  | none => some { s with steeringOrder := s.steeringOrder.erase id }
  | some _ =>
    match recorded id with
    | some state => finalizeSteeringInSnapshot s id state
    | none => some s

/-- `recorded` answers the terminal state the transcript's entry of a steer stands for. -/
def reconcileClientSteering (recorded : String → Option ExecutionState) (stopping : Bool)
    (s : Snapshot) : Option Snapshot := do
  let s ← s.steeringOrder.foldlM (reconcileSteer recorded) s
  let pending := snapshotHasPendingUserSteering s
  return { s with steeringHeld := pending && (stopping || s.steeringHeld) }

/-! ## The end of a Stop -/

/-- What is sampled before the store is locked to finalize a Stop. -/
structure StopSample where
  recorded : String → Option ExecutionState
  claimedRecorded : String → Bool
  order : List String

def interruptExecution (fence : InterruptFence) (sample : StopSample) (s : Snapshot)
    (id : String) : Option Snapshot :=
  match s.pending? id with
  | none => some s
  | some pending =>
    if pending.turnID ≠ fence.expectedTurnID ∨ id ∈ s.steeringOrder then some s
    else do
      let target ← s.record? id
      if pending.method = .queue ∧ pending.executionState = .claimed ∧
          !sample.claimedRecorded id then
        returnQueuedClaim s id pending target
      else
        return ((s.putRecord
          { target with
            operationState := .terminal
            executionState := .interrupted
            projectionState := .reflected
            payload := none }).deletePending id).release id

def finalizeClientMutationInterrupt (cfg : Config) (sample : StopSample) (s : Snapshot) :
    Option Snapshot :=
  match s.interruptFence with
  | none => some s
  | some fence => do
    let record ← s.record? fence.clientMutationID
    let s ← reconcileClientSteering sample.recorded true s
    let s ← sample.order.foldlM (interruptExecution fence sample) s
    let record := { record with stableTurnID := fence.expectedTurnID }
    let s := s.putRecord
      { record with
        operationState := .terminal
        executionState := .interrupted
        projectionState := acceptedClientMutationProjection record.method
        payload := none
        result := some { receipt := receiptOf cfg record } }
    return { s with activeTurnID := "", interruptFence := none }

/-! ## Completion -/

/-- Settle a user turn, and the Stop that was ending it. -/
def settleTurn (cfg : Config) (executionState : ExecutionState) (sample : StopSample)
    (s : Snapshot) (pending : PendingMutation) (record : Record) : Option Snapshot :=
  let stopped := (s.interruptFence.map InterruptFence.expectedTurnID) = some pending.turnID
  let s := (s.putRecord
    { record with
      operationState := .terminal
      executionState := if stopped then .interrupted else executionState
      projectionState := .reflected
      payload := none }).deletePending pending.clientMutationID
  let s := { s with activeTurnID := if s.activeTurnID = pending.turnID then "" else s.activeTurnID }
  if stopped then finalizeClientMutationInterrupt cfg sample s else some s

def completeClientMutationTurnWithState (cfg : Config) (id : String)
    (executionState : ExecutionState) (sample : StopSample) (s : Snapshot) : Option Snapshot :=
  match s.pending? id with
  | none => some s
  | some pending =>
    if pending.executionState = .claimed ∧ pending.method = .queue then do
      let record ← s.record? id
      if sample.claimedRecorded id then
        let pending := { pending with executionState := .incorporated }
        settleTurn cfg executionState sample (s.putPending pending) pending record
      else returnQueuedClaim s id pending record
    else if pending.executionState ≠ .incorporated then some s
    else if !isUserTurn pending.method then none
    else do
      let record ← s.record? id
      settleTurn cfg executionState sample s pending record

/-! ## Restart -/

def forgetRunningTurnNoOneOwns (s : Snapshot) : Snapshot :=
  if s.activeTurnID = "" then s
  else if s.pendingExecutions.any fun pending =>
      pending.turnID = s.activeTurnID && isUserTurn pending.method then s
  else { s with activeTurnID := "" }

def raiseTurnSequence (floor : Nat) (s : Snapshot) : Snapshot :=
  { s with nextTurnSequence := max s.nextTurnSequence floor }

def recoveredStartTurnID (s : Snapshot) : String :=
  if s.activeTurnID ≠ "" && s.pendingExecutions.any fun pending =>
      pending.method = .start && pending.turnID = s.activeTurnID then s.activeTurnID
  else ""

/-- What a restored session read from its transcript: the turn each recorded mutation was recorded
    under, and whether a steer's entry is a failure. -/
structure RestoreSample where
  turns : Nat
  incorporated : String → Option String
  failed : String → Bool
  order : List String

def restoreExecution (incorporated : String → Option String) (s : Snapshot) (id : String) :
    Option Snapshot :=
  match s.pending? id with
  | none => some s
  | some pending =>
    if pending.executionState = .failureRecording || !isUserTurn pending.method then some s
    else if incorporated id = some pending.turnID then do
      let record ← s.record? id
      return (s.putPending
          { pending with executionState := .incorporated, projectionState := .reflected }).putRecord
        { record with executionState := .incorporated, projectionState := .reflected }
    else if pending.executionState ≠ .claimed then some s
    else do
      let record ← s.record? id
      if pending.method = .queue then
        let returned ← returnClaimedQueuedMutation s id pending record
        return returned.1.putRecord { returned.2 with executionState := .accepted }
      else
        let s := s.putPending { pending with executionState := .accepted }
        let s :=
          { s.reserve id { turnID := pending.turnID, slots := 1 } with
            acceptedTurns := s.acceptedTurns - 1 }
        return s.putRecord { record with executionState := .accepted }

/-- A steer an older store marked claimed is accepted again. -/
def restoreClaimedSteer (s : Snapshot) (id : String) : Option Snapshot :=
  match s.pending? id with
  | none => some s
  | some pending =>
    if pending.executionState ≠ .claimed then some s
    else do
      let record ← s.record? id
      return (s.putPending { pending with executionState := .accepted }).putRecord
        { record with executionState := .accepted }

def restoredSteering (sample : RestoreSample) (s : Snapshot) (id : String) :
    Option ExecutionState :=
  if sample.incorporated id ≠ none ∧
      sample.incorporated id = (s.pending? id).map PendingMutation.turnID then
    some (if sample.failed id then .failed else .incorporated)
  else none

/-- The snapshot half of `restoreDurableClientMutationQueues`. -/
def restoreDurableClientMutationQueues (sample : RestoreSample) (s : Snapshot) :
    Option Snapshot := do
  let s := { s with acceptedTurns := max s.acceptedTurns sample.turns }
  let s ← sample.order.foldlM (restoreExecution sample.incorporated) s
  let s ← s.steeringOrder.foldlM restoreClaimedSteer s
  let s ← reconcileClientSteering (restoredSteering sample s) false s
  return { s with queueRevision := s.queueRevision + 1 }

end Evener.ClientMutation
