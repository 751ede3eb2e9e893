/-
  Accepting a client mutation: what each method's preparation reserves and what its effect does.

  A preparation runs once, on an id the journal does not hold; the effect runs on the in-flight
  record it left, in the same call or in a later retry.
-/
import Evener.ClientMutation.Records
import Evener.Lib.StableSort
import Mathlib.Data.List.Destutter
import Mathlib.Data.String.Basic

namespace Evener.ClientMutation

open Evener.Lib

/-- The session values the transitions read. No turn limit is a `maxTurns` of zero. -/
structure Config where
  threadID : String
  maxTurns : Nat

/-- The methods that go through `acceptClientMutation`. -/
inductive InputMethod where
  | start
  | queue
  | steer
  | drain
  | promote
  | cancel
deriving DecidableEq

def InputMethod.method : InputMethod → Method
  | .start => .start
  | .queue => .queue
  | .steer => .steer
  | .drain => .drain
  | .promote => .promote
  | .cancel => .cancel

structure InputRequest where
  method : InputMethod
  params : Params
  actor : SessionActor := {}
  payloadHash : String

/-! ## Shared pieces -/

def reserveClientMutationTurnID (s : Snapshot) (record : Record) : Snapshot × Record :=
  ({ s with nextTurnSequence := s.nextTurnSequence + 1 },
    { record with stableTurnID := clientMutationTurnID (s.nextTurnSequence + 1) })

def reservedClientMutationTurns (s : Snapshot) : Nat :=
  (s.budgetReservations.map fun reservation => reservation.2.slots).sum

/-- `MaxTurns > 0` and no turn of it is left. -/
def budgetExhausted (cfg : Config) (s : Snapshot) : Bool :=
  0 < cfg.maxTurns && cfg.maxTurns ≤ s.acceptedTurns + reservedClientMutationTurns s

def budgetExhaustionMessage (limit : Nat) : String := s!"max_turns exhausted at limit {limit}"

def clientMutationQueueEntryReserved (s : Snapshot) (entryID : String) : Bool :=
  s.journal.any fun record =>
    record.operationState = .inFlight && entryID ∈ record.stableQueueEntryIDs

def findClientMutationQueueEntry (entries : List QueueEntry) (id : String) : Option QueueEntry :=
  entries.find? fun entry => entry.id = id

/-- `append(queue[:index], queue[index+1:]...)` at the first entry of that id. -/
def dropQueueEntry (entries : List QueueEntry) (id : String) : List QueueEntry :=
  entries.eraseP fun entry => entry.id = id

/-- The entries of `ids` in that order and what is left of the queue; `none` when one is gone. -/
def takeClientMutationQueueEntries (queue : List QueueEntry) (ids : List String) :
    Option (List QueueEntry × List QueueEntry) :=
  (ids.mapM (findClientMutationQueueEntry queue)).map fun selected =>
    (selected, queue.filter fun entry => entry.id ∉ ids)

def removeQueuedMutationSource (s : Snapshot) (entry : QueueEntry)
    (executionState : ExecutionState) : Snapshot :=
  let s := s.release entry.clientMutationID
  match s.record? entry.clientMutationID with
  | none => s
  | some record =>
    s.putRecord
      { record with
        operationState := .terminal
        executionState := executionState
        projectionState := .removed
        payload := none }

def addPendingSteeringAs (s : Snapshot) (record : Record) (input : Input)
    (actor : SessionActor) : Snapshot :=
  let s := s.putPending
    { actor := wireSessionActor actor
      clientMutationID := record.clientMutationID
      method := record.method
      input := input
      executionState := .accepted
      turnID := record.stableTurnID
      projectionState := acceptedClientMutationProjection record.method }
  { s with steeringOrder := s.steeringOrder ++ [record.clientMutationID] }

def addPendingSteering (s : Snapshot) (record : Record) (input : Input) : Snapshot :=
  addPendingSteeringAs s record input record.actor

/-- A user-initiated run ends the wait a Stop started. -/
def releaseHolds (s : Snapshot) : Snapshot := { s with queueHeld := false, steeringHeld := false }

def receiptOf (cfg : Config) (record : Record) : MutationReceipt :=
  mutationReceipt cfg.threadID record (acceptedClientMutationProjection record.method)

/-! ## Starts -/

/-- The slot names the turn this process inherited, and that turn runs again. -/
def recoveredTurnRunning (recoveredTurnID : String) (s : Snapshot) : Bool :=
  recoveredTurnID ≠ "" && s.activeTurnID = recoveredTurnID &&
    match s.pendingExecutions.find? fun p => p.method = .start && p.turnID = s.activeTurnID with
    | some pending => pending.executionState = .claimed || pending.executionState = .incorporated
    | none => false

def prepareStart (cfg : Config) (recoveredTurnID : String) (params : Params) (s : Snapshot)
    (record : Record) : Snapshot × Record :=
  if params.input = [] then (s, rejectClientMutation record .invalidParams "input is required")
  else if s.activeTurnID ≠ "" && !recoveredTurnRunning recoveredTurnID s then
    (s, rejectClientMutation record .conflict "turn is already active")
  else if budgetExhausted cfg s then
    (s, rejectClientMutation record .conflict (budgetExhaustionMessage cfg.maxTurns))
  else
    let (s, record) := reserveClientMutationTurnID (releaseHolds s) record
    (s.reserve record.clientMutationID { turnID := record.stableTurnID, slots := 1 },
      { record with executionState := .accepted })

def effectStart (cfg : Config) (params : Params) (s : Snapshot) (record : Record) :
    Option (Snapshot × Record) :=
  let response := { receipt := receiptOf cfg record, turn := some record.stableTurnID }
  -- a running turn keeps its name: the slot is taken only when it is free
  let s := if s.activeTurnID = "" then { s with activeTurnID := record.stableTurnID } else s
  some (s.putPending
      { actor := wireSessionActor record.actor
        clientMutationID := record.clientMutationID
        method := record.method
        input := params.input
        executionState := .accepted
        turnID := record.stableTurnID
        projectionState := acceptedClientMutationProjection record.method },
    applyClientMutationRecord record response (acceptedClientMutationProjection record.method))

/-! ## Queued input -/

def prepareQueue (cfg : Config) (params : Params) (s : Snapshot) (record : Record) :
    Snapshot × Record :=
  if params.input = [] then (s, rejectClientMutation record .invalidParams "input is required")
  else if budgetExhausted cfg s then
    (s, rejectClientMutation record .conflict (budgetExhaustionMessage cfg.maxTurns))
  else
    let s := { s with nextQueueEntrySequence := s.nextQueueEntrySequence + 1 }
    (s.reserve params.clientMutationID { slots := 1 },
      { record with
        stableQueueEntryIDs := [queueEntryID s.nextQueueEntrySequence]
        executionState := .accepted })

def effectQueue (cfg : Config) (params : Params) (s : Snapshot) (record : Record) :
    Option (Snapshot × Record) := do
  let entryID ← record.stableQueueEntryIDs.head?
  let s := releaseHolds s
  return ({ s with
      inputQueue := s.inputQueue ++
        [{ actor := record.actor
           id := entryID
           clientMutationID := record.clientMutationID
           input := params.input }]
      queueRevision := s.queueRevision + 1 },
    applyClientMutationRecord record { receipt := receiptOf cfg record }
      (acceptedClientMutationProjection record.method))

/-! ## Steering -/

def prepareSteer (params : Params) (s : Snapshot) (record : Record) : Snapshot × Record :=
  if params.input = [] then (s, rejectClientMutation record .invalidParams "input is required")
  else
    let (s, record) := reserveClientMutationTurnID s record
    (s, { record with executionState := .accepted })

def effectSteer (cfg : Config) (params : Params) (s : Snapshot) (record : Record) :
    Option (Snapshot × Record) :=
  some (addPendingSteering s record params.input,
    applyClientMutationRecord record { receipt := receiptOf cfg record }
      (acceptedClientMutationProjection record.method))

def prepareDrain (params : Params) (s : Snapshot) (record : Record) : Snapshot × Record :=
  if s.queueRevision ≠ params.expectedQueueRevision then
    (s, rejectClientMutation record .conflict "queue revision changed")
  else if s.inputQueue = [] ∧ params.input = [] then
    (s, rejectClientMutation record .conflict "queue is empty")
  else if s.inputQueue.any fun entry => clientMutationQueueEntryReserved s entry.id then
    (s, rejectClientMutation record .conflict
      "queue contains an entry reserved by another mutation")
  else
    let entryIDs := s.inputQueue.map QueueEntry.id
    let (s, record) := reserveClientMutationTurnID s record
    (s, { record with stableQueueEntryIDs := entryIDs, executionState := .accepted })

def effectDrain (cfg : Config) (params : Params) (s : Snapshot) (record : Record) :
    Option (Snapshot × Record) :=
  match takeClientMutationQueueEntries s.inputQueue record.stableQueueEntryIDs with
  | none =>
    some (s, rejectClientMutation record .conflict "reserved queue entries are no longer available")
  | some (entries, remaining) =>
    let s := entries.foldl (fun s entry => removeQueuedMutationSource s entry .transformed)
      (releaseHolds s)
    let s := { s with inputQueue := remaining, queueRevision := s.queueRevision + 1 }
    let receipt :=
      { receiptOf cfg record with
        consumedClientMutationIDs := entries.map QueueEntry.clientMutationID }
    -- entries of several authors become one message, so it is the draining actor's
    some (addPendingSteering s record (combineClientMutationInputs entries params.input),
      applyClientMutationRecord record { receipt := receipt }
        (acceptedClientMutationProjection record.method))

/-! ## One queued entry: promotion and cancellation -/

/-- The entry at `params.index`, or the rejection its checks end in. -/
def selectedQueueEntry (verb : String) (params : Params) (s : Snapshot) :
    Except String QueueEntry :=
  let index := params.index
  let depth := s.inputQueue.length
  match (if 0 ≤ index then s.inputQueue[index.toNat]? else none) with
  | none => .error s!"{verb}: queue index {index} out of range (depth {depth})"
  | some entry =>
    if params.expectedEntryID ≠ "" ∧ entry.id ≠ params.expectedEntryID then
      .error s!"{verb}: queue entry at index {index} no longer matches the snapshot (queue changed)"
    else if clientMutationQueueEntryReserved s entry.id then
      .error "queue entry is reserved by another mutation"
    else .ok entry

def preparePromote (params : Params) (s : Snapshot) (record : Record) : Snapshot × Record :=
  match selectedQueueEntry "promote" params s with
  | .error message => (s, rejectClientMutation record .conflict message)
  | .ok entry =>
    let (s, record) := reserveClientMutationTurnID s record
    (s, { record with stableQueueEntryIDs := [entry.id], executionState := .accepted })

def effectPromote (cfg : Config) (s : Snapshot) (record : Record) : Option (Snapshot × Record) := do
  let entryID ← record.stableQueueEntryIDs.head?
  match findClientMutationQueueEntry s.inputQueue entryID with
  | none =>
    return (s, rejectClientMutation record .conflict "reserved queue entry is no longer available")
  | some entry =>
    let s := releaseHolds s
    let s :=
      { s with
        inputQueue := dropQueueEntry s.inputQueue entryID
        queueRevision := s.queueRevision + 1 }
    let s := removeQueuedMutationSource s entry .transformed
    return (addPendingSteeringAs s record entry.input entry.actor,
      applyClientMutationRecord record { receipt := receiptOf cfg record }
        (acceptedClientMutationProjection record.method))

def prepareCancel (params : Params) (s : Snapshot) (record : Record) : Snapshot × Record :=
  match selectedQueueEntry "cancel" params s with
  | .error message => (s, rejectClientMutation record .conflict message)
  | .ok entry => (s, { record with stableQueueEntryIDs := [entry.id], executionState := .accepted })

def effectCancel (cfg : Config) (s : Snapshot) (record : Record) : Option (Snapshot × Record) := do
  let entryID ← record.stableQueueEntryIDs.head?
  match findClientMutationQueueEntry s.inputQueue entryID with
  | none =>
    return (s, rejectClientMutation record .conflict "reserved queue entry is no longer available")
  | some entry =>
    let queued := queuedInputFromClientMutation entry
    let response :=
      { receipt := receiptOf cfg record
        removedText := queued.text
        removedImages := queued.images.length }
    let s :=
      { s with
        inputQueue := dropQueueEntry s.inputQueue entryID
        queueRevision := s.queueRevision + 1 }
    return (removeQueuedMutationSource s entry .canceled,
      { record with
        operationState := .terminal
        executionState := .canceled
        projectionState := .removed
        payload := none
        result := some response })

/-! ## Interrupts -/

def snapshotHasPendingUserSteering (s : Snapshot) : Bool :=
  s.steeringOrder.any fun id =>
    (s.pending? id).any fun pending => pending.executionState = .accepted

def sessionIsQuiesced (running : Bool) (claimedTurnID : String) : Bool :=
  !running && !hasText claimedTurnID

/-- `running` is the session's own answer, sampled before the store is locked. -/
def prepareInterrupt (running : Bool) (s : Snapshot) (record : Record) : Snapshot × Record :=
  if s.interruptFence.isSome then
    (s, rejectClientMutation record .conflict "turn interrupt is already pending")
  else if sessionIsQuiesced running s.activeTurnID then
    (s, rejectClientMutation record .conflict "session is not processing")
  else
    ({ s with
        interruptFence := some
          { clientMutationID := record.clientMutationID, expectedTurnID := s.activeTurnID }
        queueHeld := true
        steeringHeld := snapshotHasPendingUserSteering s },
      { record with stableTurnID := s.activeTurnID, executionState := .interruptRequested })

/-! ## The methods -/

def prepareMethod (cfg : Config) (recoveredTurnID : String) (params : Params) :
    InputMethod → Snapshot → Record → Snapshot × Record
  | .start => prepareStart cfg recoveredTurnID params
  | .queue => prepareQueue cfg params
  | .steer => prepareSteer params
  | .drain => prepareDrain params
  | .promote => preparePromote params
  | .cancel => prepareCancel params

def effectMethod (cfg : Config) (params : Params) :
    InputMethod → Snapshot → Record → Option (Snapshot × Record)
  | .start => effectStart cfg params
  | .queue => effectQueue cfg params
  | .steer => effectSteer cfg params
  | .drain => effectDrain cfg params
  | .promote => effectPromote cfg
  | .cancel => effectCancel cfg

/-- `slices.Sort` then `slices.Compact`. -/
def sortedCompact (ids : List String) : List String := (sortBy id ids).destutter (· ≠ ·)

/-- The conversation inputs a mutation stands for: its own, and those of the entries it consumes. -/
def conversationInputIDs (params : Params) (s : Snapshot) (record : Record) : List String :=
  let own :=
    match record.method with
    | .start | .queue | .steer | .drain =>
      if params.input ≠ [] then ["client:" ++ record.clientMutationID] else []
    | .promote | .cancel | .interrupt => []
  let consumed :=
    match record.method with
    | .drain | .promote =>
      (s.inputQueue.filter fun entry => entry.id ∈ record.stableQueueEntryIDs).flatMap fun entry =>
        ((s.record? entry.clientMutationID).map Record.conversationInputIDs).getD []
    | .start | .queue | .steer | .cancel | .interrupt => []
  sortedCompact (record.conversationInputIDs ++ own ++ consumed)

/-- The preparation `acceptClientMutation` journals. A cancellation alone may proceed while a Stop
    is pending. -/
def acceptClientMutationPrepare (cfg : Config) (recoveredTurnID : String) (request : InputRequest)
    (s : Snapshot) (record : Record) : Snapshot × Record :=
  if s.interruptFence.isSome && request.method ≠ .cancel then
    (s, rejectClientMutation record .conflict "turn interrupt is pending")
  else
    let (s, record) := prepareMethod cfg recoveredTurnID request.params request.method s record
    if record.operationState = .rejected then (s, record)
    else
      (s, { record with
        conversationInputIDs := conversationInputIDs request.params s record })

end Evener.ClientMutation
