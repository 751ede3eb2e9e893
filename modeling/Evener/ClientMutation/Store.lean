/-
  The store and the runs of the daemon: the snapshot in memory, the file each save replaces, the
  owners of running interrupts, and the steps any caller takes.

  A save that fails before its rename changes nothing; one that renamed the file has committed,
  whatever the call reports. A restart reads the file back.
-/
import Evener.ClientMutation.Lifecycle

namespace Evener.ClientMutation

open Evener.Lib

/-! ## Saving -/

/-- How an effect's save ended. -/
inductive Save where
  | failed
  | saved
  | savedWithError
deriving DecidableEq

def Save.renamed : Save → Bool
  | .failed => false
  | .saved | .savedWithError => true

def validRecord (record : Record) : Bool :=
  record.clientMutationID ≠ "" && record.attemptGeneration ≠ 0 &&
    (record.payload.isSome || record.operationState = .terminal ||
      record.operationState = .rejected) &&
    (record.rejection.isSome == decide (record.operationState = .rejected))

def validateClientMutationSnapshot (s : Snapshot) : Bool :=
  s.journal.all validRecord && s.pendingExecutions.all fun pending => pending.clientMutationID ≠ ""

/-! ## The world -/

/-- What a mutation id has had committed. The effect of a Stop is its finalization. -/
inductive Commit where
  | prepare (id : String)
  | effect (id : String) (input : Input)
deriving DecidableEq

structure Owner where
  token : Nat
  attemptGeneration : Nat
deriving DecidableEq

structure Lease where
  clientMutationID : String
  token : Nat
  attemptGeneration : Nat

/-- `transcript` holds the turns the transcript has recorded, by mutation id. The history and the
    count of direct claims not yet returned are kept for the proofs; no step reads them. -/
structure World where
  file : Snapshot := {}
  store : Snapshot := {}
  owners : List (String × Owner) := []
  nextOwnerToken : Nat := 0
  recoveredTurnID : String := ""
  transcript : List (String × String) := []
  history : List Commit := []
  directClaims : Nat := 0

inductive Reply where
  | failed
  | done
  | replayed (record : Record)
  | reserved (record : Record)
  | joined (record : Record)
  | leased (lease : Lease)
  | handed (queued : Option QueuedInput)
  | named (turnID : Option String)

namespace World

variable (w : World)

/-- `commitStateLocked`, after the rename. -/
def commit (next : Snapshot) (commits : List Commit) : World :=
  { w with store := next, file := next, history := w.history ++ commits }

/-- The effect of the Stop a transition finalized. -/
def stopEffect (s next : Snapshot) : List Commit :=
  match s.interruptFence, next.interruptFence with
  | some fence, none => [.effect fence.clientMutationID []]
  | _, _ => []

/-- `clientMutationStore.mutate`. -/
def mutate (save : Save) (f : Snapshot → Option Snapshot) : World × Reply :=
  match f w.store with
  | none => (w, .failed)
  | some next =>
    if validateClientMutationSnapshot next && save.renamed then
      (w.commit next (stopEffect w.store next), if save = .saved then .done else .failed)
    else (w, .failed)

/-- A claim: what it hands out reaches its caller only when the whole call succeeds. -/
def claim (save : Save) (f : Snapshot → Option (Snapshot × Option QueuedInput)) : World × Reply :=
  match f w.store with
  | none => (w, .failed)
  | some (next, queued) =>
    if validateClientMutationSnapshot next && save.renamed then
      (w.commit next [], if save = .saved then .handed queued else .failed)
    else (w, .failed)

/-! ## Requests -/

/-- How the saves of one request end, and whether it fails between them. -/
structure Attempt where
  reservationSaved : Bool := true
  failsAfterReservation : Bool := false
  effectSave : Save := .saved

def applyEffect (request : InputRequest) (cfg : Config) (save : Save) : World × Reply :=
  match w.store.record? request.params.clientMutationID with
  | none => (w, .failed)
  | some current =>
    match effectMethod cfg request.params request.method w.store current with
    | none => (w, .failed)
    | some (s, record) =>
      let next := s.putRecord record
      if validateClientMutationSnapshot next && save.renamed then
        (w.commit next [.effect request.params.clientMutationID request.params.input],
          if save = .saved then .reserved record else .failed)
      else (w, .failed)

/-- The record an unseen request is journaled as. -/
def freshRecord (request : InputRequest) : Record where
  clientMutationID := request.params.clientMutationID
  method := request.method.method
  actor := request.actor
  payload := some request.params
  payloadHash := request.payloadHash

def nextAttempt (record : Record) : Record :=
  { record with attemptGeneration := record.attemptGeneration + 1 }

/-- `executeAtomic` of a request made by `acceptClientMutation`. -/
def executeAtomic (cfg : Config) (request : InputRequest) (attempt : Attempt) : World × Reply :=
  let id := request.params.clientMutationID
  if id = "" then (w, .failed)
  else
    match w.store.record? id with
    | some current =>
      if current.method ≠ request.method.method ∨ current.payloadHash ≠ request.payloadHash then
        (w, .failed)
      else if current.operationState ≠ .inFlight then (w, .replayed current)
      else
        -- a takeover: the stable names and the reservation are in the snapshot already
        let next := w.store.putRecord (nextAttempt current)
        if !(validateClientMutationSnapshot next && attempt.reservationSaved) then (w, .failed)
        else
          let w := w.commit next []
          if attempt.failsAfterReservation then (w, .failed)
          else w.applyEffect request cfg attempt.effectSave
    | none =>
      let prepared :=
        acceptClientMutationPrepare cfg w.recoveredTurnID request w.store (freshRecord request)
      let record := nextAttempt prepared.2
      let next := prepared.1.putRecord record
      if !(validateClientMutationSnapshot next && attempt.reservationSaved) then (w, .failed)
      else
        let w := w.commit next [.prepare id]
        if record.operationState ≠ .inFlight then (w, .reserved record)
        else if attempt.failsAfterReservation then (w, .failed)
        else w.applyEffect request cfg attempt.effectSave

/-- The owner a reservation installs. -/
def own (record : Record) : World × Lease :=
  let token := w.nextOwnerToken + 1
  let owner := { token := token, attemptGeneration := record.attemptGeneration }
  ({ w with
      nextOwnerToken := token
      owners := put Prod.fst (record.clientMutationID, owner) w.owners },
    { clientMutationID := record.clientMutationID
      token := token
      attemptGeneration := record.attemptGeneration })

def owner? (id : String) : Option Owner := (lookup Prod.fst id w.owners).map Prod.snd

def releaseOwner (lease : Lease) : World :=
  if w.owner? lease.clientMutationID =
      some { token := lease.token, attemptGeneration := lease.attemptGeneration } then
    { w with owners := erase Prod.fst lease.clientMutationID w.owners }
  else w

/-- `reservePrepared` of an interrupt. -/
def reservePrepared (params : Params) (payloadHash : String) (running : Bool) (attempt : Attempt) :
    World × Reply :=
  let id := params.clientMutationID
  if id = "" then (w, .failed)
  else
    let reserveRecord (s : Snapshot) (record : Record) (commits : List Commit) : World × Reply :=
      let record := nextAttempt record
      let next := s.putRecord record
      if !(validateClientMutationSnapshot next && attempt.reservationSaved) then (w, .failed)
      else
        let w := w.commit next commits
        if record.operationState ≠ .inFlight then (w, .reserved record)
        else if attempt.failsAfterReservation then
          -- the owner is installed and released again
          ({ w with
              nextOwnerToken := w.nextOwnerToken + 1
              owners := erase Prod.fst id w.owners }, .failed)
        else
          let owned := w.own record
          (owned.1, .leased owned.2)
    match w.store.record? id with
    | some current =>
      if current.method ≠ .interrupt ∨ current.payloadHash ≠ payloadHash then (w, .failed)
      else if current.operationState ≠ .inFlight then (w, .replayed current)
      else if (w.owner? id).any fun owner =>
          owner.attemptGeneration = current.attemptGeneration then (w, .joined current)
      else reserveRecord w.store current []
    | none =>
      let prepared := prepareInterrupt running w.store
        { clientMutationID := id
          method := .interrupt
          payload := some params
          payloadHash := payloadHash }
      reserveRecord prepared.1 prepared.2 [.prepare id]

/-- `update` of the interrupt that holds `lease`: it finalizes the Stop. -/
def update (cfg : Config) (lease : Lease) (sample : StopSample) (save : Save) : World × Reply :=
  if w.owner? lease.clientMutationID ≠
      some { token := lease.token, attemptGeneration := lease.attemptGeneration } then (w, .failed)
  else
    let released := w.releaseOwner lease
    match w.store.record? lease.clientMutationID with
    | none => (released, .failed)
    | some record =>
      if record.attemptGeneration ≠ lease.attemptGeneration ∨ record.operationState ≠ .inFlight then
        (released, .failed)
      else released.mutate save (finalizeClientMutationInterrupt cfg sample)

/-! ## Restart -/

/-- A new process: the file, the floor its transcript sets for turn names, and the restore. -/
def restart (turnFloor : Nat) (sample : RestoreSample) (save : Save) : World × Reply :=
  let s := raiseTurnSequence turnFloor (forgetRunningTurnNoOneOwns w.file)
  let w :=
    { w with
      store := s
      owners := []
      recoveredTurnID := recoveredStartTurnID s
      directClaims := 0 }
  w.mutate save (restoreDurableClientMutationQueues sample)

end World

/-! ## Steps -/

inductive Event where
  | accept (request : InputRequest) (attempt : World.Attempt)
  | interrupt (params : Params) (payloadHash : String) (running : Bool) (attempt : World.Attempt)
  | update (lease : Lease) (sample : StopSample) (save : Save)
  | release (lease : Lease)
  | recoverInterrupt (sample : StopSample) (save : Save)
  | popQueueHead (healthy : Bool) (save : Save)
  | claimStart (order : List String) (healthy : Bool) (save : Save)
  | claimCarrier (inFlight : List String) (healthy : Bool) (save : Save)
  | mintTurn (save : Save)
  | releaseTurn (turnID : String) (save : Save)
  | claimDirect (acceptedTurnsFloor : Nat) (save : Save)
  | returnDirect (save : Save)
  | record (id : String)
  | markIncorporated (id : String) (save : Save)
  | complete (id : String) (executionState : ExecutionState) (sample : StopSample) (save : Save)
  | returnStart (id : String) (save : Save)
  | finalizeSteering (id : String) (save : Save)
  | reconcileSteering (recorded : String → Option ExecutionState) (save : Save)
  | restart (turnFloor : Nat) (sample : RestoreSample) (save : Save)

def step (cfg : Config) (w : World) : Event → World × Reply
  | .accept request attempt => w.executeAtomic cfg request attempt
  | .interrupt params payloadHash running attempt =>
    w.reservePrepared params payloadHash running attempt
  | .update lease sample save => w.update cfg lease sample save
  | .release lease => (w.releaseOwner lease, .done)
  | .recoverInterrupt sample save =>
    if w.store.interruptFence.isNone then (w, .done)
    else w.mutate save (finalizeClientMutationInterrupt cfg sample)
  | .popQueueHead healthy save => w.claim save (popQueueHead healthy)
  | .claimStart order healthy save =>
    w.claim save (claimClientMutationStart w.recoveredTurnID order healthy)
  | .claimCarrier inFlight healthy save => w.claim save (claimSteeringCarrierInput inFlight healthy)
  | .mintTurn save =>
    let minted := mintRunningTurnID w.store
    let outcome := w.mutate save fun _ => some minted.1
    (outcome.1, if outcome.2 matches .done then .named minted.2 else .failed)
  | .releaseTurn turnID save =>
    if turnID = "" then (w, .done)
    else w.mutate save fun s => some (releaseRunningTurnID turnID s)
  | .claimDirect floor save =>
    let outcome := w.mutate save (claimDirectClientMutationTurn cfg floor)
    -- a caller told of a failure holds no claim
    let claimed := if outcome.2 matches .done then w.directClaims + 1 else w.directClaims
    ({ outcome.1 with directClaims := claimed }, outcome.2)
  | .returnDirect save =>
    let outcome := w.mutate save fun s => some (returnClaimedDirectClientMutationTurn s)
    -- the one return of a claim is spent, however its save ends
    ({ outcome.1 with directClaims := w.directClaims - 1 }, outcome.2)
  | .record id =>
    match w.store.pending? id with
    | none => (w, .failed)
    | some pending => ({ w with transcript := (id, pending.turnID) :: w.transcript }, .done)
  | .markIncorporated id save =>
    if id = "" then (w, .done) else w.mutate save (markClaimedUserTranscriptIncorporated id)
  | .complete id executionState sample save =>
    w.mutate save (completeClientMutationTurnWithState cfg id executionState sample)
  | .returnStart id save => w.mutate save (returnClaimedClientMutationStart id)
  | .finalizeSteering id save =>
    if id = "" then (w, .done) else w.mutate save (finalizeIncorporatedSteering id)
  | .reconcileSteering recorded save => w.mutate save (reconcileClientSteering recorded false)
  | .restart turnFloor sample save => w.restart turnFloor sample save

def run (cfg : Config) (w : World) (events : List Event) : World :=
  events.foldl (fun w event => (step cfg w event).1) w

end Evener.ClientMutation
