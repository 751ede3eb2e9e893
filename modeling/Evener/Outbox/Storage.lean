/-
  The four object stores of `mutationOutboxIndexedDB.ts` and the requests its transactions make.

  A store is the list of its records, one per key; `getAll` answers in key order. The outbox and
  the optimistic store have a unique index on (targetRef, intentSequence); the recovery store's is
  not unique. `drawn` counts the calls of `createMutationId`, whose answers are the parameter
  `supply`; an aborted transaction does not give its ids back.
-/
import Evener.Outbox.Records
import Evener.Lib.Transaction

namespace Evener.Outbox

open Evener.Lib JsValue

/-- One ref's counters: its last sequence number and its durable stop epoch. -/
structure TargetSequence where
  targetRef : String
  lastSequence : Nat
  stopEpoch : Option Nat := none

structure Stores where
  outbox : List MutationOutboxRecord := []
  optimistic : List MutationOptimisticRecord := []
  recovery : List MutationRecoveryRecord := []
  sequences : List TargetSequence := []

structure Db extends Stores where
  drawn : Nat := 0

inductive OutboxError where
  | targetRefRequired
  | idActive (clientMutationId : String)
  | constraint
  | storage
deriving DecidableEq

abbrev DbTx := Tx Db OutboxError

def outboxKey (record : MutationOutboxRecord) : String := record.clientMutationId

def optimisticKey (record : MutationOptimisticRecord) : String := record.clientMutationId

def recoveryKey (record : MutationRecoveryRecord) : String := record.clientMutationId

/-- `getAll()`: a store's records in key order. -/
def inKeyOrder {ν : Type} (key : ν → String) (records : List ν) : List ν :=
  records.insertionSort fun left right => key left ≤ key right

/-- Whether another key already holds the unique index entry of `record`. -/
def indexTaken {ν : Type} (toRecord : ν → MutationRecord) (record : MutationRecord)
    (records : List ν) : Bool :=
  records.any fun other =>
    (toRecord other).clientMutationId ≠ record.clientMutationId &&
      (toRecord other).targetRef = record.targetRef &&
      (toRecord other).intentSequence = record.intentSequence

/-! ## Requests -/

def getOutbox (id : String) : DbTx (Option MutationOutboxRecord) := do
  return lookup outboxKey id (← Tx.read).outbox

def getOptimistic (id : String) : DbTx (Option MutationOptimisticRecord) := do
  return lookup optimisticKey id (← Tx.read).optimistic

def getRecovery (id : String) : DbTx (Option MutationRecoveryRecord) := do
  return lookup recoveryKey id (← Tx.read).recovery

def getAllOutbox : DbTx (List MutationOutboxRecord) := do
  return inKeyOrder outboxKey (← Tx.read).outbox

def getAllOptimistic : DbTx (List MutationOptimisticRecord) := do
  return inKeyOrder optimisticKey (← Tx.read).optimistic

def getAllRecovery : DbTx (List MutationRecoveryRecord) := do
  return inKeyOrder recoveryKey (← Tx.read).recovery

def putOutbox (record : MutationOutboxRecord) : DbTx Unit := do
  if indexTaken (·.toMutationRecord) record.toMutationRecord (← Tx.read).outbox then
    Tx.abort .constraint
  else
    Tx.write fun s => { s with outbox := put outboxKey record s.outbox }

/-- `add` is `put` that refuses a key already stored. -/
def addOutbox (record : MutationOutboxRecord) : DbTx Unit := do
  match ← getOutbox record.clientMutationId with
  | some _ => Tx.abort .constraint
  | none => putOutbox record

def putOptimistic (record : MutationOptimisticRecord) : DbTx Unit := do
  if indexTaken (·.toMutationRecord) record.toMutationRecord (← Tx.read).optimistic then
    Tx.abort .constraint
  else
    Tx.write fun s => { s with optimistic := put optimisticKey record s.optimistic }

def putRecovery (record : MutationRecoveryRecord) : DbTx Unit :=
  Tx.write fun s => { s with recovery := put recoveryKey record s.recovery }

def deleteOutbox (id : String) : DbTx Unit :=
  Tx.write fun s => { s with outbox := erase outboxKey id s.outbox }

def deleteOptimistic (id : String) : DbTx Unit :=
  Tx.write fun s => { s with optimistic := erase optimisticKey id s.optimistic }

def deleteRecovery (id : String) : DbTx Unit :=
  Tx.write fun s => { s with recovery := erase recoveryKey id s.recovery }

/-! ## Ids, sequences and stop epochs -/

/-- The next answer of `createMutationId`. -/
def createMutationId (supply : Nat → String) : DbTx String := do
  let s ← Tx.read
  Tx.write fun s => { s with drawn := s.drawn + 1 }
  return supply s.drawn

def assertMutationIdAvailable (id : String) : DbTx Unit := do
  let outbox ← getOutbox id
  let optimistic ← getOptimistic id
  let recovery ← getRecovery id
  if outbox.isSome || optimistic.isSome || recovery.isSome then
    Tx.abort (.idActive id)

/-- The sequence row of a ref. -/
def sequenceOf (ref : String) (sequences : List TargetSequence) : Option TargetSequence :=
  lookup TargetSequence.targetRef ref sequences

/-- `sequence?.lastSequence ?? 0`. -/
def lastSequenceOf (sequences : List TargetSequence) (ref : String) : Nat :=
  ((sequenceOf ref sequences).map TargetSequence.lastSequence).getD 0

/-- `sequence?.stopEpoch ?? 0`. -/
def epochOf (sequences : List TargetSequence) (ref : String) : Nat :=
  ((sequenceOf ref sequences).bind TargetSequence.stopEpoch).getD 0

def stopEpochOf (ref : String) : DbTx Nat := do
  return epochOf (← Tx.read).sequences ref

/-- The ref's row with a new last sequence; its stop epoch stays. -/
def withLastSequence (ref : String) (lastSequence : Nat) (sequences : List TargetSequence) :
    List TargetSequence :=
  put TargetSequence.targetRef
    ⟨ref, lastSequence, (sequenceOf ref sequences).bind TargetSequence.stopEpoch⟩ sequences

/-- The ref's row with its stop epoch one higher. -/
def withStopBump (ref : String) (sequences : List TargetSequence) : List TargetSequence :=
  put TargetSequence.targetRef
    ⟨ref, lastSequenceOf sequences ref, some (epochOf sequences ref + 1)⟩ sequences

def allocateSequence (ref : String) : DbTx Nat := do
  let next := lastSequenceOf (← Tx.read).sequences ref + 1
  Tx.write fun s => { s with sequences := withLastSequence ref next s.sequences }
  return next

def bumpStopEpoch (ref : String) : DbTx Unit :=
  Tx.write fun s => { s with sequences := withStopBump ref s.sequences }

end Evener.Outbox
