/-
  The transactions of `MutationOutboxIndexedDB`, one definition per method.

  A loop that skips some records is the same loop over the others; results that only feed
  listeners are returned beside the method's own. The two sweeps a settlement starts run later, as
  transactions of their own: it returns them as `Sweep` values.
-/
import Evener.Outbox.Storage

namespace Evener.Outbox

open Evener.Lib JsValue

/-- What a call takes from the tab it runs in: its client identity, its clock and the ids it
    mints for restaged attachments. -/
structure Tab where
  ownClientId : String
  now : Nat
  createPresentationId : Nat → String

/-- A read-only capture of a row and its refs' stop epochs (`MutationRetryCapture`). -/
structure MutationRetryCapture where
  record : Option MutationOutboxRecord
  stopEpoch : Nat
  displayedStopEpoch : Nat

/-- The displayed ref a recovery Send names, with that ref's epoch at the press. -/
structure DisplayedRecoveryStopCapture where
  displayedRef : String
  stopEpoch : Nat

inductive Sweep where
  | recoverySiblings (wireId : String) (exclude : List String)
  | canceledNotes (targetRef : String) (intentSequence : Nat)

variable (supply : Nat → String)

/-! ## Enqueue and Stop -/

/-- The row an enqueue writes. -/
def enqueuedRow (tab : Tab) (intent : MutationIntent) (clientMutationId : String)
    (intentSequence stopEpoch : Nat) (state : MutationOutboxState) : MutationOutboxRecord :=
  { intent with
    payload := withMutationId intent.payload clientMutationId
    clientMutationId := clientMutationId
    originClientId := some tab.ownClientId
    intentSequence := intentSequence
    createdAt := tab.now
    state := state
    attempted := some false
    stopEpochAtEnqueue := some stopEpoch }

def enqueueIntent (tab : Tab) (intent : MutationIntent) (barrier : Option Nat) :
    DbTx MutationOutboxRecord := do
  if jsTrim intent.targetRef = "" then
    Tx.abort .targetRefRequired
  else
    let stopEpoch ← stopEpochOf intent.targetRef
    let canceledByBarrier := barrier.any fun captured => captured < stopEpoch
    let intentSequence ← allocateSequence intent.targetRef
    let clientMutationId ← createMutationId supply
    assertMutationIdAvailable clientMutationId
    let record := enqueuedRow tab intent clientMutationId intentSequence stopEpoch
      (if canceledByBarrier then .canceled else .submitting)
    addOutbox record
    return record

/-- Whether a Stop on `targetRef` reaches the row, by its destination or its displayed ref. -/
def crossedBy (targetRef : String) (record : MutationOutboxRecord) : Bool :=
  record.targetRef = targetRef || record.displayedRef = some targetRef

def cancelUnattemptedRows (targetRef : String) : DbTx (List String) := do
  let records ← getAllOutbox
  let cancelable := records.filter fun record =>
    crossedBy targetRef record && isCancelableByStop record
  Tx.each (fun record => putOutbox { record with state := .canceled }) cancelable
  return cancelable.map outboxKey

def enqueueInterruptAndCancel (tab : Tab) (intent : MutationIntent) :
    DbTx (MutationOutboxRecord × List String) := do
  if jsTrim intent.targetRef = "" then
    Tx.abort .targetRefRequired
  else
    let retiredIds ← cancelUnattemptedRows intent.targetRef
    bumpStopEpoch intent.targetRef
    let intentSequence ← allocateSequence intent.targetRef
    let clientMutationId ← createMutationId supply
    assertMutationIdAvailable clientMutationId
    let stopEpoch ← stopEpochOf intent.targetRef
    let record := enqueuedRow tab intent clientMutationId intentSequence stopEpoch .submitting
    addOutbox record
    return (record, retiredIds)

def cancelUnattempted (targetRef : String) : DbTx (List String) := do
  let canceled ← cancelUnattemptedRows targetRef
  bumpStopEpoch targetRef
  return canceled

/-- Delete the outbox rows that meet `p`, and return their keys. -/
def discardRows (p : MutationOutboxRecord → Bool) : DbTx (List String) := do
  let records ← getAllOutbox
  let discarded := records.filter p
  Tx.each (fun record => deleteOutbox record.clientMutationId) discarded
  return discarded.map outboxKey

def discardCanceled (targetRef : String) : DbTx (List String) :=
  discardRows fun record => record.targetRef = targetRef && record.state = .canceled

def discardCanceledOfInstance (targetRef supersededInstanceId : String) : DbTx (List String) :=
  discardRows fun record => record.targetRef = targetRef && record.state = .canceled &&
    fusedIdentity record.toMutationRecord = some supersededInstanceId

/-! ## The wire family -/

structure WireFamily where
  outbox : List MutationOutboxRecord
  optimistic : List MutationOptimisticRecord
  recovery : List MutationRecoveryRecord

/-- Whether a record travels under `wireId`. -/
def carriesWire (wireId : String) (record : MutationRecord) : Bool :=
  effectiveWireId record = wireId

/-- Every record of one wire, in the stores the transaction spans and the caller asks for. -/
def resolveWireFamily (wireId : String) (readOutbox readOptimistic readRecovery : Bool) :
    DbTx WireFamily := do
  let outbox ← getAllOutbox
  let optimistic ← getAllOptimistic
  let recovery ← getAllRecovery
  return {
    outbox := if readOutbox then
      outbox.filter fun record => carriesWire wireId record.toMutationRecord else []
    optimistic := if readOptimistic then
      optimistic.filter fun record => carriesWire wireId record.toMutationRecord else []
    recovery := if readRecovery then
      recovery.filter fun record => carriesWire wireId record.toMutationRecord else [] }

structure RetireOptions where
  excludeKeys : List String
  sweepOptimistic : Bool
  sweepRecovery : Bool
  onlySuperseded : Bool

/-- Retire the family: outbox rows whatever their state (or only the superseded ones), accepted
    copies when the caller proves delivery, recovery rows only while unedited. -/
def retireWireFamily (family : WireFamily) (options : RetireOptions) : DbTx (List String) := do
  let rows := family.outbox.filter fun record =>
    !options.excludeKeys.contains record.clientMutationId &&
      (!options.onlySuperseded || record.state = .superseded)
  let copies := family.optimistic.filter fun record =>
    options.sweepOptimistic && !options.excludeKeys.contains record.clientMutationId
  let recoveries := family.recovery.filter fun record =>
    options.sweepRecovery && !options.excludeKeys.contains record.clientMutationId &&
      settlementRetiresRecovery record
  Tx.each (fun record => deleteOutbox record.clientMutationId) rows
  Tx.each (fun record => deleteOptimistic record.clientMutationId) copies
  Tx.each (fun record => deleteRecovery record.clientMutationId) recoveries
  return rows.map outboxKey ++ copies.map optimisticKey ++ recoveries.map recoveryKey

def retireWireSiblings (wireId : String) (options : RetireOptions) : DbTx (List String) := do
  let family ← resolveWireFamily wireId true options.sweepOptimistic options.sweepRecovery
  retireWireFamily family options

/-! ## The stop fence -/

/-- Whether a Stop landed on either ref the row crosses since its baselines were captured. -/
def fenceCrossed (record : MutationOutboxRecord) (stopEpoch : Nat)
    (displayedStopEpoch : Nat) : Bool :=
  record.stopEpochAtEnqueue.getD 0 < stopEpoch ||
    (record.displayedRef.isSome && record.displayedStopEpochAtEnqueue.getD 0 < displayedStopEpoch)

/-- The epoch of the row's displayed ref; unused when it has none. -/
def displayedEpochOf (sequences : List TargetSequence) (record : MutationOutboxRecord) : Nat :=
  (record.displayedRef.map (epochOf sequences)).getD 0

def fenceCrossedSinceEnqueue (record : MutationOutboxRecord) : DbTx Bool := do
  let s ← Tx.read
  return fenceCrossed record (epochOf s.sequences record.targetRef)
    (displayedEpochOf s.sequences record)

/-! ## Mints -/

/-- The row a mint writes from its source. -/
def mintedRow (tab : Tab) (source : MutationOutboxRecord) (clientMutationId : String)
    (intentSequence stopEpoch : Nat) (displayedStopEpoch : Option Nat)
    (bornCanceled preserveOriginClientId : Bool) : MutationOutboxRecord :=
  let inheritedWireId := effectiveWireId source.toMutationRecord
  let inheritWireId := wireIdentityUncertain source inheritedWireId
  { source with
    payload := withMutationId source.payload
      (if inheritWireId then inheritedWireId else clientMutationId)
    clientMutationId := clientMutationId
    originClientId := if preserveOriginClientId then
      some (source.originClientId.getD tab.ownClientId) else some tab.ownClientId
    intentSequence := intentSequence
    createdAt := tab.now
    state := if bornCanceled then .canceled else .submitting
    attempted := some false
    stopEpochAtEnqueue := some stopEpoch
    displayedStopEpochAtEnqueue := if source.displayedRef.isSome then displayedStopEpoch
      else source.displayedStopEpochAtEnqueue
    unresolvedAttempts := none
    stopFenced := none }

def mintFreshRow (tab : Tab) (source : MutationOutboxRecord) (stopEpoch : Nat)
    (displayedStopEpoch : Option Nat) (bornCanceled preserveOriginClientId : Bool) :
    DbTx (MutationOutboxRecord × List String) := do
  let intentSequence ← allocateSequence source.targetRef
  let clientMutationId ← createMutationId supply
  assertMutationIdAvailable clientMutationId
  let record := mintedRow tab source clientMutationId intentSequence stopEpoch displayedStopEpoch
    bornCanceled preserveOriginClientId
  addOutbox record
  -- the generation bound: at most one superseded row of the wire stays
  let retiredIds ← retireWireSiblings (effectiveWireId source.toMutationRecord) {
    excludeKeys := [source.clientMutationId, record.clientMutationId]
    sweepOptimistic := false
    sweepRecovery := false
    onlySuperseded := true }
  return (record, retiredIds)

/-- The terminal settlement of a mint's source: a canceled row leaves, an uncertain one stays
    superseded. -/
def settleMintSource (source : MutationOutboxRecord) : DbTx Unit :=
  if source.state = .blockedUnknown then putOutbox { source with state := .superseded }
  else deleteOutbox source.clientMutationId

/-- Whether the row is still the one the Retry's capture read. -/
def capturedIdentity (capture : MutationRetryCapture) (record : MutationOutboxRecord) : Bool :=
  capture.record.any fun captured =>
    record.targetRef = captured.targetRef &&
      fusedIdentity record.toMutationRecord = fusedIdentity captured.toMutationRecord

def mintRetryFromRow (tab : Tab) (clientMutationId : String) (capture : MutationRetryCapture) :
    DbTx (Option MutationOutboxRecord × List String) := do
  match ← getOutbox clientMutationId with
  | none => return (none, [])
  | some record =>
    if (record.state = .canceled || record.state = .blockedUnknown) &&
        capturedIdentity capture record then
      settleMintSource record
      let stopEpoch ← stopEpochOf record.targetRef
      let sequences := (← Tx.read).sequences
      let displayedStopEpoch := record.displayedRef.map (epochOf sequences)
      let bornCanceled := capture.stopEpoch < stopEpoch ||
        displayedStopEpoch.any fun epoch => capture.displayedStopEpoch < epoch
      let (minted, swept) ← mintFreshRow supply tab record stopEpoch displayedStopEpoch
        bornCanceled false
      return (some minted, clientMutationId :: swept)
    else
      return (none, [])

/-! ## Retarget -/

/-- The identity a resumed thread presents. -/
structure ResumedIdentity where
  threadId : Option String
  instanceId : Option String

def ofOption : Option String → JsValue
  | some s => .str s
  | none => .undefined

/-- The rewrite every moved record takes: the new ref, the resumed identity, a fresh sequence. -/
def movedRecord (toRef : String) (identity : ResumedIdentity) (intentSequence : Nat)
    (record : MutationRecord) : MutationRecord :=
  let payload := withProperty record.payload "ref" (.str toRef)
  let instanceToken := identity.instanceId.orElse fun _ => identity.threadId
  { record with
    targetRef := toRef
    threadId := identity.threadId
    instanceId := identity.instanceId
    payload := if hasProperty record.payload "expectedInstanceId" then
      withProperty payload "expectedInstanceId" (ofOption instanceToken) else payload
    intentSequence := intentSequence }

def movedRow (toRef : String) (identity : ResumedIdentity) (toStopEpoch intentSequence : Nat)
    (record : MutationOutboxRecord) : MutationOutboxRecord :=
  { record with
    toMutationRecord := movedRecord toRef identity intentSequence record.toMutationRecord
    stopEpochAtEnqueue := record.stopEpochAtEnqueue.map fun _ => toStopEpoch }

def movedCopy (toRef : String) (identity : ResumedIdentity) (intentSequence : Nat)
    (record : MutationOptimisticRecord) : MutationOptimisticRecord :=
  { record with
    toMutationRecord := movedRecord toRef identity intentSequence record.toMutationRecord }

def movedRecovery (toRef : String) (identity : ResumedIdentity)
    (toStopEpoch intentSequence : Nat) (record : MutationRecoveryRecord) : MutationRecoveryRecord :=
  { record with
    toMutationOutboxRecord :=
      movedRow toRef identity toStopEpoch intentSequence record.toMutationOutboxRecord }

structure RetargetedMutations where
  outbox : List MutationOutboxRecord
  optimistic : List MutationOptimisticRecord
  recovery : List MutationRecoveryRecord

/-- The records that leave `fromRef`, in sequence order. -/
def bySequence {ν : Type} (toRecord : ν → MutationRecord) (records : List ν) : List ν :=
  records.insertionSort fun left right =>
    (toRecord left).intentSequence ≤ (toRecord right).intentSequence

/-- Consecutive numbers from `first`, one for each record. -/
def numberedFrom {ν : Type} (first : Nat) : List ν → List (Nat × ν)
  | [] => []
  | record :: records => (first, record) :: numberedFrom (first + 1) records

def retargetOutbox (fromRef toRef : String) (identity : ResumedIdentity) :
    DbTx RetargetedMutations := do
  if fromRef = toRef then
    return ⟨[], [], []⟩
  else
    let s ← Tx.read
    let lastSequence := lastSequenceOf s.sequences toRef
    let toStopEpoch := epochOf s.sequences toRef
    let eligibleOutbox := bySequence (·.toMutationRecord) ((← getAllOutbox).filter fun record =>
      record.targetRef = fromRef && record.state ≠ .canceled)
    let eligibleOptimistic := bySequence (·.toMutationRecord) ((← getAllOptimistic).filter
      fun record => record.targetRef = fromRef)
    let eligibleRecovery := bySequence (·.toMutationRecord) ((← getAllRecovery).filter
      fun record => record.targetRef = fromRef)
    let firstCopy := lastSequence + 1 + eligibleOutbox.length
    let firstRecovery := firstCopy + eligibleOptimistic.length
    let moved := firstRecovery + eligibleRecovery.length - 1
    let outbox := (numberedFrom (lastSequence + 1) eligibleOutbox).map fun (n, record) =>
      movedRow toRef identity toStopEpoch n record
    let optimistic := (numberedFrom firstCopy eligibleOptimistic).map fun (n, record) =>
      movedCopy toRef identity n record
    let recovery := (numberedFrom firstRecovery eligibleRecovery).map fun (n, record) =>
      movedRecovery toRef identity toStopEpoch n record
    Tx.each putOutbox outbox
    Tx.each putOptimistic optimistic
    Tx.each putRecovery recovery
    if moved ≠ lastSequence then
      Tx.write fun s => { s with sequences := withLastSequence toRef moved s.sequences }
    return ⟨outbox, optimistic, recovery⟩

/-! ## Settlement -/

/-- A later accepted note retires the refused notes before it on its ref. -/
def discardSupersededNoteRecovery (source : MutationRecord) : DbTx Unit := do
  if source.method = humanNoteMethod then
    let records ← getAllRecovery
    let superseded := records.filter fun record =>
      record.method = humanNoteMethod && record.targetRef = source.targetRef &&
        record.intentSequence < source.intentSequence && settlementRetiresRecovery record
    Tx.each (fun record => deleteRecovery record.clientMutationId) superseded

/-- A settled note settles the uncertain older notes of its ref as superseded. -/
def retireOlderBlockedNoteRows (source : MutationRecord) : DbTx (List String) := do
  if source.method = humanNoteMethod then
    let records ← getAllOutbox
    let older := records.filter fun record =>
      record.method = humanNoteMethod && record.targetRef = source.targetRef &&
        record.intentSequence < source.intentSequence && record.state = .blockedUnknown
    Tx.each (fun record => putOutbox { record with state := .superseded }) older
    return older.map outboxKey
  else
    return []

/-- What a settlement found under the id it was given. -/
structure Settlement where
  subject : MutationRecord
  wireId : String
  family : WireFamily
  wireCarriers : List MutationRecoveryRecord

/-- The record a settlement settles: the one it names, else the replacement that carries the
    wire id, else an unedited recovery copy of the wire. -/
def findSettlement (clientMutationId : String) (named : Option MutationRecord) :
    DbTx (Option Settlement) := do
  let wireId := (named.map effectiveWireId).getD clientMutationId
  let family ← resolveWireFamily wireId true true false
  let siblings := (family.outbox.map (·.toMutationRecord) ++
    family.optimistic.map (·.toMutationRecord)).filter fun record =>
      record.clientMutationId ≠ clientMutationId
  let recoveryFamily ← resolveWireFamily wireId true false true
  let wireCarriers := if named.isNone && siblings.isEmpty then
    recoveryFamily.recovery.filter fun record =>
      record.clientMutationId ≠ clientMutationId && settlementRetiresRecovery record else []
  let subject := (named.orElse fun _ => siblings.head?).orElse fun _ =>
    wireCarriers.head?.map (·.toMutationRecord)
  return subject.map fun subject => ⟨subject, wireId, family, wireCarriers⟩

structure SettleOutcome where
  settled : Bool
  retiredIds : List String
  record : Option MutationRecord
  wireId : Option String
  sweeps : List Sweep

def notSettled : SettleOutcome := ⟨false, [], none, none, []⟩

/-- What a committed settlement reports, with the sweeps it starts. -/
def settledOutcome (clientMutationId : String) (named : Bool) (found : Settlement)
    (swept supersededNoteIds : List String) : SettleOutcome where
  settled := true
  retiredIds := swept ++ (if named then [] else [found.subject.clientMutationId]) ++
    supersededNoteIds
  record := some found.subject
  wireId := some found.wireId
  sweeps := .recoverySiblings found.wireId [clientMutationId, found.subject.clientMutationId] ::
    (if found.subject.method = humanNoteMethod then
      [.canceledNotes found.subject.targetRef found.subject.intentSequence] else [])

/-- The sibling sweep both settlements end with. -/
def retireSettledFamily (clientMutationId : String) (found : Settlement) : DbTx (List String) :=
  retireWireFamily found.family {
    excludeKeys := [clientMutationId, found.subject.clientMutationId]
    sweepOptimistic := true
    sweepRecovery := false
    onlySuperseded := false }

/-- Delete a recovery row a settlement names, unless a composer has edited it. -/
def retireNamedRecovery (record : Option MutationRecoveryRecord) : DbTx Unit :=
  match record with
  | none => pure ()
  | some record =>
    if settlementRetiresRecovery record then deleteRecovery record.clientMutationId else pure ()

def settleReceiptResult (clientMutationId projectionState : String) : DbTx SettleOutcome := do
  let outboxRecord ← getOutbox clientMutationId
  let optimisticRecord ← getOptimistic clientMutationId
  let recoveryRecord ← getRecovery clientMutationId
  let named := ((outboxRecord.map (·.toMutationRecord)).orElse fun _ =>
    recoveryRecord.map (·.toMutationRecord)).orElse fun _ =>
      optimisticRecord.map (·.toMutationRecord)
  match ← findSettlement clientMutationId named with
  | none => return notSettled
  | some found =>
    discardSupersededNoteRecovery found.subject
    let supersededNoteIds ← retireOlderBlockedNoteRows found.subject
    let retained := retainsAcceptedCopy found.subject projectionState
    if retained then
      putOptimistic (acceptedRecord found.subject)
    else if optimisticRecord.isSome then
      deleteOptimistic clientMutationId
    if named.isSome then
      deleteOutbox clientMutationId
      retireNamedRecovery recoveryRecord
    else if !found.wireCarriers.isEmpty then
      deleteRecovery found.subject.clientMutationId
    else
      deleteOutbox found.subject.clientMutationId
      if !retained then
        deleteOptimistic found.subject.clientMutationId
    let swept ← retireSettledFamily clientMutationId found
    return settledOutcome clientMutationId named.isSome found swept supersededNoteIds

def settleAppliedResult (clientMutationId : String) : DbTx SettleOutcome := do
  let outboxRecord ← getOutbox clientMutationId
  let optimisticRecord ← getOptimistic clientMutationId
  let recoveryRecord ← getRecovery clientMutationId
  let named := ((outboxRecord.map (·.toMutationRecord)).orElse fun _ =>
    optimisticRecord.map (·.toMutationRecord)).orElse fun _ =>
      recoveryRecord.map (·.toMutationRecord)
  match ← findSettlement clientMutationId named with
  | none => return notSettled
  | some found =>
    discardSupersededNoteRecovery found.subject
    let supersededNoteIds ← retireOlderBlockedNoteRows found.subject
    if named.isSome then
      deleteOutbox clientMutationId
      deleteOptimistic clientMutationId
      retireNamedRecovery recoveryRecord
    else if !found.wireCarriers.isEmpty then
      deleteRecovery found.subject.clientMutationId
    else
      deleteOutbox found.subject.clientMutationId
      deleteOptimistic found.subject.clientMutationId
    let swept ← retireSettledFamily clientMutationId found
    return settledOutcome clientMutationId named.isSome found swept supersededNoteIds

/-- The writes a settlement leaves behind, each its own transaction
    (`#sweepSettledWireRecoverySiblings`, `#discardSupersededCanceledNotesAfterSettle`). -/
def runSweep : Sweep → DbTx (List String)
  | .recoverySiblings wireId exclude => do
    let family ← resolveWireFamily wireId false false true
    retireWireFamily family {
      excludeKeys := exclude
      sweepOptimistic := false
      sweepRecovery := true
      onlySuperseded := false }
  | .canceledNotes targetRef intentSequence =>
    discardRows fun record => record.method = humanNoteMethod && record.targetRef = targetRef &&
      record.state = .canceled && record.intentSequence < intentSequence

/-! ## Attempts -/

/-- The record carries evidence of an attempt whose outcome is not known. -/
def evidenced (record : MutationOutboxRecord) : Bool :=
  record.attempted = some true || 0 < priorUnresolvedAttempts record

/-- Only an explicit `attempted: false` without a count proves no earlier attempt. -/
def provablyUnattempted (record : MutationOutboxRecord) : Bool :=
  record.attempted = some false && record.unresolvedAttempts.isNone

/-- A mark that goes through counts one more attempt. -/
def markedRow (record : MutationOutboxRecord) (stopEpochAtEnqueue : Option Nat) :
    MutationOutboxRecord :=
  { record with
    attempted := some true
    unresolvedAttempts := some (priorUnresolvedAttempts record + 1)
    stopEpochAtEnqueue := stopEpochAtEnqueue }

/-- What a crossed Stop makes of the row a mark found: uncertain when it carries evidence,
    canceled when it provably never left. -/
def fencedRow (record : MutationOutboxRecord) (stopEpochAtEnqueue : Nat) (uncertain : Bool) :
    MutationOutboxRecord :=
  if uncertain then
    { record with
      state := .blockedUnknown
      attempted := some true
      unresolvedAttempts := some (priorUnresolvedAttempts record)
      stopEpochAtEnqueue := some stopEpochAtEnqueue
      stopFenced := some true }
  else
    { record with
      state := .canceled
      attempted := some false
      unresolvedAttempts := some 0
      stopEpochAtEnqueue := some stopEpochAtEnqueue }

def markAttempted (clientMutationId : String) : DbTx Bool := do
  match ← getOutbox clientMutationId with
  | none => return false
  | some record =>
    if record.state = .submitting then
      let legacyCapture := record.stopEpochAtEnqueue.isNone
      if evidenced record || record.unresolvedAttempts.isSome || legacyCapture then
        let sequences := (← Tx.read).sequences
        let stopEpoch := epochOf sequences record.targetRef
        let stopEpochAtEnqueue := if legacyCapture && provablyUnattempted record then stopEpoch
          else record.stopEpochAtEnqueue.getD 0
        if fenceCrossed { record with stopEpochAtEnqueue := some stopEpochAtEnqueue } stopEpoch
            (displayedEpochOf sequences record) then
          let uncertainEvidence :=
            evidenced record || (legacyCapture && !provablyUnattempted record)
          putOutbox (fencedRow record stopEpochAtEnqueue uncertainEvidence)
          return false
        else
          putOutbox (markedRow record (some stopEpochAtEnqueue))
          return true
      else
        putOutbox (markedRow record record.stopEpochAtEnqueue)
        return true
    else
      return false

/-- A row a refusal drained under a crossed Stop. -/
def drainedRow (record : MutationOutboxRecord) (state : MutationOutboxState) :
    MutationOutboxRecord :=
  { record with state := state, attempted := some false, unresolvedAttempts := some 0 }

def unmarkAttempted (clientMutationId : String) : DbTx Bool := do
  match ← getOutbox clientMutationId with
  | none => return false
  | some record =>
    let priorAttempts := priorUnresolvedAttempts record
    if record.state = .submitting then
      let unresolvedAttempts := priorAttempts - 1
      if ← fenceCrossedSinceEnqueue record then
        if 0 < unresolvedAttempts then
          putOutbox { record with
            state := .blockedUnknown
            attempted := some true
            unresolvedAttempts := some unresolvedAttempts
            stopFenced := some true }
          return false
        else
          putOutbox (drainedRow record .canceled)
          return false
      else
        putOutbox { record with
          attempted := some (decide (0 < unresolvedAttempts))
          unresolvedAttempts := some unresolvedAttempts }
        return unresolvedAttempts = 0
    else if record.state = .blockedUnknown then
      let crossed ← fenceCrossedSinceEnqueue record
      if 1 < priorAttempts then
        putOutbox { record with
          unresolvedAttempts := some (priorAttempts - 1)
          stopFenced := if crossed then some true else record.stopFenced }
        return false
      else if crossed then
        putOutbox (drainedRow record .canceled)
        return false
      else
        putOutbox (drainedRow record .submitting)
        return true
    else
      return false

def markUnknown (clientMutationId : String) (onlyAttempted : Bool) : DbTx Bool := do
  match ← getOutbox clientMutationId with
  | none => return false
  | some record =>
    if onlyAttempted && record.attempted = some false then
      return false
    else if record.state = .canceled || record.state = .superseded then
      return false
    else
      if record.state ≠ .blockedUnknown then
        putOutbox { record with state := .blockedUnknown }
      return true

/-! ## Reconciliation -/

/-- A newer save of the same note that is queued or waiting. -/
def newerNoteSaveWaiting (record : MutationOutboxRecord) : DbTx Bool := do
  return (← getAllOutbox).any fun candidate =>
    candidate.method = humanNoteMethod && candidate.targetRef = record.targetRef &&
      record.intentSequence < candidate.intentSequence &&
      (candidate.state = .submitting || candidate.state = .blockedUnknown)

/-- One parked row of a reconciliation: what it re-queues, under the key it re-queues, and the
    keys it retires. The epochs are the ones the pass read before its first row. -/
def restoreRow (tab : Tab) (sequences : List TargetSequence) (record : MutationOutboxRecord) :
    DbTx (List (String × MutationOutboxRecord) × List String) := do
  let stopEpoch := epochOf sequences record.targetRef
  let displayedStopEpoch := record.displayedRef.map (epochOf sequences)
  if fenceCrossed record stopEpoch (displayedStopEpoch.getD 0) then
    if record.attempted = some false then
      let fenceCanceled := { record with state := .canceled }
      putOutbox fenceCanceled
      return ([(record.clientMutationId, fenceCanceled)], [record.clientMutationId])
    else
      putOutbox { record with state := .blockedUnknown, stopFenced := some true }
      return ([], [])
  else
    let outranked ← if record.method = humanNoteMethod then newerNoteSaveWaiting record
      else pure false
    putOutbox { record with state := .superseded }
    if outranked then
      return ([], [record.clientMutationId])
    else
      let (fresh, swept) ← mintFreshRow supply tab record stopEpoch displayedStopEpoch false true
      return ([(record.clientMutationId, fresh)], record.clientMutationId :: swept)

/-- Reconcile a ref's parked rows; the rows it returns to its caller are the second components. -/
def restoreProvenAbsent (tab : Tab) (targetRef : String) (authoritativeIds : List String) :
    DbTx (List (String × MutationOutboxRecord) × List String) := do
  let records ← getAllOutbox
  let sequences := (← Tx.read).sequences
  let parked := records.filter fun record => record.targetRef = targetRef &&
    record.state = .blockedUnknown && !authoritativeIds.contains record.clientMutationId
  let outcomes ← Tx.forEach (restoreRow supply tab sequences) parked
  return (outcomes.flatMap Prod.fst, outcomes.flatMap Prod.snd)

/-! ## Recovery -/

/-- The recovery row a transfer writes. An uncertain delivery freezes the wire's payload. -/
def recoveryOf (record : MutationOutboxRecord) (recoveryKind : MutationRecoveryKind)
    (recoveryReason : Option String) (uncertain : Bool) : MutationRecoveryRecord :=
  { record with
    recoveryKind := recoveryKind
    recoveryReason := recoveryReason
    compositionRevision := some 0
    wireDeliveryUncertain := if uncertain then some true else none
    originalWirePayload := if uncertain then some record.payload else none }

/-- The first recovery copy of a wire under another key. -/
def wireCopyOf (record : MutationOutboxRecord) : DbTx (Option MutationRecoveryRecord) := do
  let family ← resolveWireFamily (effectiveWireId record.toMutationRecord) true false true
  return family.recovery.find? fun existing => existing.clientMutationId ≠ record.clientMutationId

def transferToRecovery (clientMutationId : String) (recoveryKind : MutationRecoveryKind)
    (recoveryReason : Option String) (wireDeliveryUncertain : Bool) :
    DbTx (Option MutationRecoveryRecord) := do
  match ← getOutbox clientMutationId with
  | none => return none
  | some record =>
    let existingRecovery ← getRecovery clientMutationId
    let wireCopy ← wireCopyOf record
    let recovery := recoveryOf record recoveryKind recoveryReason wireDeliveryUncertain
    if record.method ≠ humanNoteMethod then
      if existingRecovery.any fun existing => 0 < revisionOf existing then
        return none
      else
        match wireCopy with
        | some wireCopy =>
          deleteOutbox clientMutationId
          return some wireCopy
        | none =>
          putRecovery recovery
          deleteOutbox clientMutationId
          return some recovery
    else
      putRecovery recovery
      deleteOutbox clientMutationId
      return some recovery

/-- A recovery row whose composer owns the wire's editing session. -/
def ownsEditing (record : MutationRecoveryRecord) : Bool :=
  record.method ≠ humanNoteMethod && 0 < revisionOf record

def editQueuedMessage (expected : MutationOutboxRecord) (barrier : Nat) :
    DbTx (Option MutationRecoveryRecord) := do
  match ← getOutbox expected.clientMutationId with
  | none => return none
  | some record =>
    let stopEpoch ← stopEpochOf record.targetRef
    let existingRecovery ← getRecovery record.clientMutationId
    let wireCarrier ← wireCopyOf record
    if !matchesQueuedMessageSnapshot record expected || !canEditQueuedMessage record ||
        stopEpoch ≠ barrier || existingRecovery.any ownsEditing || wireCarrier.any ownsEditing then
      return none
    else
      let uncertainEdit := wireIdentityUncertain record (effectiveWireId record.toMutationRecord)
      let recovery := recoveryOf record .editing none uncertainEdit
      putRecovery recovery
      deleteOutbox record.clientMutationId
      match wireCarrier with
      | some carrier => deleteRecovery carrier.clientMutationId
      | none => pure ()
      return some recovery

def removeQueuedMessage (expected : MutationOutboxRecord) (barrier : Nat) :
    DbTx (Bool × List String) := do
  match ← getOutbox expected.clientMutationId with
  | none => return (false, [])
  | some record =>
    let stopEpoch ← stopEpochOf record.targetRef
    if !matchesQueuedMessageSnapshot record expected || !canRemoveQueuedMessage record ||
        stopEpoch ≠ barrier then
      return (false, [])
    else
      let retiredIds ← retireWireSiblings (effectiveWireId record.toMutationRecord) {
        excludeKeys := [record.clientMutationId]
        sweepOptimistic := false
        sweepRecovery := true
        onlySuperseded := false }
      deleteOutbox record.clientMutationId
      return (true, retiredIds ++ [record.clientMutationId])

/-- The arguments of `updateRecoveryInput` beside the owner's id. -/
structure RecoveryUpdate where
  input : List JsValue
  attachments : Option (List MutationAttachment) := none
  composerText : Option String := none
  composerMentions : Option (List ComposerMention) := none
  consumeRecoveryIds : List String := []
  localDraftRevisionId : Option String := none
  expectedCompositionRevision : Option Nat := none
  expectedRecoveryRevisions : Option (List (String × Nat)) := none
  compositionOwnerId : Option String := none

/-- The revision a caller expects of a row; a supplied map is authoritative for every row. -/
def RecoveryUpdate.expected (update : RecoveryUpdate) (owner id : String) : Option Nat :=
  match update.expectedRecoveryRevisions with
  | some revisions => (lookup Prod.fst id revisions).map Prod.snd
  | none => if id = owner then update.expectedCompositionRevision else none

/-- `{ ...display, input }`, or a new display when there is no object to spread. -/
def displayWithInput (display : JsValue) (method : String) (input : List JsValue) : JsValue :=
  match display with
  | .obj fields => .obj (withProperty fields "input" (.arr input))
  | .arr items =>
    .obj (withProperty (items.mapIdx fun i item => (toString i, item)) "input" (.arr input))
  | _ => .obj [("method", .str method), ("input", .arr input)]

def updatedRecovery (update : RecoveryUpdate) (record : MutationRecoveryRecord) :
    MutationRecoveryRecord :=
  { record with
    compositionRevision := some (revisionOf record + 1)
    compositionOwnerId := update.compositionOwnerId.orElse fun _ => record.compositionOwnerId
    payload := withProperty record.payload "input" (.arr update.input)
    optimisticDisplay := displayWithInput record.optimisticDisplay record.method update.input
    attachments := update.attachments.getD record.attachments
    composerText := update.composerText.orElse fun _ => record.composerText
    localDraftRevisionId := update.localDraftRevisionId.orElse fun _ => record.localDraftRevisionId
    composerMentions := if update.composerText.isNone then
      update.composerMentions.orElse fun _ => record.composerMentions
      else update.composerMentions }

/-- Retire the outbox rows of every consumed wire, once per wire. -/
def retireConsumedWires (excludeKeys wireIds : List String) : DbTx (List String) := do
  let retired ← Tx.forEach (fun wireId => retireWireSiblings wireId {
    excludeKeys := excludeKeys
    sweepOptimistic := false
    sweepRecovery := false
    onlySuperseded := false }) wireIds
  return retired.flatten

/-- A source the update may consume: held, on the owner's ref, at the revision expected. -/
def consumable (update : RecoveryUpdate) (owner : MutationRecoveryRecord)
    (recovery : List MutationRecoveryRecord) (id : String) : Bool :=
  (lookup recoveryKey id recovery).any fun source =>
    source.targetRef = owner.targetRef &&
      update.expected owner.clientMutationId id = some (revisionOf source)

def updateRecoveryInput (clientMutationId : String) (update : RecoveryUpdate) :
    DbTx (Option MutationRecoveryRecord × List String) := do
  match ← getRecovery clientMutationId with
  | none => return (none, [])
  | some record =>
    let recovery := (← Tx.read).recovery
    let sources := update.consumeRecoveryIds.eraseDups.filter fun id => id ≠ clientMutationId
    if update.expected clientMutationId clientMutationId ≠ some (revisionOf record) ||
        !sources.all (consumable update record recovery) then
      return (none, [])
    else
      let consumedSources := sources.filterMap fun id => lookup recoveryKey id recovery
      let next := updatedRecovery update record
      putRecovery next
      let retiredIds ← retireConsumedWires (clientMutationId :: sources)
        (consumedSources.map fun source => effectiveWireId source.toMutationRecord).eraseDups
      Tx.each deleteRecovery sources
      return (some next, retiredIds)

/-- The arguments of `preserveRecoveryComposition`. -/
structure PreservedComposition where
  input : List JsValue
  attachments : List MutationAttachment
  composerText : String
  composerMentions : Option (List ComposerMention) := none
  compositionOwnerId : Option String := none
  localDraftRevisionId : Option String := none

def preservedRecovery (tab : Tab) (base : MutationRecoveryRecord) (draft : PreservedComposition)
    (clientMutationId : String) (intentSequence stopEpoch : Nat) : MutationRecoveryRecord where
  clientMutationId := clientMutationId
  originClientId := some tab.ownClientId
  intentSequence := intentSequence
  createdAt := tab.now
  targetRef := base.targetRef
  threadId := base.threadId
  instanceId := base.instanceId
  method := base.method
  payload := withMutationId (withProperty (withProperty base.payload "ref" (.str base.targetRef))
    "input" (.arr draft.input)) clientMutationId
  attachments := draft.attachments
  optimisticDisplay := .obj [("method", .str base.method), ("input", .arr draft.input)]
  composerText := some draft.composerText
  composerMentions := draft.composerMentions
  recoveryKind := .rejected
  recoveryReason := base.recoveryReason
  compositionRevision := some 0
  compositionOwnerId := draft.compositionOwnerId.orElse fun _ => base.compositionOwnerId
  displayedRef := base.displayedRef
  localDraftRevisionId := draft.localDraftRevisionId
  state := .submitting
  attempted := some false
  unresolvedAttempts := some 0
  stopEpochAtEnqueue := some stopEpoch

def preserveRecoveryComposition (tab : Tab) (base : MutationRecoveryRecord)
    (draft : PreservedComposition) : DbTx MutationRecoveryRecord := do
  let stale ← getRecovery base.clientMutationId
  let same := fun record => sameRecoveryComposition record draft.input draft.composerText
    draft.composerMentions draft.attachments
  match stale.filter same with
  | some stale => return stale
  | none =>
    let intentSequence ← allocateSequence base.targetRef
    let clientMutationId ← createMutationId supply
    assertMutationIdAvailable clientMutationId
    let stopEpoch ← stopEpochOf base.targetRef
    let record := preservedRecovery tab base draft clientMutationId intentSequence stopEpoch
    putRecovery record
    return record

/-- `shouldDiscard` is the caller's answer at the durable deletion boundary. -/
def discardRecovery (clientMutationId : String) (shouldDiscard : Bool)
    (expectedCompositionRevision : Option Nat) : DbTx (Bool × List String) := do
  match ← getRecovery clientMutationId with
  | none => return (false, [])
  | some record =>
    if (expectedCompositionRevision.any fun expected => revisionOf record ≠ expected) ||
        !shouldDiscard then
      return (false, [])
    else
      let retiredIds ← retireWireSiblings (effectiveWireId record.toMutationRecord) {
        excludeKeys := [clientMutationId]
        sweepOptimistic := false
        sweepRecovery := false
        onlySuperseded := false }
      deleteRecovery clientMutationId
      return (true, retiredIds)

/-! ## Resend -/

inductive MutationRecoveryResendResult where
  | sent (record : MutationOutboxRecord) (retiredIds : List String)
  | consumed
  | refused

/-- The arguments of `resendRecoveryResult`. -/
structure ResendRequest where
  sourceIds : List String
  intent : MutationIntent
  barrier : Option Nat := none
  expectedRecoveryRevisions : Option (List (String × Nat)) := none
  compositionOwnerId : Option String := none
  displayedBarrier : Option DisplayedRecoveryStopCapture := none

/-- A row the resend may not consume: it moved, the caller is stale, or another owner wrote. -/
def resendRefused (request : ResendRequest) (recovery : MutationRecoveryRecord) : Bool :=
  let expected := match request.expectedRecoveryRevisions with
    | none => some (revisionOf recovery)
    | some revisions => (lookup Prod.fst recovery.clientMutationId revisions).map Prod.snd
  let sameOwner := request.compositionOwnerId.isSome &&
    recovery.compositionOwnerId = request.compositionOwnerId
  recovery.targetRef ≠ request.intent.targetRef || expected.isNone ||
    (expected ≠ some (revisionOf recovery) && !sameOwner)

/-- Whether the resend repeats the payload the wire froze. -/
def replaysOriginal (intent : MutationIntent) (recovery : MutationRecoveryRecord) : Bool :=
  recovery.originalWirePayload.any fun frozen =>
    sameJsonShape (.obj (stripPayloadId intent.payload)) (.obj (stripPayloadId frozen))

/-- The wire id and method a byte-identical resend of one uncertain wire keeps. -/
def uncertainReplay (intent : MutationIntent) (consumed : List MutationRecoveryRecord) :
    Option (String × String) :=
  match (consumed.map fun recovery => effectiveWireId recovery.toMutationRecord).eraseDups,
      consumed.head? with
  | [wireId], some first =>
    if consumed.all (replaysOriginal intent) &&
        (consumed.any fun recovery => recovery.wireDeliveryUncertain = some true) &&
        (consumed.all fun recovery => recovery.method = first.method) then
      some (wireId, first.method)
    else none
  | _, _ => none

/-- The row a resend writes. -/
def resentRow (tab : Tab) (request : ResendRequest) (replay : Option (String × String))
    (clientMutationId : String) (intentSequence stopEpoch displayedStopEpoch : Nat) :
    MutationOutboxRecord :=
  let intent := request.intent
  let crossed := (request.barrier.any fun captured => captured < stopEpoch) ||
    (request.displayedBarrier.any fun captured => captured.stopEpoch < displayedStopEpoch)
  { intent with
    method := (replay.map Prod.snd).getD intent.method
    payload := withMutationId intent.payload ((replay.map Prod.fst).getD clientMutationId)
    attachments := intent.attachments.mapIdx fun i attachment =>
      { attachment with presentationId := tab.createPresentationId i }
    clientMutationId := clientMutationId
    originClientId := some tab.ownClientId
    intentSequence := intentSequence
    createdAt := tab.now
    state := if crossed then .canceled else .submitting
    displayedRef := request.displayedBarrier.map DisplayedRecoveryStopCapture.displayedRef
    displayedStopEpochAtEnqueue := request.displayedBarrier.map fun _ => displayedStopEpoch
    attempted := some false
    stopEpochAtEnqueue := some stopEpoch }

def resendRecoveryResult (tab : Tab) (request : ResendRequest) :
    DbTx MutationRecoveryResendResult := do
  if jsTrim request.intent.targetRef = "" then
    Tx.abort .targetRefRequired
  else
    let recovery := (← Tx.read).recovery
    let ids := request.sourceIds.eraseDups
    let consumed := ids.filterMap fun id => lookup recoveryKey id recovery
    if ids.isEmpty || consumed.any (resendRefused request) then
      return .refused
    else if ids.any fun id => (lookup recoveryKey id recovery).isNone then
      return .consumed
    else
      let intentSequence ← allocateSequence request.intent.targetRef
      let nextMutationId ← createMutationId supply
      assertMutationIdAvailable nextMutationId
      let sequences := (← Tx.read).sequences
      let stopEpoch := epochOf sequences request.intent.targetRef
      let displayedStopEpoch := (request.displayedBarrier.map fun captured =>
        epochOf sequences captured.displayedRef).getD 0
      let record := resentRow tab request (uncertainReplay request.intent consumed) nextMutationId
        intentSequence stopEpoch displayedStopEpoch
      addOutbox record
      let retiredIds ← retireConsumedWires (record.clientMutationId :: ids)
        (consumed.map fun recovery => effectiveWireId recovery.toMutationRecord).eraseDups
      Tx.each deleteRecovery ids
      return .sent record retiredIds

/-! ## Reads -/

/-- The first submitting row of a ref's queue, unless an uncertain row closes it. -/
def nextDispatchableOf : List MutationOutboxRecord → Option MutationOutboxRecord
  | [] => none
  | record :: records =>
    match record.state with
    | .submitting => some record
    | .blockedUnknown =>
      if record.stopFenced = some true then nextDispatchableOf records else none
    | .canceled | .superseded => nextDispatchableOf records

def nextDispatchable (s : Stores) (targetRef : String) : Option MutationOutboxRecord :=
  nextDispatchableOf (bySequence (·.toMutationRecord)
    ((inKeyOrder outboxKey s.outbox).filter fun record => record.targetRef = targetRef))

end Evener.Outbox
