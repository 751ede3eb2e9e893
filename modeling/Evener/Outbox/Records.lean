/-
  The durable records of the mutation outbox (`records.ts`), the composer's methods
  (`composerMethods.ts`), the queued-message policy (`queuedMessages.ts`) and the pure predicates
  of the web store (`mutationOutboxIndexedDB.ts`).
-/
import Evener.Lib.JsString
import Evener.Lib.JsValue
import Mathlib.Data.List.Sort

namespace Evener.Outbox

open Evener.Lib JsValue

/-- A request's parameters: a JSON object. -/
abbrev Payload := List (String × JsValue)

/-- What a record keeps of one staged attachment beside its bytes. -/
structure MutationAttachment where
  presentationId : String
  marker : Nat
  name : String
  mediaType : String
deriving DecidableEq

inductive MentionKind where
  | skill
  | command
deriving DecidableEq

structure ComposerMention where
  kind : MentionKind
  name : String
  offset : Nat
deriving DecidableEq

inductive MutationOutboxState where
  | submitting
  | blockedUnknown
  | canceled
  | superseded
deriving DecidableEq

inductive MutationRecoveryKind where
  | rejected
  | orphaned
  | editing
deriving DecidableEq

/-- One submission as the client made it. -/
structure MutationIntent where
  targetRef : String
  threadId : Option String := none
  instanceId : Option String := none
  method : String
  payload : Payload
  attachments : List MutationAttachment := []
  optimisticDisplay : JsValue := .null
  composerText : Option String := none
  composerMentions : Option (List ComposerMention) := none
  compositionOwnerId : Option String := none
  draftCaptureToken : Option String := none
  preserveComposer : Option Bool := none

structure MutationRecord extends MutationIntent where
  clientMutationId : String
  originClientId : Option String := none
  intentSequence : Nat
  createdAt : Nat

structure MutationOutboxRecord extends MutationRecord where
  state : MutationOutboxState
  attempted : Option Bool := none
  unresolvedAttempts : Option Nat := none
  displayedRef : Option String := none
  displayedStopEpochAtEnqueue : Option Nat := none
  stopEpochAtEnqueue : Option Nat := none
  stopFenced : Option Bool := none

/-- An accepted copy; its state is always `"accepted"`. -/
structure MutationOptimisticRecord extends MutationRecord

structure MutationRecoveryRecord extends MutationOutboxRecord where
  recoveryKind : MutationRecoveryKind
  compositionRevision : Option Nat := none
  localDraftRevisionId : Option String := none
  recoveryReason : Option String := none
  wireDeliveryUncertain : Option Bool := none
  originalWirePayload : Option Payload := none

/-- The wire id a record travels under. -/
def effectiveWireId (record : MutationRecord) : String :=
  match property record.payload "clientMutationId" with
  | .str payloadId => if payloadId ≠ "" then payloadId else record.clientMutationId
  | _ => record.clientMutationId

/-! ## Receipt settlement -/

def acceptedRecord (source : MutationRecord) : MutationOptimisticRecord where
  clientMutationId := source.clientMutationId
  originClientId := source.originClientId
  intentSequence := source.intentSequence
  createdAt := source.createdAt
  targetRef := source.targetRef
  threadId := source.threadId
  instanceId := source.instanceId
  method := source.method
  payload := source.payload
  attachments := source.attachments
  optimisticDisplay := source.optimisticDisplay
  draftCaptureToken := source.draftCaptureToken

def carriesOptimisticInput (display : JsValue) : Bool :=
  match display with
  | .obj fields =>
    match property fields "input" with
    | .arr _ => true
    | _ => false
  | _ => false

def humanNoteMethod : String := "notes/human/set"

def retainsAcceptedCopy (source : MutationRecord) (projectionState : String) : Bool :=
  projectionState = "pending" &&
    (carriesOptimisticInput source.optimisticDisplay || source.method = humanNoteMethod)

/-- A recovery row's composition version; records without one count as unedited. -/
def revisionOf (record : MutationRecoveryRecord) : Nat := record.compositionRevision.getD 0

/-- A settlement retires a recovery row nobody has edited. -/
def settlementRetiresRecovery (record : MutationRecoveryRecord) : Bool := revisionOf record = 0

/-! ## The composer's methods -/

def sendMethod : String := "turn/start"
def steerMethod : String := "turn/steer"
def queueMethod : String := "turn/queue"
def drainMethod : String := "turn/drainAsSteer"
def promoteMethod : String := "turn/promoteQueuedAsSteer"

/-- `PENDING_TURN_METHODS`: the wire methods that carry composer input. -/
def pendingTurnMethods : List String :=
  [sendMethod, steerMethod, queueMethod, drainMethod, promoteMethod]

/-! ## Queued messages -/

def matchesQueuedMessageSnapshot (record expected : MutationOutboxRecord) : Bool :=
  record.clientMutationId = expected.clientMutationId &&
    record.targetRef = expected.targetRef &&
    record.instanceId = expected.instanceId &&
    record.threadId = expected.threadId &&
    record.method = expected.method &&
    record.state = expected.state &&
    record.intentSequence = expected.intentSequence

/-- The rows a click may take: everything but the one another pass is sending. -/
def isLocalQueuedMessage (record : MutationOutboxRecord) : Bool :=
  match record.state with
  | .blockedUnknown | .canceled => true
  | .superseded => false
  | .submitting => record.attempted = some false

def recordInput (record : MutationOutboxRecord) : List JsValue :=
  match property record.payload "input" with
  | .arr items => items
  | _ => []

/-- `typeof value === "string" && value.trim() !== ""`. -/
def isNonBlankString : JsValue → Bool
  | .str s => jsTrim s ≠ ""
  | _ => false

def isComposerInputItem : JsValue → Bool
  | .obj fields =>
    match property fields "type" with
    | .str "image" => true
    | .str "text" => isNonBlankString (property fields "text")
    | .str "skill" | .str "command" => isNonBlankString (property fields "name")
    | _ => false
  | _ => false

def hasComposerInput (record : MutationOutboxRecord) : Bool :=
  (recordInput record).any isComposerInputItem

def canEditQueuedMessage (record : MutationOutboxRecord) : Bool :=
  isLocalQueuedMessage record &&
    (record.method = sendMethod || record.method = queueMethod || record.method = steerMethod ||
      (record.method = drainMethod && hasComposerInput record))

def canRemoveQueuedMessage (record : MutationOutboxRecord) : Bool :=
  isLocalQueuedMessage record && pendingTurnMethods.contains record.method

/-! ## Predicates of the web store -/

/-- The unresolved-attempt baseline a record's own metadata proves. -/
def priorUnresolvedAttempts (record : MutationOutboxRecord) : Nat :=
  match record.unresolvedAttempts, record.attempted with
  | some n, _ => n
  | none, none => 1
  | none, some attempted => if attempted then 1 else 0

/-- The rows a Stop may cancel: still waiting and proven unattempted. -/
def isCancelableByStop (record : MutationOutboxRecord) : Bool :=
  (record.state = .submitting || record.state = .blockedUnknown) && record.attempted = some false

/-- Whether a row's wire id may already have been delivered. -/
def wireIdentityUncertain (record : MutationOutboxRecord) (wireId : String) : Bool :=
  record.state = .blockedUnknown || wireId ≠ record.clientMutationId

/-- The identity the instance fence compares: `instanceId ?? threadId`. -/
def fusedIdentity (record : MutationRecord) : Option String :=
  record.instanceId.orElse fun _ => record.threadId

mutual

/-- `canonicalJson`: object properties in key order, at every depth. -/
def canonicalJson : JsValue → JsValue
  | .arr items => .arr (canonicalItems items)
  | .obj fields =>
    .obj ((canonicalFields fields).insertionSort fun left right => left.1 ≤ right.1)
  | value => value

def canonicalItems : List JsValue → List JsValue
  | [] => []
  | item :: items => canonicalJson item :: canonicalItems items

def canonicalFields : List (String × JsValue) → List (String × JsValue)
  | [] => []
  | (name, value) :: fields => (name, canonicalJson value) :: canonicalFields fields

end

def sameJsonShape (left right : JsValue) : Bool :=
  stringify (canonicalJson left) = stringify (canonicalJson right)

/-- `stripPayloadId`. -/
def stripPayloadId (payload : Payload) : Payload := withoutProperty payload "clientMutationId"

/-- What names a composition apart from the staging of its attachments. -/
def attachmentIdentity (attachment : MutationAttachment) : Nat × String × String :=
  (attachment.marker, attachment.name, attachment.mediaType)

/-- `payload.input ?? []`. -/
def payloadInput (payload : Payload) : JsValue :=
  match property payload "input" with
  | .undefined | .null => .arr []
  | input => input

def sameRecoveryComposition (record : MutationRecoveryRecord) (input : List JsValue)
    (composerText : String) (composerMentions : Option (List ComposerMention))
    (attachments : List MutationAttachment) : Bool :=
  record.composerText = some composerText &&
    stringify (payloadInput record.payload) = stringify (.arr input) &&
    record.composerMentions.getD [] = composerMentions.getD [] &&
    record.attachments.map attachmentIdentity = attachments.map attachmentIdentity

/-! ## The wire id through a payload edit -/

/-- The payload a record is sent with: `{ ...payload, clientMutationId }`. -/
def withMutationId (payload : Payload) (clientMutationId : String) : Payload :=
  withProperty payload "clientMutationId" (.str clientMutationId)

/-- A payload's own id, when it carries one. -/
def payloadId (payload : Payload) : Option String :=
  match property payload "clientMutationId" with
  | .str id => if id ≠ "" then some id else none
  | _ => none

theorem effectiveWireId_eq (record : MutationRecord) :
    effectiveWireId record = (payloadId record.payload).getD record.clientMutationId := by
  unfold effectiveWireId payloadId
  split
  · split <;> rfl
  · rfl

theorem payloadId_withMutationId (payload : Payload) (id : String) :
    payloadId (withMutationId payload id) = if id ≠ "" then some id else none := by
  unfold payloadId withMutationId
  rw [property_withProperty_self]

theorem payloadId_withProperty {name : String} (h : name ≠ "clientMutationId") (payload : Payload)
    (value : JsValue) : payloadId (withProperty payload name value) = payloadId payload := by
  unfold payloadId
  rw [property_withProperty_of_ne _ _ h]

end Evener.Outbox
