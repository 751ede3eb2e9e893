/-
  The daemon's client mutation store: the journal, the durable input queue, the executions in
  progress, the order of pending steering, the turn budget, and the fence of a Stop.

  Maps are lists with one entry a key. What no modelled transition reads is left out: the note,
  the conversation revision, the stored preconditions, command preparations, the kind and the
  answer targets of a steer. A payload is kept as its parameters; its hash is any text.
-/
import Evener.Lib.IssuedNames

namespace Evener.ClientMutation

open Evener.Lib

/-! ## Inputs -/

structure InputMention where
  kind : String
  name : String
  offset : Int
deriving DecidableEq

structure InputItem where
  type : String
  text : String := ""
  mentions : List InputMention := []
  mediaType : String := ""
  data : List UInt8 := []
  name : String := ""
deriving DecidableEq

abbrev Input := List InputItem

structure ImageAttachment where
  mediaType : String
  data : List UInt8
  name : String
deriving DecidableEq

structure SessionActor where
  kind : String := ""
  managerRef : String := ""
deriving DecidableEq

/-- `wireSessionActor`. -/
def wireSessionActor (actor : SessionActor) : SessionActor :=
  if actor.kind = "" then { actor with kind := "human" } else actor

/-! ## The journal -/

inductive Method where
  | start
  | queue
  | steer
  | drain
  | promote
  | cancel
  | interrupt
deriving DecidableEq

inductive OperationState where
  | inFlight
  | applied
  | rejected
  | terminal
deriving DecidableEq

inductive ExecutionState where
  | pending
  | accepted
  | claimed
  | incorporated
  | rejected
  | transformed
  | canceled
  | interruptRequested
  | interrupted
  | terminal
  | failed
  | failureRecording
deriving DecidableEq

inductive ProjectionState where
  | pending
  | reflected
  | removed
deriving DecidableEq

inductive WireErrorKind where
  | conflict
  | invalidParams
deriving DecidableEq

/-- A journaled rejection; its cause is always the journal's own. -/
structure Rejection where
  error : WireErrorKind
  message : String
  clientMutationID : String
deriving DecidableEq

structure MutationReceipt where
  clientMutationID : String
  threadID : String
  turnID : String
  queueEntryIDs : List String
  projectionState : ProjectionState
  consumedClientMutationIDs : List String := []
deriving DecidableEq

/-- The response a record keeps for its replays. -/
structure Response where
  receipt : MutationReceipt
  turn : Option String := none
  removedText : String := ""
  removedImages : Nat := 0
deriving DecidableEq

/-- The parameters of a request, the ones its method has. -/
structure Params where
  clientMutationID : String
  input : Input := []
  index : Int := 0
  expectedEntryID : String := ""
  expectedQueueRevision : Nat := 0
deriving DecidableEq

structure Record where
  clientMutationID : String
  method : Method
  actor : SessionActor := {}
  payload : Option Params
  payloadHash : String
  stableTurnID : String := ""
  stableQueueEntryIDs : List String := []
  conversationInputIDs : List String := []
  operationState : OperationState := .inFlight
  executionState : ExecutionState := .pending
  projectionState : ProjectionState := .pending
  result : Option Response := none
  rejection : Option Rejection := none
  attemptGeneration : Nat := 0
deriving DecidableEq

/-! ## The snapshot -/

structure QueueEntry where
  actor : SessionActor := {}
  id : String
  clientMutationID : String
  input : Input
deriving DecidableEq

structure BudgetReservation where
  turnID : String := ""
  slots : Nat
deriving DecidableEq

structure InterruptFence where
  clientMutationID : String
  expectedTurnID : String
deriving DecidableEq

structure PendingMutation where
  actor : SessionActor := {}
  clientMutationID : String
  method : Method
  input : Input
  executionState : ExecutionState
  turnID : String
  queueEntryIDs : List String := []
  projectionState : ProjectionState
deriving DecidableEq

structure Snapshot where
  activeTurnID : String := ""
  acceptedTurns : Nat := 0
  journal : List Record := []
  inputQueue : List QueueEntry := []
  queueHeld : Bool := false
  steeringHeld : Bool := false
  queueRevision : Nat := 0
  nextTurnSequence : Nat := 0
  nextQueueEntrySequence : Nat := 0
  budgetReservations : List (String × BudgetReservation) := []
  interruptFence : Option InterruptFence := none
  pendingExecutions : List PendingMutation := []
  steeringOrder : List String := []
deriving DecidableEq

namespace Snapshot

variable (s : Snapshot)

def record? (id : String) : Option Record := lookup Record.clientMutationID id s.journal

def pending? (id : String) : Option PendingMutation :=
  lookup PendingMutation.clientMutationID id s.pendingExecutions

def putRecord (record : Record) : Snapshot :=
  { s with journal := put Record.clientMutationID record s.journal }

def putPending (pending : PendingMutation) : Snapshot :=
  { s with
    pendingExecutions := put PendingMutation.clientMutationID pending s.pendingExecutions }

def deletePending (id : String) : Snapshot :=
  { s with pendingExecutions := erase PendingMutation.clientMutationID id s.pendingExecutions }

def reserve (id : String) (reservation : BudgetReservation) : Snapshot :=
  { s with budgetReservations := put Prod.fst (id, reservation) s.budgetReservations }

def release (id : String) : Snapshot :=
  { s with budgetReservations := erase Prod.fst id s.budgetReservations }

end Snapshot

/-! ## Stable names -/

/-- `appwire.ClientMutationTurnID`. -/
def clientMutationTurnID (sequence : Nat) : String := "turn_m" ++ toString sequence

def queueEntryID (sequence : Nat) : String := "queue_" ++ toString sequence

theorem clientMutationTurnID_inj {m n : Nat}
    (h : clientMutationTurnID m = clientMutationTurnID n) : m = n := append_toString_inj h

theorem queueEntryID_inj {m n : Nat} (h : queueEntryID m = queueEntryID n) : m = n :=
  append_toString_inj h

theorem clientMutationTurnID_ne_empty (sequence : Nat) : clientMutationTurnID sequence ≠ "" := by
  intro h
  have hlist := congrArg String.toList h
  rw [clientMutationTurnID, String.toList_append] at hlist
  exact absurd hlist (by simp)

/-! ## What the client is told -/

/-- The projection a mutation has when it is accepted. -/
def acceptedClientMutationProjection : Method → ProjectionState
  | .start | .steer | .queue | .drain | .promote => .pending
  | .interrupt => .reflected
  | .cancel => .removed

def mutationReceipt (threadID : String) (record : Record) (projectionState : ProjectionState) :
    MutationReceipt where
  clientMutationID := record.clientMutationID
  threadID := threadID
  turnID := record.stableTurnID
  queueEntryIDs := record.stableQueueEntryIDs
  projectionState := projectionState

def rejectClientMutation (record : Record) (error : WireErrorKind) (message : String) : Record :=
  { record with
    operationState := .rejected
    executionState := .rejected
    projectionState := .removed
    payload := none
    rejection := some
      { error := error, message := message, clientMutationID := record.clientMutationID } }

def applyClientMutationRecord (record : Record) (result : Response)
    (projectionState : ProjectionState) : Record :=
  { record with
    operationState := .applied
    executionState := .accepted
    projectionState := projectionState
    result := some result }

/-! ## Queued input -/

structure QueuedInput where
  id : String := ""
  clientMutationID : String := ""
  stableTurnID : String := ""
  text : String := ""
  images : List ImageAttachment := []
  skillNames : List String := []
  commandNames : List String := []
  mentions : List InputMention := []
  steeringCarrier : Bool := false
deriving DecidableEq

/-- `len(utf16.Encode([]rune(text)))`. -/
def utf16Length (text : String) : Int :=
  (text.toList.map fun c => if c.toNat < 0x10000 then (1 : Int) else 2).sum

def shiftMentions (offset : Int) (mentions : List InputMention) : List InputMention :=
  mentions.map fun mention => { mention with offset := mention.offset + offset }

def queuedInputFromClientMutation (entry : QueueEntry) : QueuedInput :=
  entry.input.foldl (fun queued item =>
    if item.type = "text" then
      { queued with
        mentions := queued.mentions ++ shiftMentions (utf16Length queued.text) item.mentions
        text := queued.text ++ item.text }
    else if item.type = "image" then
      { queued with
        images := queued.images ++
          [{ mediaType := item.mediaType, data := item.data, name := item.name }] }
    else if item.type = "skill" then
      { queued with skillNames := queued.skillNames ++ [item.name] }
    else if item.type = "command" then
      { queued with commandNames := queued.commandNames ++ [item.name] }
    else queued) { id := entry.id }

def clientMutationInputWithMentions (text : String) (images : List ImageAttachment)
    (skillNames : List String) (mentions : List InputMention) (commandNames : List String) : Input :=
  (if text ≠ "" then [{ type := "text", text := text, mentions := mentions }] else []) ++
    images.map (fun image =>
      { type := "image", mediaType := image.mediaType, data := image.data, name := image.name }) ++
    skillNames.map (fun name => { type := "skill", name := name }) ++
    commandNames.map fun name => { type := "command", name := name }

/-- `unicode.IsSpace`. -/
def isSpace (c : Char) : Bool :=
  c.toNat ∈ [0x09, 0x0A, 0x0B, 0x0C, 0x0D, 0x20, 0x85, 0xA0, 0x1680, 0x2028, 0x2029, 0x202F, 0x205F,
    0x3000] || (0x2000 ≤ c.toNat && c.toNat ≤ 0x200A)

/-- `strings.TrimSpace(text) != ""`. -/
def hasText (text : String) : Bool := text.toList.any fun c => !isSpace c

/-- The pieces `combineClientMutationInputs` has gathered. -/
structure CombinedInput where
  texts : List String := []
  images : List ImageAttachment := []
  skillNames : List String := []
  commandNames : List String := []
  mentions : List InputMention := []
  textOffset : Int := 0

def appendInput (combined : CombinedInput) (queued : QueuedInput) : CombinedInput :=
  let combined :=
    if hasText queued.text then
      let offset := if combined.texts ≠ [] then combined.textOffset + 2 else combined.textOffset
      { combined with
        mentions := combined.mentions ++ shiftMentions offset queued.mentions
        texts := combined.texts ++ [queued.text]
        textOffset := offset + utf16Length queued.text }
    else combined
  { combined with
    images := combined.images ++ queued.images
    skillNames := combined.skillNames ++ queued.skillNames
    commandNames := combined.commandNames ++ queued.commandNames }

def combineClientMutationInputs (entries : List QueueEntry) (extra : Input) : Input :=
  let extraEntries : List QueueEntry :=
    if extra ≠ [] then [{ id := "", clientMutationID := "", input := extra }] else []
  let combined := (entries ++ extraEntries).foldl (fun combined entry =>
    appendInput combined (queuedInputFromClientMutation entry)) {}
  clientMutationInputWithMentions ("\n\n".intercalate combined.texts) combined.images
    combined.skillNames combined.mentions combined.commandNames

end Evener.ClientMutation
