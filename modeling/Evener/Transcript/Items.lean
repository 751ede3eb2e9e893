/-
  Wire items and turns, and the rows the client holds for them (`transcriptItems.ts`, `model.ts`).

  A row's text is `omitted` or `provided`: the source keeps that on a non-enumerable symbol, so a
  spread of the row drops it and the row reads as `provided` again (`ItemModel.spread`). The same
  holds for the identity-only mark.

  Left out: `authorship`, the observation and provenance fields no modelled function reads, and
  `warning` and `observed*`, which only the pre-v6 folds write. Timestamps stay epoch
  milliseconds.
-/
import Evener.Lib.JsString
import Evener.Transcript.Position

namespace Evener.Transcript

open Evener.Lib

/-! ## Wire shapes -/

/-- An input image as the wire carries it. -/
structure InputItem where
  url : Option String := none
  data : Option String := none
  mediaType : Option String := none
  sha : Option String := none
  path : Option String := none
  name : Option String := none
deriving DecidableEq, Repr

structure OutputImage where
  url : Option String := none
  path : Option String := none
  name : Option String := none
  source : String := ""
deriving DecidableEq, Repr

structure SessionActor where
  kind : String
  managerRef : Option String := none
deriving DecidableEq, Repr

/-- The wire `ThreadItem`. -/
structure ThreadItem where
  type : String
  id : String
  transcriptKey : Option String := none
  position : Option ThreadItemPosition := none
  turnId : Option String := none
  transcriptEntryIndex : Option Nat := none
  clientMutationId : Option String := none
  actor : Option SessionActor := none
  text : Option String := none
  images : Option (List InputItem) := none
  toolName : Option String := none
  callId : Option String := none
  argumentsJson : Option String := none
  description : Option String := none
  eventKind : Option String := none
  steeringKind : Option String := none
  raw : Option String := none
  output : Option String := none
  error : Option String := none
  outputImages : Option (List OutputImage) := none
  status : Option String := none
  prevalOnly : Option Bool := none
  exitCode : Option Int := none
  source : Option String := none
  startedAt : Option Nat := none
  completedAt : Option Nat := none
  version : Option Nat := none
  roundId : Option String := none
  completedAtEntry : Option Nat := none
deriving DecidableEq, Repr

/-- The wire `Turn`. -/
structure Turn where
  id : String
  items : Option (List ThreadItem) := none
  status : String := ""
  error : Option String := none
  version : Option Nat := none
  startedAt : Option Nat := none
  completedAt : Option Nat := none
  durationMs : Option Nat := none
  usage : Option String := none
  cost : Option String := none
deriving DecidableEq, Repr

/-! ## Held rows -/

structure ItemImage where
  src : String
  name : Option String := none
  path : Option String := none
  source : Option String := none
deriving DecidableEq, Repr

inductive TextPresence where
  | provided
  | omitted
deriving DecidableEq, Repr

/-- A held item row. `textPresence` and `identityOnlyMark` are the two symbol-keyed marks. -/
structure ItemModel where
  id : String
  turnId : String
  type : String
  text : String
  textPresence : TextPresence := .provided
  identityOnlyMark : Bool := false
  transcriptKey : Option String := none
  position : Option ThreadItemPosition := none
  transcriptEntryIndex : Option Nat := none
  clientMutationId : Option String := none
  actor : Option SessionActor := none
  pendingText : Option (List String) := none
  toolName : Option String := none
  callId : Option String := none
  argumentsJSON : Option String := none
  description : Option String := none
  eventKind : Option String := none
  steeringKind : Option String := none
  raw : Option String := none
  output : Option String := none
  error : Option String := none
  prevalOnly : Option Bool := none
  exitCode : Option Int := none
  images : Option (List ItemImage) := none
  outputImages : Option (List ItemImage) := none
  status : Option String := none
  source : Option String := none
  reasoningSummaries : Option (List (List String)) := none
  startedAt : Option Nat := none
  completedAt : Option Nat := none
  version : Option Nat := none
  roundId : Option String := none
  completedAtEntry : Option Nat := none
  overlayKey : Option String := none
deriving DecidableEq, Repr

/-- A turn without its items. -/
structure TurnScalars where
  id : String
  status : String
  startedAt : Option Nat := none
  completedAt : Option Nat := none
  durationMs : Option Nat := none
  usage : Option String := none
  cost : Option String := none
  error : Option String := none
  version : Option Nat := none
deriving DecidableEq, Repr

structure TurnModel extends TurnScalars where
  items : List ItemModel
deriving DecidableEq, Repr

/-! ## Wire to model -/

/-- JavaScript's truthy reading of an optional string. -/
def truthyString (s : Option String) : Option String := s.filter (· ≠ "")

/-- JavaScript's truthy reading of an optional number. -/
def truthyNat (n : Option Nat) : Option Nat := n.filter (· ≠ 0)

def inlineImageSrc (img : InputItem) : Option String :=
  match truthyString img.data, truthyString img.mediaType with
  | some data, some mediaType => some ("data:" ++ mediaType ++ ";base64," ++ data)
  | _, _ => none

/-- `/^[0-9a-f]{64}$/`. -/
def isImageSha (sha : String) : Bool :=
  sha.toList.length == 64 && sha.toList.all fun c => c.isDigit || ('a' ≤ c && c ≤ 'f')

def metadataShaImageSrc (img : InputItem) (imageSessionRoute : Option String) : Option String :=
  match truthyString img.sha, truthyString imageSessionRoute with
  | some sha, some route =>
    if isImageSha sha then some ("/s/" ++ route ++ "/images/" ++ sha) else none
  | _, _ => none

def imagesToItemImagesForSession (images : Option (List InputItem))
    (imageSessionRoute : Option String) : Option (List ItemImage) :=
  (images.filter (· ≠ [])).map fun list => list.map fun img =>
    { src := ((((img.url.or (inlineImageSrc img)).or
        (metadataShaImageSrc img imageSessionRoute)).or img.path).or img.name).getD ""
      name := img.name
      path := img.path }

def outputImagesToItemImages (images : Option (List OutputImage)) : Option (List ItemImage) :=
  images.map fun list => list.map fun img =>
    { src := ((img.url.or img.path).or img.name).getD img.source
      name := img.name
      path := img.path
      source := some img.source }

/-- An epoch stamp: 0 is Go's zero value and means absent. -/
def epochMs (ms : Option Nat) : Option Nat := truthyNat ms

def wireItemToModel (item : ThreadItem) (imageSessionRoute : Option String) : ItemModel where
  id := item.id
  turnId := item.turnId.getD ""
  type := item.type
  text := item.text.getD ""
  textPresence := if item.text.isNone then .omitted else .provided
  transcriptKey := item.transcriptKey
  position := item.position
  transcriptEntryIndex := item.transcriptEntryIndex
  clientMutationId := truthyString item.clientMutationId
  actor := item.actor
  toolName := item.toolName
  callId := item.callId
  argumentsJSON := item.argumentsJson
  description := item.description
  eventKind := item.eventKind
  steeringKind := item.steeringKind
  raw := item.raw
  output := item.output
  error := item.error
  prevalOnly := item.prevalOnly
  exitCode := item.exitCode
  images := imagesToItemImagesForSession item.images imageSessionRoute
  outputImages := outputImagesToItemImages item.outputImages
  status := item.status
  source := item.source
  reasoningSummaries :=
    if item.type = "reasoning" then item.text.map fun text => [[text]] else none
  startedAt := epochMs item.startedAt
  completedAt := epochMs item.completedAt
  version := truthyNat item.version
  roundId := truthyString item.roundId
  completedAtEntry := truthyNat item.completedAtEntry

def wireToTurnScalars (turn : Turn) : TurnScalars where
  id := turn.id
  status := turn.status
  startedAt := epochMs turn.startedAt
  completedAt := epochMs turn.completedAt
  durationMs := turn.durationMs
  usage := turn.usage
  cost := turn.cost
  error := turn.error
  version := truthyNat turn.version

/-- The `/s/{route}` fragment image bytes are served under; an id with a slash names none. -/
def imageSessionRouteForSession (sessionId : String) : Option String :=
  if sessionId = "" ∨ '/' ∈ sessionId.toList then none else some (encodeURIComponent sessionId)

/-! ## Row identity and replacement -/

/-- What identifies a recorded row: its transcript key, else its display id. -/
def itemIdentity (item : ItemModel) : String := item.transcriptKey.getD item.id

/-- `{ ...item }`: the symbol-keyed marks do not survive a spread. -/
def ItemModel.spread (item : ItemModel) : ItemModel :=
  { item with textPresence := .provided, identityOnlyMark := false }

/-- Nothing a merge would keep: marked so, or nothing but identity, ordering and
    fold-classification fields on an omitted text. -/
def itemIsIdentityOnly (item : ItemModel) : Bool :=
  item.identityOnlyMark ||
    (item.textPresence = .omitted &&
      item.toolName.isNone && item.argumentsJSON.isNone && item.description.isNone &&
      item.eventKind.isNone && item.steeringKind.isNone && item.raw.isNone &&
      item.output.isNone && item.error.isNone && item.prevalOnly.isNone &&
      item.exitCode.isNone && item.images.isNone && item.outputImages.isNone &&
      item.source.isNone && item.startedAt.isNone && item.completedAt.isNone &&
      item.reasoningSummaries.isNone && item.status.isNone &&
      item.transcriptEntryIndex.isNone && item.clientMutationId.isNone &&
      item.actor.isNone && item.pendingText.isNone && item.version.isNone &&
      item.roundId.isNone && item.completedAtEntry.isNone && item.overlayKey.isNone)

/-- `ITEM_OMISSION_TOLERANT_FIELDS`, as the part of a row they make up. -/
structure TolerantFields where
  images : Option (List ItemImage)
  outputImages : Option (List ItemImage)
  output : Option String
  error : Option String
  raw : Option String
  prevalOnly : Option Bool
  exitCode : Option Int
  argumentsJSON : Option String
  description : Option String
  toolName : Option String
  callId : Option String
  eventKind : Option String
  steeringKind : Option String
  source : Option String
  actor : Option SessionActor
deriving DecidableEq

def ItemModel.tolerant (item : ItemModel) : TolerantFields where
  images := item.images
  outputImages := item.outputImages
  output := item.output
  error := item.error
  raw := item.raw
  prevalOnly := item.prevalOnly
  exitCode := item.exitCode
  argumentsJSON := item.argumentsJSON
  description := item.description
  toolName := item.toolName
  callId := item.callId
  eventKind := item.eventKind
  steeringKind := item.steeringKind
  source := item.source
  actor := item.actor

def ItemModel.withTolerant (item : ItemModel) (f : TolerantFields) : ItemModel :=
  { item with
    images := f.images, outputImages := f.outputImages, output := f.output, error := f.error,
    raw := f.raw, prevalOnly := f.prevalOnly, exitCode := f.exitCode,
    argumentsJSON := f.argumentsJSON, description := f.description, toolName := f.toolName,
    callId := f.callId, eventKind := f.eventKind, steeringKind := f.steeringKind,
    source := f.source, actor := f.actor }

/-- An omitted field falls back to the held one. -/
def TolerantFields.orHeld (incoming held : TolerantFields) : TolerantFields where
  images := incoming.images.or held.images
  outputImages := incoming.outputImages.or held.outputImages
  output := incoming.output.or held.output
  error := incoming.error.or held.error
  raw := incoming.raw.or held.raw
  prevalOnly := incoming.prevalOnly.or held.prevalOnly
  exitCode := incoming.exitCode.or held.exitCode
  argumentsJSON := incoming.argumentsJSON.or held.argumentsJSON
  description := incoming.description.or held.description
  toolName := incoming.toolName.or held.toolName
  callId := incoming.callId.or held.callId
  eventKind := incoming.eventKind.or held.eventKind
  steeringKind := incoming.steeringKind.or held.steeringKind
  source := incoming.source.or held.source
  actor := incoming.actor.or held.actor

/-- A version-superseding replacement: `incoming` is authoritative for what it carries. A
    filled-in field makes the result a spread copy; an omitted text takes the held text and
    stays marked omitted. -/
def mergeReplacedItem (held : Option ItemModel) (incoming : ItemModel) : ItemModel :=
  match held with
  | none => incoming
  | some held =>
    let filled := incoming.tolerant.orHeld held.tolerant
    let merged :=
      if filled = incoming.tolerant then incoming else incoming.spread.withTolerant filled
    if incoming.textPresence = .omitted ∧ held.textPresence = .provided then
      { merged.spread with text := held.text, textPresence := incoming.textPresence }
    else merged

@[simp] theorem mergeReplacedItem_turnId (held : Option ItemModel) (incoming : ItemModel) :
    (mergeReplacedItem held incoming).turnId = incoming.turnId := by
  unfold mergeReplacedItem
  split
  · rfl
  · dsimp only
    split_ifs <;> rfl

@[simp] theorem mergeReplacedItem_identity (held : Option ItemModel) (incoming : ItemModel) :
    itemIdentity (mergeReplacedItem held incoming) = itemIdentity incoming := by
  unfold mergeReplacedItem
  split
  · rfl
  · dsimp only
    split_ifs <;> rfl

@[simp] theorem mergeReplacedItem_version (held : Option ItemModel) (incoming : ItemModel) :
    (mergeReplacedItem held incoming).version = incoming.version := by
  unfold mergeReplacedItem
  split
  · rfl
  · dsimp only
    split_ifs <;> rfl

/-- A row that carries its text and every omission-tolerant field. -/
structure ItemModel.Full (item : ItemModel) : Prop where
  text : item.textPresence = .provided
  images : item.images.isSome
  outputImages : item.outputImages.isSome
  output : item.output.isSome
  error : item.error.isSome
  raw : item.raw.isSome
  prevalOnly : item.prevalOnly.isSome
  exitCode : item.exitCode.isSome
  argumentsJSON : item.argumentsJSON.isSome
  description : item.description.isSome
  toolName : item.toolName.isSome
  callId : item.callId.isSome
  eventKind : item.eventKind.isSome
  steeringKind : item.steeringKind.isSome
  source : item.source.isSome
  actor : item.actor.isSome

theorem ItemModel.Full.orHeld {item : ItemModel} (h : item.Full) (held : TolerantFields) :
    item.tolerant.orHeld held = item.tolerant := by
  obtain ⟨-, h1, h2, h3, h4, h5, h6, h7, h8, h9, h10, h11, h12, h13, h14, h15⟩ := h
  simp only [TolerantFields.orHeld, ItemModel.tolerant, Option.or_of_isSome, *]

/-- A full row replaces whatever is held. -/
theorem mergeReplacedItem_full {incoming : ItemModel} (h : incoming.Full)
    (held : Option ItemModel) : mergeReplacedItem held incoming = incoming := by
  cases held with
  | none => rfl
  | some held => simp [mergeReplacedItem, h.orHeld, h.text]

end Evener.Transcript
