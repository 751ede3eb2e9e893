/-
  The wire data of a history read, and the content selection that a client makes.
-/
import Evener.Lib.Text

namespace Evener.Apphistory

open Evener.Lib

/-! ## Content selections -/

/-- What a client leaves out; an omitted field includes its category. -/
structure ThreadContentParams where
  includeConversation : Option Bool := none
  includeThinking : Option Bool := none
  includeToolCalls : Option Bool := none
  includeToolCallIntents : Option Bool := none
  includeSystemMessages : Option Bool := none
  includeDiagnostics : Option Bool := none
deriving DecidableEq

/-- The set of excluded categories. -/
abbrev ThreadContentSelection := BitVec 8

def excludeConversation : ThreadContentSelection := 1
def excludeThinking : ThreadContentSelection := 2
def excludeToolCalls : ThreadContentSelection := 4
def excludeToolCallIntents : ThreadContentSelection := 8
def excludeSystemMessages : ThreadContentSelection := 16
def excludeDiagnostics : ThreadContentSelection := 32

def ThreadContentParams.selection (p : ThreadContentParams) : ThreadContentSelection :=
  [(p.includeConversation, excludeConversation), (p.includeThinking, excludeThinking),
    (p.includeToolCalls, excludeToolCalls), (p.includeToolCallIntents, excludeToolCallIntents),
    (p.includeSystemMessages, excludeSystemMessages),
    (p.includeDiagnostics, excludeDiagnostics)].foldl
    (fun selection (value, bit) => if value = some false then selection ||| bit else selection) 0

namespace ThreadContentSelection

/-- `strconv.FormatUint(uint64(s), 16)`. -/
def key (s : ThreadContentSelection) : String :=
  if s = 0 then "" else String.ofList (Nat.toDigits 16 s.toNat)

def excludes (s bit : ThreadContentSelection) : Bool := s &&& bit != 0

def diagnostics (s : ThreadContentSelection) : Bool := !excludes s excludeDiagnostics

def hasItems (s : ThreadContentSelection) : Bool :=
  let content := excludeConversation ||| excludeThinking ||| excludeToolCalls |||
    excludeToolCallIntents ||| excludeSystemMessages
  s &&& content != content

end ThreadContentSelection

/-! ## Items and turns -/

structure ThreadItemPosition where
  entry : Nat
  item : Nat
  sub : Nat := 0
deriving DecidableEq

/-- `payload` holds the fields that an intent-only view leaves out, apart from the source. -/
structure ThreadItem where
  type : String
  id : String := ""
  transcriptKey : String := ""
  position : Option ThreadItemPosition := none
  turnID : String := ""
  transcriptEntryIndex : Int := 0
  toolName : String := ""
  callID : String := ""
  description : String := ""
  status : String := ""
  startedAt : Option Int := none
  completedAt : Option Int := none
  source : String := ""
  version : Nat := 0
  roundID : String := ""
  completedAtEntry : Nat := 0
  payload : List (String × String) := []
deriving DecidableEq

/-- `scalars` holds the fields of a turn besides its items and their completeness. -/
structure Turn where
  id : String
  items : List ThreadItem := []
  itemsView : String := ""
  hasEarlierItems : Bool := false
  hasLaterItems : Bool := false
  scalars : List (String × String) := []
deriving DecidableEq

namespace ThreadContentSelection

/-- The item as the selection shows it, if it does. -/
def item (s : ThreadContentSelection) (item : ThreadItem) : Option ThreadItem :=
  let kept (bit : ThreadContentSelection) := if excludes s bit then none else some item
  if item.type = "userMessage" ∨ item.type = "agentMessage" then kept excludeConversation
  else if item.type = "steering" then
    if item.source = "user" then kept excludeConversation else kept excludeSystemMessages
  else if item.type = "reasoning" then kept excludeThinking
  else if item.type = "commandExecution" then
    if excludes s excludeToolCalls then
      if excludes s excludeToolCallIntents || item.description = "" then none
      else some { item with source := "", payload := [] }
    else if excludes s excludeToolCallIntents then some { item with description := "" }
    else some item
  else kept excludeSystemMessages

def items (s : ThreadContentSelection) (items : List ThreadItem) : List ThreadItem :=
  if s = 0 then items else items.filterMap (item s)

/-- A shown item keeps its place and its key. -/
theorem item_same {s : ThreadContentSelection} {i shown : ThreadItem} (h : item s i = some shown) :
    shown.transcriptKey = i.transcriptKey ∧ shown.position = i.position := by
  unfold item at h
  dsimp only at h
  repeat' split at h
  all_goals first
    | (cases h; exact ⟨rfl, rfl⟩)
    | cases h

end ThreadContentSelection

structure SnapshotIdentity where
  incarnation : String
  length : Int
deriving DecidableEq

structure OverlayItem where
  key : String
  item : ThreadItem
  rest : List (String × String) := []
deriving DecidableEq

structure HistoryChanges where
  turns : List Turn := []
  items : List ThreadItem := []
deriving DecidableEq

/-! ## Requests and answers -/

structure ThreadReadParams where
  content : ThreadContentParams := {}
  threadID : String := ""
  ref : String := ""
  includeTurns : Bool := false
  itemsView : String := ""
  itemLimit : Int := 0
  heldSnapshot : Option SnapshotIdentity := none

structure ThreadReadResponse where
  turns : List Turn := []
  diagnostics : Option String := none
  olderCursor : String := ""
  bootGeneration : String := ""
  epoch : Nat := 0
  snapshot : Option SnapshotIdentity := none
  overlay : List OverlayItem := []
  authoritative : Bool := false
  changes : Option HistoryChanges := none

structure ThreadTurnsListParams where
  content : ThreadContentParams := {}
  threadID : String := ""
  ref : String := ""
  cursor : String := ""
  itemsView : String := ""
  itemLimit : Int := 0
  before : Option ThreadItemPosition := none

structure ThreadTurnsListResponse where
  data : List Turn := []
  nextCursor : String := ""
  bootGeneration : String := ""
  epoch : Nat := 0
  snapshot : Option SnapshotIdentity := none
  authoritative : Bool := false

inductive Failure where
  | invalidParams (message : String)
  | transcriptItemCursorStale
  | errorf (format : String) (args : List String)
  | source (text : String)
deriving DecidableEq

/-! ## Limits and cursors -/

def transcriptItemPageLimit : Nat := 40

def normalizeTranscriptItemLimit (limit : Int) : Except Failure Nat :=
  if limit ≤ 0 then .ok transcriptItemPageLimit
  else if transcriptItemPageLimit < limit then
    .error (.invalidParams
      ("itemLimit must be between 1 and " ++ toString transcriptItemPageLimit))
  else .ok limit.toNat

def validateThreadReadParams (params : ThreadReadParams) : Except Failure Unit := do
  let _ ← normalizeTranscriptItemLimit params.itemLimit

structure ContentCursor where
  selection : String
  snapshot : SnapshotIdentity
  ref : String := ""
  threadID : String := ""
  bootGeneration : String := ""
  epoch : Nat
  before : ThreadItemPosition
deriving DecidableEq

/-- `encoding/json` and `encoding/base64`: the text of a cursor and back, a text in base64 and
    back, and the encoded lengths of an item and of the turns of a page. -/
structure Codec where
  encodeCursor : ContentCursor → String
  decodeCursor : String → Option ContentCursor
  encodeText : String → String
  decodeText : String → Option String
  itemLength : ThreadItem → Nat
  turnsLength : List Turn → Nat

end Evener.Apphistory
