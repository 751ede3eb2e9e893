/-
  The items and turns the page merge works on: a row is the list of its own properties, so that an
  absent property, one that is `undefined` and one that is `null` stay apart. The two symbol-keyed
  marks of an item are beside its properties; a spread drops them.

  A merge context is a weak map from item objects to where their content came from. The model
  keeps that entry with the item (`provenance`). What the context records for later readers only
  is left out.

  Objects are compared by value. Where the source compares references, the two sides hold either
  one object or a value and a missing one.
-/
import Evener.Lib.JsObject
import Evener.Lib.StableSort
import Mathlib.Data.Prod.Lex
import Mathlib.Order.WithBot

namespace Evener.TurnHistory

open Evener.Lib
open Evener.Lib.JsValue

inductive TextPresence where
  | provided
  | omitted
deriving DecidableEq

/-- An item as a value: its own properties and the marks under its two symbols. -/
structure ItemValue where
  props : JsObject
  textMark : Option TextPresence := none
  identityOnlyMark : Bool := false
deriving DecidableEq

/-- An item object handed to the merge; `ref` tells objects apart. -/
structure ItemObject extends ItemValue where
  ref : Nat

/-- The original objects an item combined, in merge order. -/
inductive ToolItemSourceMembership where
  | leaf (item : ItemObject)
  | node (left right : ToolItemSourceMembership)

structure ToolItemProvenance where
  fresh : Option ToolItemSourceMembership := none
  older : Option ToolItemSourceMembership := none

structure ItemModel extends ItemValue where
  provenance : Option ToolItemProvenance := none

/-- A turn: its own properties beside `items`, and its items. -/
structure TurnOf (ι : Type) where
  props : JsObject
  items : List ι

abbrev TurnModel := TurnOf ItemModel

def TurnOf.get {ι : Type} (turn : TurnOf ι) (name : String) : JsValue := turn.props.get name

def TurnOf.id {ι : Type} (turn : TurnOf ι) : JsValue := turn.get "id"

namespace ItemValue

def get (item : ItemValue) (name : String) : JsValue := item.props.get name

def id (item : ItemValue) : JsValue := item.get "id"

def transcriptKey (item : ItemValue) : JsValue := item.get "transcriptKey"

def status (item : ItemValue) : JsValue := item.get "status"

/-- `entry` and `item` of the item's position. -/
def position (item : ItemValue) : Option (Int × Int) :=
  match item.get "position" with
  | .obj fields =>
    match property fields "entry", property fields "item" with
    | .num entry, .num index => some (entry, index)
    | _, _ => none
  | _ => none

/-- `itemTextPresence`. -/
def textPresence (item : ItemValue) : TextPresence := item.textMark.getD .provided

end ItemValue

/-! ## Marks -/

/-- `copyItemTextPresence`, onto the properties of a new object. -/
def copyItemTextPresence (source : ItemValue) (props : JsObject) : ItemValue :=
  { props := props, textMark := source.textMark }

def itemNullishMergedFields : List String :=
  ["authorship", "position", "toolName", "callId", "argumentsJSON", "description", "eventKind",
    "steeringKind", "raw", "output", "error", "prevalOnly", "exitCode", "images", "outputImages",
    "source", "startedAt", "completedAt"]

def freshSuppliedNullishFallbackFields : List String :=
  itemNullishMergedFields ++ ["reasoningSummaries", "observedStartedAt", "observedCompletedAt"]

def itemIdentityOnlyFields : List String :=
  ["id", "turnId", "type", "text", "transcriptKey", "position", "callId"]

def isNullish (value : JsValue) : Bool := value = .undefined || value = .null

def itemIsIdentityOnly (item : ItemValue) : Bool :=
  item.identityOnlyMark ||
    (item.textPresence = .omitted && item.props.fields.all fun field =>
      if field.1 ∈ itemIdentityOnlyFields then true
      else if field.1 ∈ freshSuppliedNullishFallbackFields then isNullish field.2
      else if field.1 = "status" then field.2 = .undefined
      else false)

/-! ## Merging two items -/

def statusRank (status : JsValue) : Nat :=
  if status = .str "completed" ∨ status = .str "failed" then 1 else 0

/-- The status of the merge: the newer one, unless it ranks lower. -/
def mergeStatus (older newer : JsValue) : JsValue :=
  if newer = .undefined ∨ statusRank newer < statusRank older then older else newer

/-- The fields `mergePageItem` writes as `newer.field ?? older.field` after the text. -/
def pageItemNullishFields : List String :=
  ["toolName", "callId", "argumentsJSON", "description", "eventKind", "steeringKind", "raw",
    "output", "error", "prevalOnly", "exitCode", "images", "outputImages", "source",
    "reasoningSummaries", "startedAt", "completedAt", "observedStartedAt", "observedCompletedAt"]

/-- `field: newer.field ?? older.field` for every field of the list. -/
def withNullish (older newer : JsObject) (fields : List String) (props : JsObject) : JsObject :=
  fields.foldl (fun props name =>
    props.set name (nullish (newer.get name) (older.get name))) props

def mergeItemIdentityMetadata (existing incoming : JsObject) : JsObject :=
  let transcriptKey :=
    if truthy (incoming.get "transcriptKey") then incoming.get "transcriptKey"
    else existing.get "transcriptKey"
  let props :=
    if truthy transcriptKey then incoming.set "transcriptKey" transcriptKey else incoming
  if incoming.get "position" ≠ .undefined ∨ existing.get "position" ≠ .undefined then
    props.set "position" (nullish (incoming.get "position") (existing.get "position"))
  else props

def mergePageItem (older newer : ItemValue) : ItemValue :=
  let textSource :=
    if newer.textPresence = .omitted ∧ older.textPresence = .provided then older else newer
  let actor := nullish (newer.get "actor") (older.get "actor")
  let props := older.props.spread newer.props
  let props := withNullish older.props newer.props ["authorship"] props
  let props := if truthy actor then props.set "actor" actor else props
  let props := props.set "text" (textSource.get "text")
  let props := withNullish older.props newer.props pageItemNullishFields props
  let props := props.set "status" (mergeStatus older.status newer.status)
  copyItemTextPresence textSource (mergeItemIdentityMetadata older.props props)

/-! ## Identity and order -/

def itemIdentityMatches (left right : ItemValue) : Bool :=
  if truthy left.transcriptKey && truthy right.transcriptKey then
    left.transcriptKey = right.transcriptKey
  else left.id = right.id

theorem itemIdentityMatches_comm (a b : ItemValue) :
    itemIdentityMatches a b = itemIdentityMatches b a := by
  unfold itemIdentityMatches
  rw [Bool.and_comm]
  split
  · exact decide_eq_decide.mpr eq_comm
  · exact decide_eq_decide.mpr eq_comm

/-- The sort key of `orderedItems`: positioned items by position, the others after them. -/
def positionKey (item : ItemValue) : WithTop (Int ×ₗ Int) :=
  match item.position with
  | some position => (toLex position : Int ×ₗ Int)
  | none => ⊤

def orderedItems (items : List ItemModel) : List ItemModel :=
  sortBy (fun item => positionKey item.toItemValue) items

/-! ## Provenance -/

def combineToolItemMembership (left right : Option ToolItemSourceMembership) :
    Option ToolItemSourceMembership :=
  match left, right with
  | none, right => right
  | left, none => left
  | some left, some right => some (.node left right)

/-- The entry `recordMergedToolItem` writes for an item folded from `older` and `newer`. -/
def mergedProvenance (older newer : ItemModel) : Option ToolItemProvenance :=
  match older.provenance, newer.provenance with
  | none, none => none
  | olderEntry, newerEntry =>
    some
      { fresh := combineToolItemMembership (olderEntry.bind (·.fresh)) (newerEntry.bind (·.fresh))
        older := combineToolItemMembership (olderEntry.bind (·.older)) (newerEntry.bind (·.older)) }

def membershipLeaves : ToolItemSourceMembership → List ItemObject
  | .leaf item => [item]
  | .node left right => membershipLeaves left ++ membershipLeaves right

def leavesOf (membership : Option ToolItemSourceMembership) : List ItemObject :=
  (membership.map membershipLeaves).getD []

/-- A merged item, with the entry its context keeps for it when there is one. -/
def recorded (context : Bool) (existing current : ItemModel) (merged : ItemValue) : ItemModel :=
  { merged with provenance := if context then mergedProvenance existing current else none }

/-! ## Duplicates -/

def freshParticipates (context : Bool) (item : ItemModel) : Bool :=
  context && item.provenance.any fun provenance =>
    (leavesOf provenance.fresh).any fun leaf => !itemIsIdentityOnly leaf.toItemValue

/-- The fields one fresh input supplies to `item`, its status apart. -/
def suppliedByLeaf (leaf : ItemValue) : List String :=
  if itemIsIdentityOnly leaf then []
  else
    (leaf.props.fields.filter fun field =>
      if field.1 = "text" ∨ field.1 = "status" then false
      else if field.1 ∈ freshSuppliedNullishFallbackFields then !isNullish field.2
      else true).map Prod.fst ++ (if leaf.textPresence = .provided then ["text"] else [])

/-- A fresh input's own status is the one the merge kept. -/
def suppliesStatus (item leaf : ItemValue) : Bool :=
  !itemIsIdentityOnly leaf && leaf.status ≠ .undefined && leaf.status = item.status

def freshSuppliedFields (item : ItemModel) : List String :=
  let leaves : List ItemValue :=
    match item.provenance with
    | none => [item.toItemValue]
    | some provenance => (leavesOf provenance.fresh).map ItemObject.toItemValue
  leaves.flatMap suppliedByLeaf ++
    if leaves.any (suppliesStatus item.toItemValue) then ["status"] else []

def freshSuppliedOverlay (item : ItemValue) (freshSupplied : List String) : ItemValue :=
  let props := item.props.keep fun name => name = "text" || name ∈ freshSupplied
  if "text" ∈ freshSupplied then { props := props, textMark := item.textMark }
  else { props := props.set "text" (.str ""), textMark := some .omitted }

def reconcileDuplicatesByFields (existing item : ItemModel) : ItemValue :=
  let earlier := freshSuppliedFields existing
  let later := freshSuppliedFields item
  let merged := mergePageItem existing.toItemValue item.toItemValue
  let merged :=
    if earlier ≠ [] then mergePageItem merged (freshSuppliedOverlay existing.toItemValue earlier)
    else merged
  if later ≠ [] then mergePageItem merged (freshSuppliedOverlay item.toItemValue later) else merged

/-- A duplicate pair folded into one item. -/
def reconcilePair (context : Bool) (existing current : ItemModel) : ItemModel :=
  let existingIsNewer := freshParticipates context existing && !freshParticipates context current
  let olderItem := if existingIsNewer then current else existing
  let newerItem := if existingIsNewer then existing else current
  recorded context existing current
    (if context then reconcileDuplicatesByFields existing current
      else mergePageItem olderItem.toItemValue newerItem.toItemValue)

/-- The inner loop: `current` folds into the accumulated items it matches, each of them consumed,
    until it matches none. `fuel` is the number of items left to consume. -/
def settleItem (context : Bool) : Nat → List ItemModel → ItemModel → List ItemModel
  | 0, reconciled, current => reconciled ++ [current]
  | fuel + 1, reconciled, current =>
    match reconciled.findIdx? fun candidate =>
        itemIdentityMatches candidate.toItemValue current.toItemValue with
    | none => reconciled ++ [current]
    | some index =>
      match reconciled[index]? with
      | none => reconciled ++ [current]
      | some existing =>
        settleItem context fuel (reconciled.eraseIdx index) (reconcilePair context existing current)

def reconcileItemDuplicates (context : Bool) (items : List ItemModel) : List ItemModel :=
  items.foldl (fun reconciled item => settleItem context reconciled.length reconciled item) []

/-- One turn of the loop of `mergePageItems`. -/
def mergeCurrent (context : Bool) (merged : List ItemModel) (current : ItemModel) :
    List ItemModel :=
  match merged.findIdx? fun item => itemIdentityMatches item.toItemValue current.toItemValue with
  | none => merged ++ [current]
  | some index =>
    match merged[index]? with
    | none => merged
    | some existing =>
      merged.set index (recorded context existing current
        (mergePageItem existing.toItemValue current.toItemValue))

def mergePageItems (context : Bool) (older newer : List ItemModel) : List ItemModel :=
  orderedItems (reconcileItemDuplicates context
    (orderedItems ((orderedItems newer).foldl (mergeCurrent context) (orderedItems older))))

/-! ## Merging two turns -/

def turnNullishFields : List String :=
  ["startedAt", "completedAt", "durationMs", "usage", "cost", "error"]

def mergePageTurn (context : Bool) (older newer : TurnModel) : TurnModel where
  props := (withNullish older.props newer.props turnNullishFields
    (older.props.spread newer.props)).set "status" (mergeStatus (older.get "status")
      (newer.get "status"))
  items := mergePageItems context older.items newer.items

end Evener.TurnHistory
