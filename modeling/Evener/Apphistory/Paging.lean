/-
  `apphistory.Read`: a selected page is filled from complete pages of the source and cut to size.

  The source answers by the number of the call, so that its transcript may change between two
  calls; `fuel` bounds the loop that asks it.
-/
import Evener.Lib.Transaction
import Evener.Apphistory.Candidates

namespace Evener.Apphistory

open Evener.Lib

inductive Halt where
  | failed (failure : Failure)
  | outOfFuel
deriving DecidableEq

/-- The state is the number of calls made to the source. -/
abbrev Calls (α : Type) := Tx Nat Halt α

abbrev ReadFunc := Nat → ThreadReadParams → Except Failure ThreadReadResponse
abbrev ListFunc := Nat → ThreadTurnsListParams → Except Failure ThreadTurnsListResponse

def check {α : Type} : Except Failure α → Calls α
  | .ok a => pure a
  | .error e => Tx.abort (.failed e)

def fail {α : Type} (e : Failure) : Calls α := Tx.abort (.failed e)

/-- One call of the source. -/
def ask {α β : Type} (answer : Nat → α → Except Failure β) (params : α) : Calls β := do
  let n ← Tx.read
  Tx.write (· + 1)
  check (answer n params)

def cursorPrefix : String := "content1."
def snapshotPrefix : String := "content1:"
def pageContentBytes : Nat := 2 ^ 20

variable (codec : Codec)

/-! ## Snapshots and cursors -/

def snapshotFor (snapshot : Option SnapshotIdentity) (selection : ThreadContentSelection) :
    Option SnapshotIdentity :=
  if selection = 0 then snapshot
  else snapshot.map fun held =>
    { held with incarnation :=
        snapshotPrefix ++ selection.key ++ ":" ++ codec.encodeText held.incarnation }

def sourceSnapshot (held : Option SnapshotIdentity) (selection : ThreadContentSelection) :
    Option SnapshotIdentity :=
  held.bind fun held =>
    if selection = 0 then if startsWith held.incarnation snapshotPrefix then none else some held
    else
      let start := snapshotPrefix ++ selection.key ++ ":"
      if startsWith held.incarnation start then
        match codec.decodeText (trimStart held.incarnation start) with
        | some incarnation =>
          if incarnation = "" then none else some { held with incarnation := incarnation }
        | none => none
      else none

def sameSnapshot : Option SnapshotIdentity → Option SnapshotIdentity → Bool
  | some a, some b => a.incarnation = b.incarnation && decide (a.length ≤ b.length)
  | _, _ => false

/-! ## Filling a page -/

/-- The kept items from the newest on, until one more than the limit is selected. -/
def selectNewest (selection : ThreadContentSelection) (limit : Nat) :
    List TranscriptItemCandidate → List TranscriptItemCandidate → List TranscriptItemCandidate
  | selected, [] => selected
  | selected, candidate :: older =>
    if selected.length ≤ limit then
      match selection.item candidate.item with
      | some item =>
        selectNewest selection limit (selected ++
          [{ candidate with item := item, turn := { candidate.turn with items := [] } }]) older
      | none => selectNewest selection limit selected older
    else selected

/-- Whether a page of the source is older than all that was read before. -/
def advances (oldest : Option ThreadItemPosition) (candidates : List TranscriptItemCandidate) : Bool :=
  match oldest, candidates.getLast? with
  | some oldest, some last => comparePosition last.position oldest = .lt
  | _, _ => true

def selectItems (listSource : ListFunc) (params : ThreadTurnsListParams) (limit : Nat)
    (result : ThreadTurnsListResponse) :
    Nat → ThreadTurnsListResponse → List TranscriptItemCandidate → Option ThreadItemPosition →
      Calls (List TranscriptItemCandidate)
  | 0, _, _, _ => Tx.abort .outOfFuel
  | fuel + 1, page, selected, oldest => do
    let candidates ← check (candidatesFromTurns page.data)
    check (validateCandidates candidates)
    if advances oldest candidates = false then
      fail (.errorf "history source did not advance its page boundary" [])
    else
      let oldest := (candidates.head?.map TranscriptItemCandidate.position).or oldest
      let selected := selectNewest params.content.selection limit selected candidates.reverse
      if limit < selected.length ∨ page.nextCursor = "" then return selected
      else if candidates = [] then
        fail (.errorf "history source returned an empty continuation page" [])
      else
        let page ← ask listSource {
          ref := params.ref
          threadID := params.threadID
          itemsView := params.itemsView
          itemLimit := transcriptItemPageLimit
          before := oldest }
        if sameSnapshot result.snapshot page.snapshot = false ∨
            result.bootGeneration ≠ page.bootGeneration ∨ result.epoch ≠ page.epoch then
          fail .transcriptItemCursorStale
        else selectItems listSource params limit result fuel page selected oldest

/-- Drop the oldest items while the items alone are too long for a page. -/
def cutItems (bytes : Nat) : List TranscriptItemCandidate → List TranscriptItemCandidate
  | first :: second :: rest =>
    if pageContentBytes < bytes then
      cutItems (bytes - codec.itemLength first.item) (second :: rest)
    else first :: second :: rest
  | selected => selected

/-- Drop the oldest items while the encoded page is too long. -/
def cutPage : List TranscriptItemCandidate → Except Failure (List Turn × List TranscriptItemCandidate)
  | first :: second :: rest => do
    let data ← regroupTurnFragments
      (normalizeProjectedItemCompleteness (first :: second :: rest))
    if codec.turnsLength data ≤ pageContentBytes then return (data, first :: second :: rest)
    else cutPage (second :: rest)
  | selected => do
    let data ← regroupTurnFragments (normalizeProjectedItemCompleteness selected)
    return (data, selected)

/-- The page of the selected candidates, of which there is one too many if more are kept. -/
def encodePage (params : ThreadTurnsListParams) (page : ThreadTurnsListResponse) (limit : Nat)
    (newest : List TranscriptItemCandidate) : Calls ThreadTurnsListResponse := do
  let selected := (newest.take limit).reverse
  let bytes := (selected.map fun candidate => codec.itemLength candidate.item).sum
  let (data, shown) ← check (cutPage codec (cutItems codec bytes selected))
  -- an item was left out by its number or by a cut
  if limit < newest.length ∨ shown.length < selected.length then
    match page.snapshot, shown with
    | none, _ => fail (.errorf "selected history needs a source snapshot" [])
    | some snapshot, oldest :: _ =>
      let cursor : ContentCursor := {
        selection := params.content.selection.key
        ref := trimSpace params.ref
        threadID := trimSpace params.threadID
        snapshot := snapshot
        bootGeneration := page.bootGeneration
        epoch := page.epoch
        before := oldest.position }
      return { page with data := data, nextCursor := cursorPrefix ++ codec.encodeCursor cursor }
    | some _, [] => return { page with data := data, nextCursor := "" }
  else return { page with data := data, nextCursor := "" }

def fill (fuel : Nat) (listSource : ListFunc) (params : ThreadTurnsListParams)
    (page : ThreadTurnsListResponse) : Calls ThreadTurnsListResponse := do
  let limit ← check (normalizeTranscriptItemLimit params.itemLimit)
  if params.content.selection.hasItems then do
    let newest ← selectItems listSource params limit page fuel page [] none
    encodePage codec params page limit newest
  else encodePage codec params page limit []

/-! ## Reading -/

def selectOverlay (items : List OverlayItem) (selection : ThreadContentSelection) :
    List OverlayItem :=
  if selection = 0 then items
  else items.filterMap fun overlay =>
    (selection.item overlay.item).map fun item => { overlay with item := item }

/-- The items and turns of the source's window that the selected one leaves out. -/
def leftOut (selection : ThreadContentSelection) :
    List Turn → HistoryChanges → (kept keptTurns : List String) → HistoryChanges
  | [], changes, _, _ => changes
  | turn :: window, changes, kept, keptTurns =>
    let turns := if turn.id ∈ keptTurns then changes.turns
      else changes.turns ++ [{ turn with items := [] }]
    let (items, kept) := turn.items.foldl
      (fun (items, kept) item =>
        match selection.item item with
        | some selected =>
          if item.transcriptKey ∈ kept then (items, kept)
          else (items ++ [selected], item.transcriptKey :: kept)
        | none => (items, kept))
      (changes.items, kept)
    leftOut selection window { turns := turns, items := items } kept (turn.id :: keptTurns)

def selectChanges (selection : ThreadContentSelection) (shown sourceWindow : List Turn)
    (changes : HistoryChanges) : HistoryChanges :=
  let changes := { changes with items := selection.items changes.items }
  leftOut selection sourceWindow changes
    (((shown.flatMap Turn.items) ++ changes.items).map ThreadItem.transcriptKey)
    ((shown ++ changes.turns).map Turn.id)

def read (fuel : Nat) (params : ThreadReadParams) (readSource : ReadFunc) (listSource : ListFunc) :
    Calls ThreadReadResponse := do
  check (validateThreadReadParams params)
  let selection := params.content.selection
  let response ← ask readSource { params with
    content := {}
    heldSnapshot := sourceSnapshot codec params.heldSnapshot selection
    itemLimit := if selection ≠ 0 ∧ params.includeTurns then transcriptItemPageLimit
      else params.itemLimit }
  if selection = 0 then return response
  else
    let sourceWindow := response.turns
    let response ← if params.includeTurns then do
        let page ← fill codec fuel listSource {
            content := params.content
            ref := params.ref
            threadID := params.threadID
            itemLimit := params.itemLimit
            itemsView := params.itemsView } {
          data := response.turns
          nextCursor := response.olderCursor
          snapshot := response.snapshot
          bootGeneration := response.bootGeneration
          epoch := response.epoch
          authoritative := response.authoritative }
        pure { response with turns := page.data, olderCursor := page.nextCursor }
      else pure response
    return { response with
      diagnostics := if selection.diagnostics then response.diagnostics else none
      snapshot := snapshotFor codec response.snapshot selection
      overlay := selectOverlay response.overlay selection
      changes := response.changes.map (selectChanges selection response.turns sourceWindow) }

end Evener.Apphistory
