/-
  The thread model and everything that changes it (`transcriptHistory.ts`: `withDisplay`,
  `hydrateThread`, `applyReadResponse`, `mergeVersionedPage`, `invalidateHistory`,
  `issueLatestWindowRead`, `applyHistoryReadFailure`; `reducer.ts`: `applyNotification` and its
  history, overlay and status cases; `olderFrontier.ts`).

  Each call gets the number of its frame. The merge of pages and reads that name no snapshot
  (`turnHistoryMerge.ts`) is a parameter: it changes the shown turns, and never the history. Of a
  thread's own fields only those stay that a modelled function reads or a status frame writes.
-/
import Evener.Transcript.Display
import Evener.Transcript.History

namespace Evener.Transcript

open Evener.Lib

/-! ## Wire shapes -/

/-- The part of `Thread` (and its `evener` block) the modelled functions read. -/
structure Thread where
  id : String
  sessionId : String
  status : String := "idle"
  turns : Option (List Turn) := none
  activeTurnId : Option String := none
  activeTurnStartedAt : Option Nat := none
  failedToolCalls : Option Nat := none
  askPending : Option Bool := none
  capabilities : Option String := none
  artifactsDir : Option String := none
  scratchDir : Option String := none
deriving DecidableEq, Repr

structure HistoryChanges where
  turns : Option (List Turn) := none
  items : Option (List ThreadItem) := none
deriving DecidableEq, Repr

structure ThreadReadResponse where
  thread : Thread
  olderCursor : Option String := none
  requestGeneration : Option Nat := none
  bootGeneration : Option String := none
  epoch : Option Nat := none
  snapshot : Option SnapshotIdentity := none
  overlay : Option (List OverlayItem) := none
  authoritative : Bool := false
  changes : Option HistoryChanges := none
deriving DecidableEq, Repr

def ThreadReadResponse.identity (resp : ThreadReadResponse) : ReadIdentity :=
  readIdentity resp.bootGeneration resp.epoch resp.snapshot

/-- `resp.requestGeneration ?? 0`. -/
def ThreadReadResponse.generation (resp : ThreadReadResponse) : Nat :=
  resp.requestGeneration.getD 0

structure HistoryUpdatedParams where
  ref : String
  bootGeneration : String
  epoch : Nat
  snapshot : SnapshotIdentity
  turns : Option (List Turn) := none
  items : Option (List ThreadItem) := none
deriving DecidableEq, Repr

structure ThreadResyncParams where
  ref : String
  bootGeneration : Option String := none
  epoch : Option Nat := none
deriving DecidableEq, Repr

structure OverlayDeltaParams where
  ref : String
  key : String
  field : String
  delta : String
deriving DecidableEq, Repr

structure ThreadStatusChangedParams where
  ref : String
  status : String
  activeTurnId : Option String := none
  failedToolCalls : Option Nat := none
  askPending : Option Bool := none
  capabilities : Option String := none
deriving DecidableEq, Repr

inductive AnyNotification where
  | historyUpdated (params : HistoryUpdatedParams)
  | threadResync (params : ThreadResyncParams)
  | overlayUpserted (ref : String) (item : OverlayItem)
  | overlayDelta (params : OverlayDeltaParams)
  | overlayReset (ref : String) (streamId : String)
  | overlayEnd (ref : String) (roundId : String)
  | threadStatusChanged (params : ThreadStatusChangedParams)
deriving DecidableEq, Repr

/-! ## The model -/

/-- What a read sets besides the transcript. -/
structure ThreadFields where
  ref : String
  threadId : String
  imageSessionId : Option String
  status : String
  activeTurnStartedAt : Option Nat
  failedToolCalls : Option Nat
  askPending : Bool
  capabilities : Option String
  capabilitySource : String
  artifactsDir : Option String
  scratchDir : Option String
  lastFrameAt : Nat
deriving DecidableEq

structure ThreadModel extends ThreadFields where
  turns : List ShownTurn
  history : Option HistoryState := none
  overlay : Option (List OverlayCell) := none
  runningTurnId : Option String := none
  olderCursor : Option String := none
  olderFrontier : Option String := none
  modelRetry : Option String := none
deriving DecidableEq

/-- `model.history ?? EMPTY_HISTORY`. -/
def historyOf (model : ThreadModel) : HistoryState := model.history.getD emptyHistory

def wireImageSessionId (thread : Thread) : String :=
  if jsTrim thread.sessionId = "" then jsTrim thread.id else jsTrim thread.sessionId

/-- The read's fields. A served root the snapshot does not name is cleared. -/
def threadFields (resp : ThreadReadResponse) (ref : String) (now : Nat) : ThreadFields where
  ref := ref
  threadId := resp.thread.id
  imageSessionId := some (wireImageSessionId resp.thread)
  status := resp.thread.status
  activeTurnStartedAt := epochMs resp.thread.activeTurnStartedAt
  failedToolCalls := resp.thread.failedToolCalls
  askPending := resp.thread.askPending.getD false
  capabilities := resp.thread.capabilities
  capabilitySource := "read"
  artifactsDir := truthyString resp.thread.artifactsDir
  scratchDir := truthyString resp.thread.scratchDir
  lastFrameAt := now

def ThreadFields.imageSessionRoute (fields : ThreadFields) : Option String :=
  imageSessionRouteForSession (fields.imageSessionId.getD fields.threadId)

def modelImageSessionRoute (model : ThreadModel) : Option String :=
  model.toThreadFields.imageSessionRoute

/-- `runningTurn`: only the active turn the read names counts. -/
def runningTurn (thread : Thread) : Option String := truthyString thread.activeTurnId

/-- The merge of turns that carry no versions (`turnHistoryMerge.ts`). -/
structure UnversionedMerge where
  mergeToolCallsByCallId : List TurnModel → List TurnModel
  mergeTurns : List TurnModel → List TurnModel → List TurnModel

def wireToTurnModel (imageSessionRoute : Option String) (turn : Turn) : TurnModel :=
  ⟨wireToTurnScalars turn, (turn.items.getD []).map fun item => wireItemToModel item imageSessionRoute⟩

/-! ## The older frontier -/

def frontierFromCursor (cursor : Option String) : String := cursor.getD "none"

def olderFrontierOf (model : ThreadModel) : String := model.olderFrontier.getD "unknown"

def withOlderFrontier (model : ThreadModel) (cursor : Option String) : ThreadModel :=
  { model with olderCursor := cursor, olderFrontier := some (cursor.getD "none") }

/-! ## Deriving the display -/

/-- Sets history and overlay, drops what the history covers and derives the display turns. -/
def withDisplay (model : ThreadModel) (history : HistoryState) (overlay : List OverlayCell) :
    ThreadModel :=
  let shown := pruneCoveredOverlay history.turns overlay
  { model with
    history := some history
    overlay := some shown
    turns := displayTurns history.turns shown model.turns (modelImageSessionRoute model)
      model.runningTurnId }

/-! ## Reads, pages and the read protocol -/

def mergeVersionedPage (model : ThreadModel) (held : HistoryState)
    (resp : ThreadTurnsListResponse) (takeCursor : Bool) : ThreadModel :=
  match pageDisposition held resp with
  | .discard => model
  | .defer =>
    { model with history := some { held with deferredPages := held.deferredPages ++ [resp] } }
  | .invalidate =>
    -- a page of the incarnation it just announced waits for that incarnation's window
    let history := invalidated held resp.identity.signal
    { model with
      history := some
        (if history.pendingIncarnation = resp.identity.incarnation then
          { history with deferredPages := history.deferredPages ++ [resp] }
        else history) }
  | .merge =>
    let fresh := splitWireTurns (resp.data.getD []) (modelImageSessionRoute model)
    let kept :=
      match (if resp.authoritative then fragmentRange fresh.items else none) with
      | some (first, last) => dropItemsInRange held.turns first (some last)
      | none => held.turns
    let next := if takeCursor then withOlderFrontier model resp.nextCursor else model
    withDisplay next { held with turns := mergeHistory kept fresh } (model.overlay.getD [])

/-- The unversioned page merge, on the turns that are shown. -/
def mergeOlderItemPageWithFolds (U : UnversionedMerge) (model : ThreadModel)
    (resp : ThreadTurnsListResponse) : ThreadModel :=
  let olderTurns := (resp.data.getD []).map (wireToTurnModel (modelImageSessionRoute model))
  { withOlderFrontier model resp.nextCursor with
    turns := (U.mergeTurns olderTurns (model.turns.map (·.turn))).map (⟨·, none⟩) }

def mergeOlderItemPage (U : UnversionedMerge) (model : ThreadModel)
    (resp : ThreadTurnsListResponse) : ThreadModel :=
  match model.history, resp.snapshot with
  | some history, some _ => mergeVersionedPage model history resp true
  | _, _ => mergeOlderItemPageWithFolds U model resp

def hydrateThread (U : UnversionedMerge) (frame : Nat) (resp : ThreadReadResponse) (ref : String)
    (now : Nat) (frontier : String := frontierFromCursor resp.olderCursor) : ThreadModel :=
  let fields := threadFields resp ref now
  let route := fields.imageSessionRoute
  let turns := resp.thread.turns.getD []
  let base : ThreadModel :=
    { fields with turns := [], olderCursor := resp.olderCursor, olderFrontier := some frontier }
  match resp.snapshot with
  | none =>
    { base with
      turns := (U.mergeToolCallsByCallId (turns.map (wireToTurnModel route))).map (⟨·, none⟩) }
  | some _ =>
    withDisplay { base with runningTurnId := runningTurn resp.thread }
      { resp.identity with
        appliedGeneration := resp.generation
        issuedGeneration := resp.generation
        turns := mergeHistory [] (splitWireTurns turns route) }
      (overlayRecord frame resp.overlay)

def invalidateHistory (model : ThreadModel) : ThreadModel :=
  { model with history := some (invalidated (historyOf model)) }

/-- Records a new latest-window read; its generation is the history's `issuedGeneration`. -/
def issueLatestWindowRead (model : ThreadModel) : ThreadModel :=
  let history := historyOf model
  { model with history := some { history with issuedGeneration := history.issuedGeneration + 1 } }

def applyHistoryReadFailure (model : ThreadModel) (diagnostic : String)
    (requestGeneration : Nat) : ThreadModel :=
  let held := historyOf model
  if supersededRead held requestGeneration then model
  else
    { model with
      history := some
        { held with invalidatedAtGeneration := none, awaited := none, failed := some diagnostic } }

/-- The turns a latest-window response leaves, before deferred pages. -/
def turnsAfterRead (held : HistoryState) (disposition : ReadDisposition)
    (resp : ThreadReadResponse) (route : Option String) : List TurnModel :=
  let fresh := splitWireTurns (resp.thread.turns.getD []) route
  match disposition with
  | .merge =>
    let kept :=
      if resp.authoritative then
        dropItemsInRange held.turns
          (((fragmentRange fresh.items).map Prod.fst).getD { entry := 0, item := 0 })
      else held.turns
    let merged := mergeHistory kept fresh
    match resp.changes with
    | some changes => mergeHistory merged (wireFragment changes.turns changes.items route) true
    | none => merged
  | _ => mergeHistory [] fresh

/-- Whether held older pages keep their own cursor through this read. -/
def keepsOlderCursor (model : ThreadModel) (held : HistoryState) (disposition : ReadDisposition)
    (resp : ThreadReadResponse) (route : Option String) : Bool :=
  let window := fragmentRange (splitWireTurns (resp.thread.turns.getD []) route).items
  let kept :=
    if resp.authoritative then
      dropItemsInRange held.turns ((window.map Prod.fst).getD { entry := 0, item := 0 })
    else held.turns
  disposition == .merge &&
    (match earliestPosition kept, window with
      | some _, none => true
      | some oldest, some (first, _) => comparePositions (some oldest) (some first) < 0
      | none, _ => false) &&
    olderFrontierOf model ≠ "unknown"

/-- The history a latest-window response leaves, before deferred pages. -/
def historyAfterRead (held : HistoryState) (disposition : ReadDisposition)
    (resp : ThreadReadResponse) (route : Option String) : HistoryState :=
  { resp.identity with
    appliedGeneration := resp.generation
    issuedGeneration := max held.issuedGeneration resp.generation
    turns := turnsAfterRead held disposition resp route }

/-- Merges the pages deferred for the incarnation a read just installed. -/
def mergeDeferredPages (incarnation : Option String) (model : ThreadModel)
    (pages : List ThreadTurnsListResponse) : ThreadModel :=
  pages.foldl (fun next deferred =>
    if deferred.identity.incarnation = incarnation then
      mergeVersionedPage next (historyOf next) deferred false
    else next) model

def applyReadResponse (frame : Nat) (model : ThreadModel) (resp : ThreadReadResponse) (now : Nat)
    (frontier : String := frontierFromCursor resp.olderCursor) : ThreadModel :=
  let held := historyOf model
  let disposition := readDisposition held resp.generation resp.identity
  if disposition = .discard then model
  else
    let fields := threadFields resp model.ref now
    let route := fields.imageSessionRoute
    let keeps := keepsOlderCursor model held disposition resp route
    let history := historyAfterRead held disposition resp route
    let next := withDisplay
      { model with
        toThreadFields := fields
        runningTurnId := runningTurn resp.thread
        olderCursor := if keeps then model.olderCursor else resp.olderCursor
        olderFrontier := some (if keeps then olderFrontierOf model else frontier) }
      history (overlayRecord frame resp.overlay)
    mergeDeferredPages history.incarnation next held.deferredPages

/-! ## Notifications -/

def historyUpdatedSignal (params : HistoryUpdatedParams) : HistorySignal where
  bootGeneration := some params.bootGeneration
  epoch := some params.epoch
  incarnation := some params.snapshot.incarnation

def applyHistoryUpdated (model : ThreadModel) (params : HistoryUpdatedParams) (now : Nat) :
    ThreadModel :=
  let held := historyOf model
  let live := { model with lastFrameAt := now }
  if held.failed.isSome then live
  else
    let signal := historyUpdatedSignal params
    match classifySignal held signal with
    | .invalidate => { live with history := some (invalidated held signal) }
    | .ignore => live
    | .apply =>
      if held.invalidatedAtGeneration.isSome then live
      else
        let fragment := wireFragment params.turns params.items (modelImageSessionRoute model)
        if mergeHistoryChanges held.turns fragment then
          withDisplay live { held with turns := mergeHistory held.turns fragment }
            (model.overlay.getD [])
        else live

def applyResync (model : ThreadModel) (params : ThreadResyncParams) (now : Nat) : ThreadModel :=
  match model.history with
  | none => model
  | some held =>
    let live := { model with lastFrameAt := now }
    let signal : HistorySignal :=
      { bootGeneration := truthyString params.bootGeneration, epoch := params.epoch }
    -- a hub's own hint names neither, and only asks for a read
    if signal.bootGeneration.isNone ∧ signal.epoch.isNone then live
    else if classifySignal held signal = .invalidate then
      { live with history := some (invalidated held signal) }
    else live

/-- `historyIsLive`. -/
def liveHistory (model : ThreadModel) : Option HistoryState :=
  model.history.filter fun history => history.live

/-- The wire item of a delta: output grows, or text does. -/
def applyDelta (params : OverlayDeltaParams) (item : OverlayItem) : OverlayItem :=
  if params.field = "output" then
    { item with item := { item.item with output := some (item.item.output.getD "" ++ params.delta) } }
  else { item with item := { item.item with text := some (item.item.text.getD "" ++ params.delta) } }

def applyOverlayDelta (frame : Nat) (model : ThreadModel) (params : OverlayDeltaParams) (now : Nat) :
    ThreadModel :=
  let live := { model with lastFrameAt := now }
  match lookup cellKey params.key (model.overlay.getD []), liveHistory model with
  | some held, some history =>
    let next : OverlayCell := ⟨frame, applyDelta params held.item⟩
    let overlay := put cellKey next (model.overlay.getD [])
    match rebuildShowing held next (modelImageSessionRoute model) model.turns with
    | some turns => { live with overlay := some overlay, turns := turns }
    | none => withDisplay live history overlay
  | _, _ => live

/-- Replaces the overlay and re-derives the display; `change` is `none` when it returns its
    argument itself. Nothing applies while the thread is invalid. -/
def applyOverlayChange (model : ThreadModel) (now : Nat)
    (change : List OverlayCell → Option (List OverlayCell)) : ThreadModel :=
  let live := { model with lastFrameAt := now }
  match liveHistory model, change (model.overlay.getD []) with
  | some history, some overlay => withDisplay live history overlay
  | _, _ => live

def applyStatusChanged (model : ThreadModel) (params : ThreadStatusChangedParams) (now : Nat) :
    ThreadModel :=
  { model with
    runningTurnId := truthyString params.activeTurnId
    status := params.status
    activeTurnStartedAt := if params.status = "active" then model.activeTurnStartedAt else none
    failedToolCalls := params.failedToolCalls.or model.failedToolCalls
    askPending := params.askPending.getD model.askPending
    capabilities := params.capabilities.or model.capabilities
    capabilitySource :=
      if params.capabilities.isSome then "statusFrame" else model.capabilitySource
    lastFrameAt := now }

/-- The thread a notification names. -/
def AnyNotification.ref : AnyNotification → String
  | .historyUpdated params => params.ref
  | .threadResync params => params.ref
  | .overlayUpserted ref _ => ref
  | .overlayDelta params => params.ref
  | .overlayReset ref _ => ref
  | .overlayEnd ref _ => ref
  | .threadStatusChanged params => params.ref

def notificationTargetsThread (n : AnyNotification) (model : ThreadModel) : Bool :=
  n.ref = model.ref

def applyNotificationToThread (frame : Nat) (model : ThreadModel) (n : AnyNotification)
    (now : Nat) : ThreadModel :=
  if notificationTargetsThread n model then
    match n with
    | .historyUpdated params => applyHistoryUpdated model params now
    | .threadResync params => applyResync model params now
    | .overlayUpserted _ item =>
      applyOverlayChange model now fun overlay => some (put cellKey ⟨frame, item⟩ overlay)
    | .overlayDelta params => applyOverlayDelta frame model params now
    | .overlayReset _ streamId =>
      applyOverlayChange model now fun overlay =>
        filterOverlay overlay fun item => item.streamId = some streamId
    | .overlayEnd _ roundId =>
      applyOverlayChange model now fun overlay =>
        filterOverlay overlay fun item => item.kind ≠ .notice && item.roundId = some roundId
    | .threadStatusChanged params => applyStatusChanged model params now
  else model

/-- A history update that changed the turns of the history and brings output of the model's own. -/
def modelOutputCompleted (model : ThreadModel) (n : AnyNotification) : Bool :=
  match n with
  | .historyUpdated params =>
    let held := historyOf model
    let changed :=
      match classifySignal held (historyUpdatedSignal params) with
      -- a model without history gets an empty one
      | .invalidate => model.history.isNone
      | .ignore => false
      | .apply => held.live && mergeHistoryChanges held.turns
          (wireFragment params.turns params.items (modelImageSessionRoute model))
    held.failed.isNone && changed && (params.items.getD []).any fun item =>
      ["agentMessage", "reasoning", "commandExecution"].contains item.type
  | _ => false

/-- A pending retry is cleared by the completion of the model's own output. -/
def applyNotification (frame : Nat) (model : ThreadModel) (n : AnyNotification) (now : Nat) :
    ThreadModel :=
  let next := applyNotificationToThread frame model n now
  if notificationTargetsThread n model ∧ modelOutputCompleted model n then
    { next with modelRetry := none }
  else next

end Evener.Transcript
