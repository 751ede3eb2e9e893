/-
  The display derivation (`transcriptHistory.ts`: `pruneCoveredOverlay`, `filterOverlay`,
  `overlayTurnId`, `buildDisplayTurn`, `displayTurns`).

  The overlay's values are compared by reference, so a value is a cell: the overlay item together
  with the number of the frame that brought it (`made`). A shown turn carries the entry of
  `displayTurnSources` for it. The recorded turns are compared by value here; the source compares
  references, and rebuilds an equal turn where the model reuses one.
-/
import Evener.Transcript.MergeHistory

namespace Evener.Transcript

open Evener.Lib
open List hiding lookup

/-! ## Overlay items -/

inductive OverlayKind where
  | stream
  | preview
  | tool
  | notice
  | other (name : String)
deriving DecidableEq, Repr

structure OverlayItem where
  key : String
  kind : OverlayKind
  turnId : Option String := none
  roundId : Option String := none
  streamId : Option String := none
  callId : Option String := none
  historyKey : Option String := none
  anchor : Option ThreadItemPosition := none
  item : ThreadItem
deriving DecidableEq, Repr

/-- An overlay object: what it says, and the frame that made it. -/
structure OverlayCell where
  made : Nat
  item : OverlayItem
deriving DecidableEq, Repr

abbrev cellKey (cell : OverlayCell) : String := cell.item.key

/-- `overlayRecord`: a later item of a key takes the place of an earlier one. -/
def overlayRecord (made : Nat) (items : Option (List OverlayItem)) : List OverlayCell :=
  (items.getD []).foldl (fun record item => put cellKey ⟨made, item⟩ record) []

/-- `filterOverlay`: `none` when nothing goes and the source returns `overlay` itself. -/
def filterOverlay (overlay : List OverlayCell) (drop : OverlayItem → Bool) :
    Option (List OverlayCell) :=
  let kept := overlay.filter fun cell => !drop cell.item
  if kept.length = overlay.length then none else some kept

/-- The identity of an overlay item's wire item. -/
def wireIdentity (item : ThreadItem) : String := item.transcriptKey.getD item.id

/-- History holds an item that satisfies `p`. -/
def anyItem (turns : List TurnModel) (p : ItemModel → Bool) : Bool :=
  turns.any fun turn => turn.items.any p

/-- History covers this overlay item. -/
def covered (turns : List TurnModel) (item : OverlayItem) : Bool :=
  match item.kind with
  | .stream =>
    item.roundId.isSome &&
      anyItem turns fun held => (truthyString held.roundId).isSome && held.roundId == item.roundId
  | .preview =>
    item.callId.isSome && anyItem turns fun held =>
      held.type == "agentMessage" && (truthyString held.callId).isSome && held.callId == item.callId
  | .tool =>
    item.historyKey.isSome && anyItem turns fun held =>
      (truthyNat held.completedAtEntry).isSome && (truthyString held.transcriptKey).isSome &&
        held.transcriptKey == item.historyKey
  | .notice => anyItem turns fun held => itemIdentity held == wireIdentity item.item
  | .other _ => false

def pruneCoveredOverlay (turns : List TurnModel) (overlay : List OverlayCell) :
    List OverlayCell :=
  (filterOverlay overlay (covered turns)).getD overlay

/-! ## Placement -/

/-- The turn holding the recorded item a tool's execution state lays over. -/
def toolHistoryTurn (overlayItem : OverlayItem) (turns : List TurnModel) : Option TurnModel :=
  let holds := fun turn : TurnModel =>
    turn.items.any fun item => item.transcriptKey == overlayItem.historyKey
  match turns.find? fun turn => some turn.id == overlayItem.turnId with
  | some hinted => if holds hinted then some hinted else turns.find? holds
  | none => turns.find? holds

/-- The turn holding the recorded item that precedes a notice's anchor. -/
def noticeHistoryTurn (anchor : ThreadItemPosition) (turns : List TurnModel) : Option TurnModel :=
  (turns.foldl (fun (found : Option (TurnModel × ThreadItemPosition)) turn =>
    let before := itemsBefore turn.items (some anchor)
    match (if before = 0 then none else turn.items[before - 1]?).bind (·.position), found with
    | some position, none => some (turn, position)
    | some position, some (held, preceding) =>
      if comparePositions (some position) (some preceding) > 0 then some (turn, position)
      else some (held, preceding)
    | none, held => held) none).map Prod.fst

def systemPreludeTurnId : String := "turn_system"

/-- The display turn that shows an overlay item; "" when it is not shown. -/
def overlayTurnId (overlayItem : OverlayItem) (turns : List TurnModel)
    (runningTurnId : Option String) : String :=
  let fallback := (((truthyString overlayItem.turnId).or (truthyString overlayItem.item.turnId)).or
    (truthyString runningTurnId)).getD ""
  match overlayItem.kind, truthyString overlayItem.historyKey, overlayItem.anchor with
  | .tool, some _, _ => ((toolHistoryTurn overlayItem turns).map (·.id)).getD fallback
  | .notice, _, some anchor =>
    (((noticeHistoryTurn anchor turns).or turns.head?).map (·.id)).getD
      (if fallback = "" then systemPreludeTurnId else fallback)
  | _, _, _ => fallback

/-! ## One display turn -/

/-- A display item the overlay contributes on its own. -/
def overlayDisplayItem (overlayItem : OverlayItem) (imageSessionRoute : Option String) :
    ItemModel :=
  let item := { wireItemToModel overlayItem.item imageSessionRoute with
    overlayKey := some overlayItem.key }
  let item := if item.turnId = "" then
      { item with turnId := (truthyString overlayItem.turnId).getD "" } else item
  let item := { item with position := overlayItem.anchor.or item.position }
  if item.status = some "inProgress" ∧ item.text ≠ "" then
    { item with pendingText := some [item.text] }
  else item

/-- A tool's execution state laid over its in-progress history item. -/
def layOverHistoryItem (item : ItemModel) (overlayItem : OverlayItem) : ItemModel :=
  { item.spread with
    textPresence := item.textPresence
    output := overlayItem.item.output.or item.output
    status := overlayItem.item.status.or item.status
    outputImages := (outputImagesToItemImages overlayItem.item.outputImages).or item.outputImages
    overlayKey := some overlayItem.key }

/-- What produced a display turn that carries overlay items. -/
structure DisplayTurnSource where
  recorded : Option TurnModel
  overlay : List OverlayCell
deriving DecidableEq

/-- A shown turn, and its entry in `displayTurnSources`. -/
structure ShownTurn where
  turn : TurnModel
  source : Option DisplayTurnSource
deriving DecidableEq

/-- The recorded item an overlay item lays over, by history key. -/
def laysOver (recorded : Option TurnModel) (overlayItem : OverlayItem) : Bool :=
  overlayItem.kind = .tool && (truthyString overlayItem.historyKey).isSome &&
    (match recorded with
      | some turn => turn.items.any fun item => item.transcriptKey == overlayItem.historyKey
      | none => false)

/-- The loop state of `buildDisplayTurn`: overlay items to lay over, notices spliced in, and
    what trails. -/
structure Building where
  laid : List OverlayItem
  items : List ItemModel
  trailing : List ItemModel

def buildStep (recorded : Option TurnModel) (imageSessionRoute : Option String) (b : Building)
    (overlayItem : OverlayItem) : Building :=
  if overlayItem.kind = .notice then
    let notice := overlayDisplayItem overlayItem imageSessionRoute
    { b with items := insertAt (itemsBefore b.items notice.position) notice b.items }
  else if laysOver recorded overlayItem then
    { b with laid := put (fun item : OverlayItem => item.historyKey) overlayItem b.laid }
  else { b with trailing := b.trailing ++ [overlayDisplayItem overlayItem imageSessionRoute] }

def buildDisplayTurn (id : String) (source : DisplayTurnSource)
    (imageSessionRoute : Option String) : TurnModel :=
  let start : Building := ⟨[], (source.recorded.map (·.items)).getD [], []⟩
  let b := (source.overlay.map (·.item)).foldl (buildStep source.recorded imageSessionRoute) start
  let items := b.items.map fun item =>
    match item.transcriptKey.bind fun key =>
        lookup (fun o : OverlayItem => o.historyKey) (some key) b.laid with
    | some overlayItem =>
      if (truthyNat item.completedAtEntry).isSome then item else layOverHistoryItem item overlayItem
    | none => item
  { (source.recorded.map (·.toTurnScalars)).getD (placeholderTurn id) with
    items := items ++ b.trailing }

/-! ## The derivation -/

/-- The cells shown under a turn id: `byTurn.get(id)`. -/
def shownUnder (recorded : List TurnModel) (overlay : List OverlayCell)
    (runningTurnId : Option String) (id : String) : List OverlayCell :=
  if id = "" then []
  else overlay.filter fun cell => overlayTurnId cell.item recorded runningTurnId = id

/-- `[...byTurn.keys()]`: the turn ids that show a cell, in order of first appearance. -/
def overlayTurnIds (recorded : List TurnModel) (overlay : List OverlayCell)
    (runningTurnId : Option String) : List String :=
  overlay.foldl (fun ids cell =>
    let id := overlayTurnId cell.item recorded runningTurnId
    if id = "" ∨ id ∈ ids then ids else ids ++ [id]) []

/-- The previous display's turn under `id`. -/
def priorTurn (previous : List ShownTurn) (id : String) : Option ShownTurn :=
  previous.reverse.find? fun shown => shown.turn.id = id

/-- Shows one turn: the recorded turn itself when it shows no cell, the previous display turn
    when its inputs are the same, a new one otherwise. -/
def displayTurn (previous : List ShownTurn) (imageSessionRoute : Option String) (id : String)
    (recorded : Option TurnModel) (cells : List OverlayCell) : ShownTurn :=
  match recorded, cells with
  | some turn, [] => ⟨turn, none⟩
  | _, _ =>
    let source : DisplayTurnSource := ⟨recorded, cells⟩
    let fresh : ShownTurn := ⟨buildDisplayTurn id source imageSessionRoute, some source⟩
    match priorTurn previous id with
    | some prior => if prior.source = some source then prior else fresh
    | none => fresh

def displayTurns (recorded : List TurnModel) (overlay : List OverlayCell)
    (previous : List ShownTurn) (imageSessionRoute : Option String)
    (runningTurnId : Option String) : List ShownTurn :=
  let ids := overlayTurnIds recorded overlay runningTurnId
  if ids = [] then recorded.map (⟨·, none⟩)
  else
    (recorded.map fun turn => displayTurn previous imageSessionRoute turn.id (some turn)
      (shownUnder recorded overlay runningTurnId turn.id)) ++
    ((ids.filter fun id => id ∉ recorded.map (·.id)).map fun id =>
      displayTurn previous imageSessionRoute id none (shownUnder recorded overlay runningTurnId id))

/-- The display turn was built from this cell. -/
def ShownTurn.shows (shown : ShownTurn) (cell : OverlayCell) : Bool :=
  match shown.source with
  | some source => cell ∈ source.overlay
  | none => false

/-- Puts `next` in the place of `held`. -/
def replaceCell (held next cell : OverlayCell) : OverlayCell := if cell = held then next else cell

/-- Rebuilds a display turn with `next` in the place of `held`. -/
def ShownTurn.rebuild (held next : OverlayCell) (imageSessionRoute : Option String)
    (shown : ShownTurn) : ShownTurn :=
  match shown.source with
  | some source =>
    let source := { source with overlay := source.overlay.map (replaceCell held next) }
    ⟨buildDisplayTurn shown.turn.id source imageSessionRoute, some source⟩
  | none => shown

/-- Rebuilds the first turn built from `held`; `none` when no shown turn is. -/
def rebuildShowing (held next : OverlayCell) (imageSessionRoute : Option String) :
    List ShownTurn → Option (List ShownTurn)
  | [] => none
  | shown :: rest =>
    if shown.shows held then some (shown.rebuild held next imageSessionRoute :: rest)
    else (rebuildShowing held next imageSessionRoute rest).map (shown :: ·)

/-! ## Which turns show a cell -/

variable {id : String} {route : Option String} {shown : ShownTurn} {held : OverlayCell}

section Derivation

variable {recorded : List TurnModel} {overlay : List OverlayCell} {running : Option String}

theorem mem_shownUnder {cell : OverlayCell} :
    cell ∈ shownUnder recorded overlay running id ↔
      id ≠ "" ∧ cell ∈ overlay ∧ overlayTurnId cell.item recorded running = id := by
  unfold shownUnder
  split
  · next h => simp [h]
  · next h => simp [h]

theorem mem_overlayTurnIds :
    id ∈ overlayTurnIds recorded overlay running ↔
      id ≠ "" ∧ ∃ cell ∈ overlay, overlayTurnId cell.item recorded running = id := by
  have hgen : ∀ (l : List OverlayCell) (acc : List String),
      id ∈ l.foldl (fun ids cell =>
        let id := overlayTurnId cell.item recorded running
        if id = "" ∨ id ∈ ids then ids else ids ++ [id]) acc ↔
      id ∈ acc ∨ (id ≠ "" ∧ ∃ cell ∈ l, overlayTurnId cell.item recorded running = id) := by
    intro l
    induction l with
    | nil => simp
    | cons c l ih =>
      intro acc
      rw [foldl_cons, ih]
      dsimp only
      by_cases hc : overlayTurnId c.item recorded running = id
      · subst hc
        by_cases hne : overlayTurnId c.item recorded running = ""
        · simp [hne]
        · by_cases hmem : overlayTurnId c.item recorded running ∈ acc
          · simp [hmem]
          · simp [hne, hmem]
      · have hc' : ¬ id = overlayTurnId c.item recorded running := fun h => hc h.symm
        split
        · simp [hc]
        · simp [hc, hc']
  unfold overlayTurnIds
  rw [hgen]
  simp

theorem shownUnder_eq_nil (h : id ∉ overlayTurnIds recorded overlay running) :
    shownUnder recorded overlay running id = [] := by
  refine eq_nil_iff_forall_not_mem.mpr fun cell hcell => h ?_
  obtain ⟨hid, hmem, heq⟩ := (mem_shownUnder).mp hcell
  exact (mem_overlayTurnIds).mpr ⟨hid, cell, hmem, heq⟩

theorem shownUnder_ne_nil (h : id ∈ overlayTurnIds recorded overlay running) :
    shownUnder recorded overlay running id ≠ [] := by
  obtain ⟨hid, cell, hmem, heq⟩ := (mem_overlayTurnIds).mp h
  exact ne_nil_of_mem ((mem_shownUnder).mpr ⟨hid, hmem, heq⟩)

/-- The derivation without its shortcut for an overlay that shows nothing. -/
theorem displayTurns_eq (previous : List ShownTurn) (route : Option String) :
    displayTurns recorded overlay previous route running =
      (recorded.map fun turn => displayTurn previous route turn.id (some turn)
        (shownUnder recorded overlay running turn.id)) ++
      ((overlayTurnIds recorded overlay running).filter fun id =>
        id ∉ recorded.map (·.id)).map fun id =>
          displayTurn previous route id none (shownUnder recorded overlay running id) := by
  unfold displayTurns
  dsimp only
  split
  · next hids =>
    rw [hids]
    simp only [filter_nil, map_nil, append_nil]
    refine map_congr_left fun turn _ => ?_
    rw [shownUnder_eq_nil (by rw [hids]; exact not_mem_nil)]
    rfl
  · rfl

/-! ## Reuse -/

/-- A shown turn is what its source builds. -/
def ShownTurn.Built (route : Option String) (shown : ShownTurn) : Prop :=
  ∀ source, shown.source = some source →
    shown.turn = buildDisplayTurn shown.turn.id source route

/-- Every previous turn that could be reused for this overlay is what its source builds. -/
def Reusable (route : Option String) (overlay : List OverlayCell) (previous : List ShownTurn) :
    Prop :=
  ∀ shown ∈ previous, ∀ source, shown.source = some source → source.overlay ≠ [] →
    (∀ cell ∈ source.overlay, cell ∈ overlay) →
    shown.turn = buildDisplayTurn shown.turn.id source route

theorem displayTurn_reuse {previous : List ShownTurn} (h : Reusable route overlay previous)
    {turn : Option TurnModel} {cells : List OverlayCell} (hcells : ∀ cell ∈ cells, cell ∈ overlay)
    (hne : turn = none → cells ≠ []) :
    displayTurn previous route id turn cells = displayTurn [] route id turn cells := by
  have hcase : ∀ source : DisplayTurnSource, source = ⟨turn, cells⟩ → cells ≠ [] →
      (match priorTurn previous id with
        | some prior =>
          if prior.source = some source then prior
          else ⟨buildDisplayTurn id source route, some source⟩
        | none => ⟨buildDisplayTurn id source route, some source⟩) =
      (⟨buildDisplayTurn id source route, some source⟩ : ShownTurn) := by
    rintro source rfl hcne
    cases hp : priorTurn previous id with
    | none => rfl
    | some prior =>
      dsimp only
      split
      · next hsrc =>
        unfold priorTurn at hp
        have hmem : prior ∈ previous := mem_reverse.mp (mem_of_find?_eq_some hp)
        have hid : prior.turn.id = id := by simpa using find?_some hp
        have hbuilt := h prior hmem _ hsrc hcne hcells
        rw [hid] at hbuilt
        cases prior
        simp only at hbuilt hsrc
        rw [hbuilt, hsrc]
      · rfl
  unfold displayTurn
  split
  · rfl
  · next hnot =>
    have hcne : cells ≠ [] := by
      intro hnil
      cases turn with
      | none => exact hne rfl hnil
      | some t => exact hnot t rfl hnil
    exact hcase _ rfl hcne

/-- Reusing previous display turns gives the derivation from scratch. -/
theorem displayTurns_reuse {previous : List ShownTurn} (h : Reusable route overlay previous) :
    displayTurns recorded overlay previous route running =
      displayTurns recorded overlay [] route running := by
  have hcells : ∀ id, ∀ cell ∈ shownUnder recorded overlay running id, cell ∈ overlay :=
    fun id cell hcell => (mem_shownUnder.mp hcell).2.1
  rw [displayTurns_eq, displayTurns_eq]
  congr 1
  · refine map_congr_left fun turn _ => ?_
    exact displayTurn_reuse h (hcells _) fun hnone => by cases hnone
  · refine map_congr_left fun id hid => ?_
    exact displayTurn_reuse h (hcells _) fun _ => shownUnder_ne_nil (mem_of_mem_filter hid)

/-- What the derivation from scratch shows: recorded turns as they are, and built turns. -/
theorem mem_displayTurns (h : shown ∈ displayTurns recorded overlay [] route running) :
    ∃ id turn, shown = displayTurn [] route id turn (shownUnder recorded overlay running id) ∧
      ((∃ t ∈ recorded, turn = some t ∧ t.id = id) ∨
        (turn = none ∧ id ∉ recorded.map (·.id) ∧ id ∈ overlayTurnIds recorded overlay running)) := by
  rw [displayTurns_eq] at h
  rcases mem_append.mp h with h | h
  · obtain ⟨t, ht, rfl⟩ := mem_map.mp h
    exact ⟨t.id, some t, rfl, Or.inl ⟨t, ht, rfl, rfl⟩⟩
  · obtain ⟨id, hid, rfl⟩ := mem_map.mp h
    have hid' := mem_filter.mp hid
    exact ⟨id, none, rfl, Or.inr ⟨rfl, by simpa using hid'.2, hid'.1⟩⟩

/-- A turn shown from scratch: its id, and its source when it shows cells. -/
theorem displayTurn_nil_cases (route : Option String) (id : String) (turn : Option TurnModel)
    (cells : List OverlayCell) :
    (∃ t, turn = some t ∧ cells = [] ∧ displayTurn [] route id turn cells = ⟨t, none⟩) ∨
    displayTurn [] route id turn cells =
      ⟨buildDisplayTurn id ⟨turn, cells⟩ route, some ⟨turn, cells⟩⟩ := by
  cases turn with
  | none => exact Or.inr rfl
  | some t =>
    cases cells with
    | nil => exact Or.inl ⟨t, rfl, rfl, rfl⟩
    | cons c cells => exact Or.inr rfl

theorem displayTurns_built (h : shown ∈ displayTurns recorded overlay [] route running) :
    shown.Built route := by
  obtain ⟨id, turn, rfl, hturn⟩ := mem_displayTurns h
  intro source hsource
  rcases displayTurn_nil_cases route id turn (shownUnder recorded overlay running id) with
    ⟨t, -, -, heq⟩ | heq
  · rw [heq] at hsource
    cases hsource
  · rw [heq] at hsource ⊢
    cases hsource
    rcases hturn with ⟨t, -, rfl, rfl⟩ | ⟨rfl, -, -⟩
    · rfl
    · rfl

theorem displayTurns_source_subset (h : shown ∈ displayTurns recorded overlay [] route running)
    {source : DisplayTurnSource} (hs : shown.source = some source) :
    ∀ cell ∈ source.overlay, cell ∈ overlay := by
  obtain ⟨id, turn, rfl, -⟩ := mem_displayTurns h
  rcases displayTurn_nil_cases route id turn (shownUnder recorded overlay running id) with
    ⟨t, -, -, heq⟩ | heq
  · rw [heq] at hs
    cases hs
  · rw [heq] at hs
    cases hs
    exact fun cell hcell => (mem_shownUnder.mp hcell).2.1

/-- The running turn enters only through where the cells are shown. -/
theorem displayTurns_running_congr {running' : Option String} (previous : List ShownTurn)
    (route : Option String)
    (h : ∀ cell ∈ overlay, overlayTurnId cell.item recorded running =
      overlayTurnId cell.item recorded running') :
    displayTurns recorded overlay previous route running =
      displayTurns recorded overlay previous route running' := by
  have hunder : ∀ id, shownUnder recorded overlay running id =
      shownUnder recorded overlay running' id := by
    intro id
    unfold shownUnder
    split
    · rfl
    · exact filter_congr fun cell hcell => by rw [h cell hcell]
  have hids : overlayTurnIds recorded overlay running = overlayTurnIds recorded overlay running' := by
    unfold overlayTurnIds
    refine foldl_ext _ _ _ fun ids cell hcell => ?_
    rw [h cell hcell]
  rw [displayTurns_eq, displayTurns_eq, hids]
  simp only [hunder]

/-! ## The rebuild of one turn -/

theorem shownUnder_map {next : OverlayCell}
    (hid : overlayTurnId next.item recorded running = overlayTurnId held.item recorded running)
    (id : String) :
    shownUnder recorded (overlay.map (replaceCell held next)) running id =
      (shownUnder recorded overlay running id).map (replaceCell held next) := by
  have hcell : ∀ cell, overlayTurnId (replaceCell held next cell).item recorded running =
      overlayTurnId cell.item recorded running := by
    intro cell
    unfold replaceCell
    split
    · next h => rw [hid, h]
    · rfl
  unfold shownUnder
  split
  · rfl
  · rw [filter_map]
    congr 1
    exact filter_congr fun cell _ => by simp [hcell]

theorem overlayTurnIds_map {next : OverlayCell}
    (hid : overlayTurnId next.item recorded running = overlayTurnId held.item recorded running) :
    overlayTurnIds recorded (overlay.map (replaceCell held next)) running =
      overlayTurnIds recorded overlay running := by
  unfold overlayTurnIds
  rw [foldl_map]
  refine foldl_ext _ _ _ fun ids cell _ => ?_
  unfold replaceCell
  split
  · next h => rw [hid, h]
  · rfl

/-- Rebuilding a turn shown from scratch shows the edited cells from scratch. -/
theorem displayTurn_rebuild (held next : OverlayCell) (route : Option String)
    {turn : Option TurnModel} {cells : List OverlayCell} (hturn : ∀ t, turn = some t → t.id = id) :
    displayTurn [] route id turn (cells.map (replaceCell held next)) =
      if (displayTurn [] route id turn cells).shows held then
        (displayTurn [] route id turn cells).rebuild held next route
      else displayTurn [] route id turn cells := by
  have hmap : held ∉ cells → cells.map (replaceCell held next) = cells := by
    intro hnot
    refine (map_congr_left fun cell hcell => ?_).trans (map_id cells)
    unfold replaceCell
    rw [if_neg (fun h : cell = held => hnot (h ▸ hcell))]
    rfl
  rcases displayTurn_nil_cases route id turn cells with ⟨t, rfl, rfl, heq⟩ | heq
  · rw [heq]
    simp [ShownTurn.shows, displayTurn]
  · rw [heq]
    by_cases hmem : held ∈ cells
    · have hne : cells ≠ [] := ne_nil_of_mem hmem
      have hid : (buildDisplayTurn id ⟨turn, cells⟩ route).id = id := by
        cases turn with
        | none => rfl
        | some t => exact hturn t rfl
      rw [if_pos (by simpa [ShownTurn.shows] using hmem)]
      simp only [ShownTurn.rebuild, hid]
      rcases displayTurn_nil_cases route id turn (cells.map (replaceCell held next)) with
        ⟨t, -, hnil, -⟩ | heq'
      · exact absurd (map_eq_nil_iff.mp hnil) hne
      · exact heq'
    · rw [if_neg (by simpa [ShownTurn.shows] using hmem), hmap hmem, heq]

/-- The derivation of the edited overlay rebuilds exactly the turns that show the cell. -/
theorem displayTurns_replaceCell {next : OverlayCell} (route : Option String)
    (hid : overlayTurnId next.item recorded running = overlayTurnId held.item recorded running) :
    displayTurns recorded (overlay.map (replaceCell held next)) [] route running =
      (displayTurns recorded overlay [] route running).map fun shown =>
        if shown.shows held then shown.rebuild held next route else shown := by
  rw [displayTurns_eq, displayTurns_eq, overlayTurnIds_map hid, map_append, map_map,
    map_map]
  congr 1
  · refine map_congr_left fun turn _ => ?_
    rw [shownUnder_map hid, displayTurn_rebuild held next route fun t ht => by cases ht; rfl]
    rfl
  · refine map_congr_left fun id _ => ?_
    rw [shownUnder_map hid, displayTurn_rebuild held next route fun t ht => by cases ht]
    rfl

/-- The id of a turn that shows a cell is the cell's display turn. -/
theorem id_of_shows {cell : OverlayCell}
    (h : shown ∈ displayTurns recorded overlay [] route running) (hshows : shown.shows cell) :
    shown.turn.id = overlayTurnId cell.item recorded running := by
  obtain ⟨id, turn, rfl, hturn⟩ := mem_displayTurns h
  rcases displayTurn_nil_cases route id turn (shownUnder recorded overlay running id) with
    ⟨t, -, -, heq⟩ | heq
  · rw [heq] at hshows
    cases hshows
  · rw [heq] at hshows ⊢
    have hmem : cell ∈ shownUnder recorded overlay running id := by
      simpa [ShownTurn.shows] using hshows
    rw [(mem_shownUnder.mp hmem).2.2]
    rcases hturn with ⟨t, -, rfl, htid⟩ | ⟨rfl, -, -⟩
    · exact htid
    · rfl

/-- No two shown turns have one id. -/
theorem displayTurns_ids_nodup (h : KeysNodup turnKey recorded) (route : Option String) :
    ((displayTurns recorded overlay [] route running).map (·.turn.id)).Nodup := by
  have hshown : ∀ (id : String) (turn : Option TurnModel) (cells : List OverlayCell),
      (∀ t, turn = some t → t.id = id) → (displayTurn [] route id turn cells).turn.id = id := by
    intro id turn cells hturn
    rcases displayTurn_nil_cases route id turn cells with ⟨t, rfl, -, heq⟩ | heq
    · rw [heq]
      exact hturn t rfl
    · rw [heq]
      cases turn with
      | none => rfl
      | some t => exact hturn t rfl
  have hnodup : (overlayTurnIds recorded overlay running).Nodup := by
    unfold overlayTurnIds
    refine List.foldlRecOn (motive := List.Nodup) _ _ nodup_nil fun ids hids cell _ => ?_
    dsimp only
    split
    · exact hids
    · next hnew =>
      refine nodup_append.mpr ⟨hids, nodup_singleton _, fun a ha b hb hab => hnew ?_⟩
      rw [mem_singleton.mp hb] at hab
      exact Or.inr (hab ▸ ha)
  rw [displayTurns_eq, map_append, map_map, map_map]
  refine nodup_append.mpr ⟨?_, ?_, ?_⟩
  · have : recorded.map ((fun shown : ShownTurn => shown.turn.id) ∘ fun turn =>
        displayTurn [] route turn.id (some turn) (shownUnder recorded overlay running turn.id)) =
        recorded.map turnKey :=
      map_congr_left fun t _ => hshown _ _ _ fun t' ht' => by cases ht'; rfl
    rw [this]
    exact h
  · have : ((overlayTurnIds recorded overlay running).filter fun id =>
        id ∉ recorded.map (·.id)).map ((fun shown : ShownTurn => shown.turn.id) ∘ fun id =>
          displayTurn [] route id none (shownUnder recorded overlay running id)) =
        (overlayTurnIds recorded overlay running).filter fun id => id ∉ recorded.map (·.id) :=
      (map_congr_left fun id _ => hshown _ _ _ fun t' ht' => by cases ht').trans (map_id _)
    rw [this]
    exact hnodup.filter _
  · intro a ha b hb hab
    obtain ⟨t, ht, rfl⟩ := mem_map.mp ha
    obtain ⟨id, hid, rfl⟩ := mem_map.mp hb
    have hnot := (mem_filter.mp hid).2
    simp only [Function.comp_apply] at hab
    rw [hshown t.id (some t) _ fun t' ht' => by cases ht'; rfl,
      hshown id none _ fun t' ht' => by cases ht'] at hab
    simp only [decide_eq_true_eq] at hnot
    exact hnot (mem_map.mpr ⟨t, ht, hab⟩)

theorem rebuildShowing_eq_map {next : OverlayCell} {l : List ShownTurn}
    (hnodup : (l.map (·.turn.id)).Nodup) (hid : ∀ shown ∈ l, shown.shows held → shown.turn.id = id)
    {l' : List ShownTurn} (h : rebuildShowing held next route l = some l') :
    l' = l.map fun shown => if shown.shows held then shown.rebuild held next route else shown := by
  induction l generalizing l' with
  | nil => cases h
  | cons shown rest ih =>
    rw [map_cons, nodup_cons] at hnodup
    unfold rebuildShowing at h
    by_cases hs : shown.shows held = true
    · rw [if_pos hs] at h
      cases h
      rw [map_cons, if_pos hs]
      congr 1
      refine ((map_congr_left fun other hother => ?_).trans (map_id rest)).symm
      -- another turn showing the cell would have the same id
      have hnot : ¬ other.shows held = true := by
        intro hshows
        have heq := (hid other (mem_cons_of_mem _ hother) hshows).trans
          (hid shown mem_cons_self hs).symm
        exact hnodup.1 (mem_map.mpr ⟨other, hother, heq⟩)
      rw [if_neg hnot]
      rfl
    · rw [if_neg hs] at h
      obtain ⟨rest', hrest, rfl⟩ := Option.map_eq_some_iff.mp h
      rw [map_cons, if_neg hs,
        ih hnodup.2 (fun s hs' => hid s (mem_cons_of_mem _ hs')) hrest]

/-- Rebuilding the one turn that shows a cell is the derivation of the edited overlay. -/
theorem displayTurns_delta (h : KeysNodup turnKey recorded) {next : OverlayCell}
    (hid : overlayTurnId next.item recorded running = overlayTurnId held.item recorded running)
    {turns : List ShownTurn}
    (hrebuild : rebuildShowing held next route (displayTurns recorded overlay [] route running) = some turns) :
    turns = displayTurns recorded (overlay.map (replaceCell held next)) [] route running := by
  rw [displayTurns_replaceCell route hid]
  exact rebuildShowing_eq_map (displayTurns_ids_nodup h route)
    (fun shown hshown hs => id_of_shows hshown hs) hrebuild

end Derivation

end Evener.Transcript
