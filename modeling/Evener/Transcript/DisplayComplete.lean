/-
  Nothing is lost or doubled in the display: over the turns, every recorded item and every overlay
  item that the prune keeps is shown once.

  A turn id `""` is the mark for "not shown", so a recorded turn of that id loses the overlay
  items placed in it (`nameless_turn_hides_tool`).
-/
import Evener.Transcript.DisplayEntries

namespace Evener.Transcript

open Evener.Lib
open List hiding lookup

variable {o : OverlayItem} {cell : OverlayCell} {cells : List OverlayCell} {turns : List TurnModel}
  {turn : TurnModel} {previous : List ShownTurn}

/-! ## The shown turns -/

/-- Every shown turn that has a source was built from it. -/
def Sourced (shown : List ShownTurn) : Prop := ∀ s ∈ shown, ∃ route, s.Built route

/-- A shown turn is its recorded turn, or built from the cells it shows. -/
theorem displayTurn_cases (hprevious : Sourced previous) (route : Option String) (id : String)
    (recorded : Option TurnModel) (cells : List OverlayCell) :
    (∃ turn, recorded = some turn ∧ cells = [] ∧
      displayTurn previous route id recorded cells = ⟨turn, none⟩) ∨
    ∃ route', displayTurn previous route id recorded cells =
      ⟨buildDisplayTurn id ⟨recorded, cells⟩ route', some ⟨recorded, cells⟩⟩ := by
  unfold displayTurn
  split
  · next turn => exact Or.inl ⟨turn, rfl, rfl, rfl⟩
  · dsimp only
    split
    · next prior hprior =>
      split
      · next hsource =>
        unfold priorTurn at hprior
        have hmem : prior ∈ previous := mem_reverse.mp (mem_of_find?_eq_some hprior)
        have hid : prior.turn.id = id := by simpa using find?_some hprior
        obtain ⟨route', hbuilt⟩ := hprevious prior hmem
        refine Or.inr ⟨route', ?_⟩
        have hturn := hbuilt _ hsource
        rw [hid] at hturn
        cases prior
        simp only at hturn hsource
        rw [hturn, hsource]
      · exact Or.inr ⟨route, rfl⟩
    · exact Or.inr ⟨route, rfl⟩

theorem displayTurn_id (hprevious : Sourced previous) (route : Option String) {id : String}
    {recorded : Option TurnModel} (cells : List OverlayCell)
    (hid : ∀ turn, recorded = some turn → turn.id = id) :
    (displayTurn previous route id recorded cells).turn.id = id := by
  rcases displayTurn_cases hprevious route id recorded cells with
    ⟨turn, hturn, -, heq⟩ | ⟨route', heq⟩
  · rw [heq]
    exact hid turn hturn
  · rw [heq]
    cases recorded with
    | none => rfl
    | some turn => exact hid turn rfl

theorem displayTurn_some_id (hprevious : Sourced previous) (route : Option String)
    (turn : TurnModel) (cells : List OverlayCell) :
    (displayTurn previous route turn.id (some turn) cells).turn.id = turn.id :=
  displayTurn_id hprevious route cells fun _ h => by cases h; rfl

theorem displayTurn_none_id (hprevious : Sourced previous) (route : Option String) (id : String)
    (cells : List OverlayCell) : (displayTurn previous route id none cells).turn.id = id :=
  displayTurn_id hprevious route cells fun _ h => by cases h

theorem displayTurn_entries (hprevious : Sourced previous) (route : Option String) (id : String)
    {recorded : Option TurnModel} (hrecorded : ∀ turn, recorded = some turn → turn ∈ turns)
    (hitems : (((recorded.map (·.items)).getD []).map itemIdentity).Nodup)
    (hopen : ∀ cell ∈ cells, covered turns cell.item = false) (hkeys : DistinctHistoryKeys cells)
    (hnodup : cells.Nodup) :
    ∃ entries, ShownAs (displayTurn previous route id recorded cells).turn
        ((recorded.map (·.items)).getD []) entries ∧
      (entries.filterMap Entry.overlay).Perm cells := by
  rcases displayTurn_cases hprevious route id recorded cells with
    ⟨turn, rfl, rfl, heq⟩ | ⟨route', heq⟩
  · refine ⟨turn.items.map (Entry.row · none), ⟨⟨route, ?_⟩, filterMap_recorded_rows _, ?_⟩, ?_⟩
    · rw [heq]
      exact (map_render_rows _ _).symm
    · intro item cell hmem
      obtain ⟨i, -, heq⟩ := mem_map.mp hmem
      cases heq
    · rw [filterMap_overlay_rows]
  · rw [heq]
    exact buildDisplayTurn_entries id route' hrecorded hitems hopen hkeys hnodup

/-! ## Sources in every state -/

theorem displayTurn_sourced (hprevious : Sourced previous) (route : Option String) {id : String}
    {recorded : Option TurnModel} (cells : List OverlayCell)
    (hid : ∀ turn, recorded = some turn → turn.id = id) :
    ∃ route', (displayTurn previous route id recorded cells).Built route' := by
  rcases displayTurn_cases hprevious route id recorded cells with ⟨turn, -, -, heq⟩ | ⟨route', heq⟩
  · rw [heq]
    exact ⟨route, fun source hsource => by cases hsource⟩
  · have hturn := displayTurn_id hprevious route cells hid
    rw [heq] at hturn ⊢
    refine ⟨route', fun source hsource => ?_⟩
    cases hsource
    rw [hturn]

theorem withDisplay_sourced {model : ThreadModel} (h : Sourced model.turns) (history : HistoryState)
    (overlay : List OverlayCell) : Sourced (withDisplay model history overlay).turns := by
  unfold withDisplay
  dsimp only
  rw [displayTurns_eq]
  intro s hs
  rcases mem_append.mp hs with hs | hs <;> obtain ⟨t, -, rfl⟩ := mem_map.mp hs
  · exact displayTurn_sourced h _ _ fun _ ht => by cases ht; rfl
  · exact displayTurn_sourced h _ _ fun _ ht => by cases ht

theorem sourced_recorded (turns : List TurnModel) : Sourced (turns.map (⟨·, none⟩)) := by
  intro s hs
  obtain ⟨turn, -, rfl⟩ := mem_map.mp hs
  exact ⟨none, fun source hsource => by cases hsource⟩

theorem buildDisplayTurn_id (id : String) (source : DisplayTurnSource) (route : Option String) :
    (buildDisplayTurn id source route).id = (source.recorded.map (·.id)).getD id := by
  unfold buildDisplayTurn
  cases source.recorded <;> rfl

theorem rebuildShowing_sourced {held next : OverlayCell} {route : Option String}
    {shown shown' : List ShownTurn} (h : Sourced shown)
    (hrebuild : rebuildShowing held next route shown = some shown') : Sourced shown' := by
  induction shown generalizing shown' with
  | nil => cases hrebuild
  | cons s rest ih =>
    obtain ⟨hs, hrest⟩ := forall_mem_cons.mp h
    unfold rebuildShowing at hrebuild
    split at hrebuild
    · cases hrebuild
      refine forall_mem_cons.mpr ⟨?_, hrest⟩
      obtain ⟨route', hbuilt⟩ := hs
      unfold ShownTurn.rebuild
      split
      · next source hsource =>
        refine ⟨route, fun source' hsource' => ?_⟩
        cases hsource'
        -- the rebuilt turn keeps the id of the one it replaces
        have hid := congrArg (·.id) (hbuilt source hsource)
        rw [buildDisplayTurn_id, ← buildDisplayTurn_id s.turn.id source route', ← hid]
      · exact ⟨route', hbuilt⟩
    · obtain ⟨rest', hrest', rfl⟩ := Option.map_eq_some_iff.mp hrebuild
      exact forall_mem_cons.mpr ⟨hs, ih hrest hrest'⟩

theorem mergeVersionedPage_sourced {model : ThreadModel} (h : Sourced model.turns)
    (held : HistoryState) (resp : ThreadTurnsListResponse) (takeCursor : Bool) :
    Sourced (mergeVersionedPage model held resp takeCursor).turns := by
  unfold mergeVersionedPage
  split
  · exact h
  · exact h
  · exact h
  · refine withDisplay_sourced ?_ _ _
    cases takeCursor <;> exact h

theorem mergeDeferredPages_sourced {model : ThreadModel} (h : Sourced model.turns)
    (incarnation : Option String) (pages : List ThreadTurnsListResponse) :
    Sourced (mergeDeferredPages incarnation model pages).turns := by
  unfold mergeDeferredPages
  refine List.foldlRecOn (motive := fun next : ThreadModel => Sourced next.turns) _ _ h ?_
  intro next hnext page _
  split
  · exact mergeVersionedPage_sourced hnext _ _ _
  · exact hnext

theorem applyNotificationToThread_sourced {model : ThreadModel} (h : Sourced model.turns)
    (frame : Nat) (n : AnyNotification) (now : Nat) :
    Sourced (applyNotificationToThread frame model n now).turns := by
  have hlive : ∀ history overlay,
      Sourced (withDisplay { model with lastFrameAt := now } history overlay).turns :=
    @withDisplay_sourced { model with lastFrameAt := now } h
  have hchange : ∀ change, Sourced (applyOverlayChange model now change).turns := by
    intro change
    unfold applyOverlayChange
    split
    · exact hlive _ _
    · exact h
  unfold applyNotificationToThread
  split
  · cases n with
    | historyUpdated params =>
      dsimp only [applyHistoryUpdated]
      repeat' split
      all_goals first | exact h | exact hlive _ _
    | threadResync params =>
      dsimp only [applyResync]
      repeat' split
      all_goals exact h
    | overlayUpserted ref item => exact hchange _
    | overlayDelta params =>
      dsimp only [applyOverlayDelta]
      split
      · split
        · next hrebuild => exact rebuildShowing_sourced h hrebuild
        · exact hlive _ _
      · exact h
    | overlayReset ref streamId => exact hchange _
    | overlayEnd ref roundId => exact hchange _
    | threadStatusChanged params => exact h
  · exact h

theorem step_sourced (U : UnversionedMerge) {c : Client} (h : Sourced c.model.turns)
    (op : ClientOp × Nat) : Sourced (c.step U op).model.turns := by
  obtain ⟨op, now⟩ := op
  unfold Client.step
  cases op with
  | issueLatestWindowRead => exact h
  | invalidateHistory => exact h
  | applyHistoryReadFailure diagnostic generation =>
    dsimp only [applyOp, applyHistoryReadFailure]
    split <;> exact h
  | notify n =>
    have hnext := applyNotificationToThread_sourced h c.frame n now
    dsimp only [applyOp, applyNotification]
    split <;> exact hnext
  | applyReadResponse resp frontier =>
    dsimp only [applyOp, applyReadResponse]
    split
    · exact h
    · refine mergeDeferredPages_sourced (withDisplay_sourced ?_ _ _) _ _
      exact h
  | mergeOlderItemPage resp =>
    dsimp only [applyOp, mergeOlderItemPage]
    split
    · exact mergeVersionedPage_sourced h _ _ _
    · exact sourced_recorded _

theorem run_sourced (U : UnversionedMerge) {c : Client} (h : Sourced c.model.turns)
    (ops : List (ClientOp × Nat)) : Sourced (c.run U ops).model.turns := by
  induction ops generalizing c with
  | nil => exact h
  | cons op ops ih => exact ih (step_sourced U h op)

/-- What a thread model may show before a derivation: nothing yet, or the turns of a client that
    was hydrated from a read and has run on. -/
def ShownBefore (U : UnversionedMerge) (shown : List ShownTurn) : Prop :=
  shown = [] ∨ ∃ frame resp ref now frontier ops,
    shown = ((Client.hydrate U frame resp ref now frontier).run U ops).model.turns

theorem ShownBefore.sourced {U : UnversionedMerge} {shown : List ShownTurn}
    (h : ShownBefore U shown) : Sourced shown := by
  have hnil : Sourced [] := fun s hs => nomatch hs
  rcases h with rfl | ⟨frame, resp, ref, now, frontier, ops, rfl⟩
  · exact hnil
  · refine run_sourced U ?_ ops
    unfold Client.hydrate hydrateThread
    split
    · exact sourced_recorded _
    · exact withDisplay_sourced hnil _ _

/-! ## Where nothing is shown -/

/-- The overlay item names no turn, and none is running. -/
def NamesNoTurn (running : Option String) (o : OverlayItem) : Prop :=
  truthyString o.turnId = none ∧ truthyString o.item.turnId = none ∧ truthyString running = none

theorem truthyString_getD_eq_empty {s : Option String} (h : (truthyString s).getD "" = "") :
    truthyString s = none := by
  cases hs : truthyString s with
  | none => rfl
  | some t =>
    rw [hs] at h
    have hne := (Option.filter_eq_some_iff.mp hs).2
    exact absurd h (by simpa using hne)

theorem fallback_eq_empty {running : Option String}
    (h : (((truthyString o.turnId).or (truthyString o.item.turnId)).or (truthyString running)).getD "" = "") :
    NamesNoTurn running o := by
  have hfirst := fun s : Option String => @truthyString_getD_eq_empty s
  unfold NamesNoTurn
  cases h1 : truthyString o.turnId with
  | some t => simpa [h1] using hfirst o.turnId (by simpa [h1] using h)
  | none =>
    cases h2 : truthyString o.item.turnId with
    | some t => simpa [h2] using hfirst o.item.turnId (by simpa [h1, h2] using h)
    | none => exact ⟨rfl, rfl, hfirst running (by simpa [h1, h2] using h)⟩

theorem mem_of_toolHistoryTurn (h : toolHistoryTurn o turns = some turn) : turn ∈ turns := by
  unfold toolHistoryTurn at h
  dsimp only at h
  split at h
  · next hinted hfound =>
    split at h
    · cases h
      exact mem_of_find?_eq_some hfound
    · exact mem_of_find?_eq_some h
  · exact mem_of_find?_eq_some h

theorem mem_of_noticeHistoryTurn {anchor : ThreadItemPosition}
    (h : noticeHistoryTurn anchor turns = some turn) : turn ∈ turns := by
  unfold noticeHistoryTurn at h
  obtain ⟨found, hfound, rfl⟩ := Option.map_eq_some_iff.mp h
  clear h
  revert found
  refine List.foldlRecOn (motive := fun held : Option (TurnModel × ThreadItemPosition) =>
    ∀ found, held = some found → found.1 ∈ turns) _ _ (by simp) ?_
  intro held hheld turn hturn found hfound
  dsimp only at hfound
  split at hfound
  · cases hfound
    exact hturn
  · split at hfound
    · cases hfound
      exact hturn
    · exact hheld found hfound
  · exact hheld found hfound

/-- With no recorded turn of id `""`, only an item that names no turn is not shown. -/
theorem namesNoTurn_of_hidden (hids : ∀ turn ∈ turns, turn.id ≠ "") {running : Option String}
    (h : overlayTurnId o turns running = "") : NamesNoTurn running o := by
  unfold overlayTurnId at h
  split at h
  · cases hturn : toolHistoryTurn o turns with
    | none =>
      rw [hturn] at h
      exact fallback_eq_empty h
    | some turn =>
      rw [hturn] at h
      exact absurd h (hids turn (mem_of_toolHistoryTurn hturn))
  · rename_i anchor _ _
    cases hturn : (noticeHistoryTurn anchor turns).or turns.head? with
    | none =>
      rw [hturn] at h
      simp only [Option.map_none, Option.getD_none] at h
      split at h
      · exact absurd h (by decide)
      · next hne => exact absurd h hne
    | some turn =>
      rw [hturn] at h
      refine absurd h (hids turn ?_)
      rcases Option.or_eq_some_iff.mp hturn with hnotice | ⟨-, hhead⟩
      · exact mem_of_noticeHistoryTurn hnotice
      · exact mem_of_head? hhead
  · exact fallback_eq_empty h

/-! ## Every row once -/

/-- The overlay items shown. -/
def shownOverlay (shown : List ShownTurn) (entriesOf : ShownTurn → List Entry) :
    List OverlayCell :=
  (shown.flatMap entriesOf).filterMap Entry.overlay

/-- The shown turns read as entries: the recorded turns first and in order, each with its
    recorded items, and every overlay item history does not cover once. -/
structure DisplayComplete (turns : List TurnModel) (overlay : List OverlayCell)
    (running : Option String) (shown : List ShownTurn) (entriesOf : ShownTurn → List Entry) :
    Prop where
  ids : (shown.map (·.turn.id)).Nodup
  order : turns.map (·.id) <+: shown.map (·.turn.id)
  recorded : ∀ turn ∈ turns, ∀ s ∈ shown, s.turn.id = turn.id →
    ShownAs s.turn turn.items (entriesOf s)
  placeholder : ∀ s ∈ shown, s.turn.id ∉ turns.map (·.id) → ShownAs s.turn [] (entriesOf s)
  once : (shownOverlay shown entriesOf).Nodup
  kept : ∀ cell ∈ pruneCoveredOverlay turns overlay,
    cell ∈ shownOverlay shown entriesOf ∨ NamesNoTurn running cell.item
  uncovered : ∀ cell ∈ shownOverlay shown entriesOf,
    cell ∈ overlay ∧ covered turns cell.item = false

theorem mem_pruneCoveredOverlay {overlay : List OverlayCell} :
    cell ∈ pruneCoveredOverlay turns overlay ↔ cell ∈ overlay ∧ covered turns cell.item = false := by
  have hfilter : cell ∈ overlay.filter (fun cell => !covered turns cell.item) ↔
      cell ∈ overlay ∧ covered turns cell.item = false := by simp
  unfold pruneCoveredOverlay filterOverlay
  dsimp only
  split
  · next hlen =>
    -- a filter of the same length is the list
    rw [Option.getD_none, ← hfilter, filter_sublist.eq_of_length hlen]
  · exact hfilter

/-- A shown turn, as the turn of its id. -/
theorem displayTurns_at {recorded : List TurnModel} {overlay : List OverlayCell}
    (hprevious : Sourced previous) (route running : Option String) {s : ShownTurn}
    (h : s ∈ displayTurns recorded overlay previous route running) :
    ∃ turn, s = displayTurn previous route s.turn.id turn
        (shownUnder recorded overlay running s.turn.id) ∧
      ((∃ t ∈ recorded, turn = some t ∧ t.id = s.turn.id) ∨
        (turn = none ∧ s.turn.id ∉ recorded.map (·.id))) := by
  rw [displayTurns_eq] at h
  rcases mem_append.mp h with h | h
  · obtain ⟨t, ht, rfl⟩ := mem_map.mp h
    have hid := displayTurn_some_id hprevious route t (shownUnder recorded overlay running t.id)
    refine ⟨some t, ?_, Or.inl ⟨t, ht, rfl, hid.symm⟩⟩
    rw [hid]
  · obtain ⟨id, hid', rfl⟩ := mem_map.mp h
    have hid := displayTurn_none_id hprevious route id (shownUnder recorded overlay running id)
    refine ⟨none, ?_, Or.inr ⟨rfl, ?_⟩⟩
    · rw [hid]
    · rw [hid]
      simpa using (mem_filter.mp hid').2

theorem displayTurns_ids {recorded : List TurnModel} {overlay : List OverlayCell}
    (hprevious : Sourced previous) (route running : Option String) :
    (displayTurns recorded overlay previous route running).map (·.turn.id) =
      (displayTurns recorded overlay [] route running).map (·.turn.id) := by
  have hnone : Sourced [] := fun s hs => nomatch hs
  have hsame : ∀ (id : String) (turn : Option TurnModel) (cells : List OverlayCell),
      (∀ t, turn = some t → t.id = id) →
      (displayTurn previous route id turn cells).turn.id =
        (displayTurn [] route id turn cells).turn.id := fun id turn cells hid =>
    (displayTurn_id hprevious route cells hid).trans (displayTurn_id hnone route cells hid).symm
  rw [displayTurns_eq, displayTurns_eq, map_append, map_append, map_map,
    map_map, map_map, map_map]
  congr 1
  · exact map_congr_left fun t _ => hsame t.id (some t) _ fun t' ht' => by cases ht'; rfl
  · exact map_congr_left fun id _ => hsame id none _ fun t' ht' => by cases ht'

theorem displayTurns_order {recorded : List TurnModel} {overlay : List OverlayCell}
    (hprevious : Sourced previous) (route running : Option String) :
    recorded.map (·.id) <+:
      (displayTurns recorded overlay previous route running).map (·.turn.id) := by
  rw [displayTurns_eq, map_append, map_map]
  refine ⟨_, congrArg₂ (· ++ ·) (map_congr_left fun t _ => ?_) rfl⟩
  exact (displayTurn_some_id hprevious route t _).symm

/-- A cell with a display turn is shown in a turn of that id. -/
theorem exists_turn_of_cell {recorded : List TurnModel} {overlay : List OverlayCell}
    (hprevious : Sourced previous) (route running : Option String) (hcell : cell ∈ overlay)
    (hid : overlayTurnId cell.item recorded running ≠ "") :
    overlayTurnId cell.item recorded running ∈
      (displayTurns recorded overlay previous route running).map (·.turn.id) := by
  by_cases hheld : overlayTurnId cell.item recorded running ∈ recorded.map (·.id)
  · exact (displayTurns_order hprevious route running).subset hheld
  · rw [displayTurns_eq, map_append]
    have hmem : overlayTurnId cell.item recorded running ∈
        (overlayTurnIds recorded overlay running).filter fun id => id ∉ recorded.map (·.id) :=
      mem_filter.mpr ⟨mem_overlayTurnIds.mpr ⟨hid, cell, hcell, rfl⟩, by simpa using hheld⟩
    refine mem_append_right _ (mem_map.mpr ⟨_, mem_map_of_mem hmem, ?_⟩)
    exact displayTurn_none_id hprevious route _ _

/-- Deriving the display loses and doubles nothing: every recorded item is shown once, in its own
    turn and in order; every overlay item the prune keeps is shown once, unless it names no turn
    and none is running; and none that history covers is shown. -/
theorem withDisplay_complete (model : ThreadModel) (history : HistoryState)
    (overlay : List OverlayCell) (hids : KeysNodup turnKey history.turns)
    (hnamed : ∀ turn ∈ history.turns, turn.id ≠ "")
    (hitems : ((history.turns.flatMap (·.items)).map itemIdentity).Nodup)
    (hoverlay : KeysNodup cellKey overlay) (hkeys : DistinctHistoryKeys overlay)
    (U : UnversionedMerge) (hbefore : ShownBefore U model.turns) :
    ∃ entriesOf, DisplayComplete history.turns overlay model.runningTurnId
      (withDisplay model history overlay).turns entriesOf := by
  have hsourced := hbefore.sourced
  have hsub := pruneCoveredOverlay_sublist history.turns overlay
  have hnodup : (pruneCoveredOverlay history.turns overlay).Nodup :=
    (hoverlay.sublist hsub).of_map
  have hshown : (withDisplay model history overlay).turns =
      displayTurns history.turns (pruneCoveredOverlay history.turns overlay) model.turns
        (modelImageSessionRoute model) model.runningTurnId := rfl
  generalize hkept : pruneCoveredOverlay history.turns overlay = kept at hsub hnodup hshown
  generalize modelImageSessionRoute model = route at hshown
  generalize model.runningTurnId = running at hshown ⊢
  rw [hshown]
  have hopen : ∀ cell ∈ kept, cell ∈ overlay ∧ covered history.turns cell.item = false := by
    intro cell hcell
    rw [← hkept] at hcell
    exact mem_pruneCoveredOverlay.mp hcell
  have hunder : ∀ id, shownUnder history.turns kept running id ⊆ kept :=
    fun id cell hcell => (mem_shownUnder.mp hcell).2.1
  have hundernodup : ∀ id, (shownUnder history.turns kept running id).Nodup := by
    intro id
    unfold shownUnder
    split
    · exact nodup_nil
    · exact hnodup.filter _
  have hturnitems : ∀ turn ∈ history.turns, (turn.items.map itemIdentity).Nodup := by
    rw [map_flatMap] at hitems
    exact (nodup_flatMap.mp hitems).1
  have hread : ∀ s ∈ displayTurns history.turns kept model.turns route running, ∃ entries,
      (∀ turn ∈ history.turns, s.turn.id = turn.id → ShownAs s.turn turn.items entries) ∧
      (s.turn.id ∉ history.turns.map (·.id) → ShownAs s.turn [] entries) ∧
      (entries.filterMap Entry.overlay).Perm (shownUnder history.turns kept running s.turn.id) := by
    intro s hs
    obtain ⟨turn, heq, hturn⟩ := displayTurns_at hsourced route running hs
    have hof : ∀ t, turn = some t → t ∈ history.turns := by
      rintro t rfl
      rcases hturn with ⟨t', ht', hsome, -⟩ | ⟨hnone, -⟩
      · cases hsome
        exact ht'
      · cases hnone
    have hrows : (((turn.map (·.items)).getD []).map itemIdentity).Nodup := by
      cases turn with
      | none => exact nodup_nil
      | some t => exact hturnitems t (hof t rfl)
    obtain ⟨entries, hentries, hcells⟩ := displayTurn_entries hsourced route s.turn.id hof hrows
      (fun cell hcell => (hopen cell (hunder s.turn.id hcell)).2)
      (hkeys.subset fun cell hcell => (hopen cell (hunder s.turn.id hcell)).1)
      (hundernodup s.turn.id)
    rw [← heq] at hentries
    refine ⟨entries, fun t ht hid => ?_, fun hnone => ?_, hcells⟩
    · rcases hturn with ⟨t', ht', rfl, hid'⟩ | ⟨-, hnot⟩
      · rw [hids.eq_of_key ht ht' (hid.symm.trans hid'.symm)]
        exact hentries
      · exact absurd (mem_map.mpr ⟨t, ht, hid.symm⟩) hnot
    · rcases hturn with ⟨t', ht', -, hid'⟩ | ⟨rfl, -⟩
      · exact absurd (mem_map.mpr ⟨t', ht', hid'⟩) hnone
      · exact hentries
  choose! entriesOf hrecorded hplaceholder hcells using hread
  have hidnodup : ((displayTurns history.turns kept model.turns route running).map
      (·.turn.id)).Nodup := by
    rw [displayTurns_ids hsourced]
    exact displayTurns_ids_nodup hids route
  have hmem : ∀ cell, cell ∈ shownOverlay
      (displayTurns history.turns kept model.turns route running) entriesOf ↔
      ∃ s ∈ displayTurns history.turns kept model.turns route running,
        cell ∈ shownUnder history.turns kept running s.turn.id := by
    intro cell
    unfold shownOverlay
    rw [filterMap_flatMap, mem_flatMap]
    exact exists_congr fun s => and_congr_right fun hs => (hcells s hs).mem_iff
  refine ⟨entriesOf, hidnodup, displayTurns_order hsourced route running, ?_, hplaceholder, ?_,
    ?_, ?_⟩
  · exact fun turn hturn s hs hid => hrecorded s hs turn hturn hid
  · unfold shownOverlay
    rw [filterMap_flatMap]
    refine nodup_flatMap.mpr ⟨fun s hs => (hcells s hs).nodup_iff.mpr (hundernodup _), ?_⟩
    refine List.Pairwise.imp_of_mem (fun {s s'} hs hs' hne cell hcell hcell' => hne ?_)
      (pairwise_map.mp hidnodup)
    have hid := (mem_shownUnder.mp ((hcells s hs).mem_iff.mp hcell)).2.2
    exact hid.symm.trans (mem_shownUnder.mp ((hcells s' hs').mem_iff.mp hcell')).2.2
  · intro cell hcell
    rw [hkept] at hcell
    by_cases hid : overlayTurnId cell.item history.turns running = ""
    · exact Or.inr (namesNoTurn_of_hidden hnamed hid)
    · obtain ⟨s, hs, hsid⟩ := mem_map.mp
        (exists_turn_of_cell hsourced route running hcell hid)
      refine Or.inl ((hmem cell).mpr ⟨s, hs, mem_shownUnder.mpr ⟨?_, hcell, hsid.symm⟩⟩)
      rw [hsid]
      exact hid
  · intro cell hcell
    obtain ⟨s, -, hs⟩ := (hmem cell).mp hcell
    exact hopen cell (hunder _ hs)

/-- A turn with a running tool, a tool, a stream and a notice over it. -/
def runningTool : ItemModel where
  id := "i1"
  turnId := "t1"
  type := "commandExecution"
  text := ""
  transcriptKey := some "k1"
  status := some "inProgress"

def toolOverlay : OverlayItem where
  key := "tool:k1"
  kind := .tool
  turnId := some "t1"
  historyKey := some "k1"
  item := { type := "commandExecution", id := "i1", output := some "...", status := some "inProgress" }

def streamOverlay : OverlayItem where
  key := "stream:x"
  kind := .stream
  turnId := some "t2"
  item := { type := "agentMessage", id := "stream:x", text := some "hi", status := some "inProgress" }

def noticeOverlay : OverlayItem where
  key := "notice:n"
  kind := .notice
  anchor := some { entry := 1, item := 0 }
  item := { type := "notice", id := "n" }

def bareModel : ThreadModel where
  ref := "r"
  threadId := "th"
  imageSessionId := none
  status := "active"
  activeTurnStartedAt := none
  failedToolCalls := none
  askPending := false
  capabilities := none
  capabilitySource := ""
  artifactsDir := none
  scratchDir := none
  lastFrameAt := 0
  turns := []

/-- The history of one turn that holds the running tool. -/
def toolHistory (turnId : String) : HistoryState :=
  { emptyHistory with turns := [{ id := turnId, status := "inProgress", items := [runningTool] }] }

/-- A tool, a stream and a notice over a turn; and the turn that a read showed with a stream, shown
    again by another derivation. -/
theorem withDisplay_complete_tool :
    (∃ entriesOf, DisplayComplete (toolHistory "t1").turns
      [⟨0, toolOverlay⟩, ⟨0, streamOverlay⟩, ⟨0, noticeOverlay⟩] none
      (withDisplay bareModel (toolHistory "t1")
        [⟨0, toolOverlay⟩, ⟨0, streamOverlay⟩, ⟨0, noticeOverlay⟩]).turns entriesOf) ∧
    let model := (Client.hydrate plainMerge 0 streamingRead "r" 0 "none").model
    (priorTurn model.turns "t1").bind (·.source) =
        some ⟨(historyOf model).turns.head?, overlayOf model⟩ ∧
      ∃ entriesOf, DisplayComplete (historyOf model).turns (overlayOf model) (some "t1")
        (withDisplay model (historyOf model) (overlayOf model)).turns entriesOf := by
  refine ⟨?_, by decide, ?_⟩
  · exact withDisplay_complete bareModel (toolHistory "t1") _ (by unfold KeysNodup; decide)
      (by decide) (by decide) (by unfold KeysNodup; decide)
      (by unfold DistinctHistoryKeys; decide) plainMerge (Or.inl rfl)
  · exact withDisplay_complete (Client.hydrate plainMerge 0 streamingRead "r" 0 "none").model
      (historyOf (Client.hydrate plainMerge 0 streamingRead "r" 0 "none").model) _
      (by unfold KeysNodup; decide) (by decide) (by decide) (by unfold KeysNodup; decide)
      (by unfold DistinctHistoryKeys; decide) plainMerge
      (Or.inr ⟨0, streamingRead, "r", 0, "none", [], rfl⟩)

/-- A recorded turn of id `""` holds the running tool: the tool names the turn `t1` and is not
    covered, and is not shown. -/
theorem nameless_turn_hides_tool :
    KeysNodup turnKey (toolHistory "").turns ∧
    (((toolHistory "").turns.flatMap (·.items)).map itemIdentity).Nodup ∧
    KeysNodup cellKey [⟨0, toolOverlay⟩] ∧ DistinctHistoryKeys [⟨0, toolOverlay⟩] ∧
    ShownBefore plainMerge bareModel.turns ∧
    ¬ ∃ entriesOf, DisplayComplete (toolHistory "").turns [⟨0, toolOverlay⟩] none
      (withDisplay bareModel (toolHistory "") [⟨0, toolOverlay⟩]).turns entriesOf := by
  refine ⟨by unfold KeysNodup; decide, by decide, by unfold KeysNodup; decide,
    by unfold DistinctHistoryKeys; decide, Or.inl rfl, ?_⟩
  rintro ⟨entriesOf, h⟩
  have hshown : (withDisplay bareModel (toolHistory "") [⟨0, toolOverlay⟩]).turns =
      (toolHistory "").turns.map (⟨·, none⟩) := by decide
  rw [hshown] at h
  -- the one row shown is the recorded item as it is
  have hturn := h.recorded _ mem_cons_self _ mem_cons_self rfl
  obtain ⟨route, hrendered⟩ := hturn.rendered
  have hitems := hturn.recorded
  rcases h.kept ⟨0, toolOverlay⟩ (by decide) with hcell | hnone
  · generalize hentries : entriesOf _ = entries at hrendered hitems
    have hcell : (⟨0, toolOverlay⟩ : OverlayCell) ∈ entries.filterMap Entry.overlay := by
      simpa [shownOverlay, toolHistory, hentries] using hcell
    obtain ⟨e, rfl⟩ : ∃ e, entries = [e] :=
      length_eq_one_iff.mp (by simpa [toolHistory] using (congrArg List.length hrendered).symm)
    have hrow : runningTool = e.render route := by simpa [toolHistory] using hrendered
    cases e with
    | own cell => cases hitems
    | row item laid =>
      cases laid with
      | none => simp [Entry.overlay] at hcell
      | some cell => exact absurd (congrArg ItemModel.overlayKey hrow) (by simp [runningTool,
          Entry.render, layOverHistoryItem])
  · exact absurd hnone.1 (by decide)

end Evener.Transcript
