/-
  The display is the derivation of its inputs.

  `DisplayInv` says, of a model whose history is live, that its turns are the derivation from
  scratch under a running turn `R`, the one at the last derivation. A status frame replaces the
  running turn and never touches the turns, so `R` may lag behind (`display_lags_status`).
-/
import Evener.Transcript.HistoryStep

namespace Evener.Transcript

open Evener.Lib List Option

/-! ## The invariant -/

/-- The overlay, absent counting as empty. -/
def overlayOf (model : ThreadModel) : List OverlayCell := model.overlay.getD []

/-- The shown turns are the derivation from scratch under the running turn `R`. -/
def Derived (model : ThreadModel) (R : Option String) : Prop :=
  model.turns = displayTurns (historyOf model).turns (overlayOf model) []
    (modelImageSessionRoute model) R

structure DisplayInv (frame : Nat) (model : ThreadModel) (R : Option String) : Prop where
  nodup : KeysNodup turnKey (historyOf model).turns
  keys : KeysNodup cellKey (overlayOf model)
  cells : ∀ cell ∈ overlayOf model, cell.made < frame
  sources : ∀ shown ∈ model.turns, ∀ source, shown.source = some source →
    ∀ cell ∈ source.overlay, cell.made < frame
  derived : (historyOf model).invalidatedAtGeneration = none → Derived model R

variable {frame : Nat} {model model' : ThreadModel} {R : Option String} {overlay : List OverlayCell}
  {history : HistoryState}

theorem DisplayInv.later {frame' : Nat} (h : DisplayInv frame model R) (hle : frame ≤ frame') :
    DisplayInv frame' model R :=
  ⟨h.nodup, h.keys, fun c hc => Nat.lt_of_lt_of_le (h.cells c hc) hle,
    fun s hs src hsrc c hc => Nat.lt_of_lt_of_le (h.sources s hs src hsrc c hc) hle, h.derived⟩

/-! ## Deriving -/

theorem pruneCoveredOverlay_sublist (turns : List TurnModel) (overlay : List OverlayCell) :
    (pruneCoveredOverlay turns overlay).Sublist overlay := by
  unfold pruneCoveredOverlay filterOverlay
  dsimp only
  split
  · exact List.Sublist.refl _
  · exact filter_sublist

/-- A derived display can be reused by any derivation under the same image route. -/
theorem Derived.reusable (h : Derived model R) (overlay : List OverlayCell) :
    Reusable (modelImageSessionRoute model) overlay model.turns := by
  intro shown hshown source hsource _ _
  rw [h] at hshown
  exact displayTurns_built hshown source hsource

/-- Nothing older than the frame is reused for the overlay objects the frame brings. -/
theorem DisplayInv.reusable_fresh (h : DisplayInv frame model R)
    (hfresh : ∀ cell ∈ overlay, cell.made = frame) (route : Option String) :
    Reusable route overlay model.turns := by
  intro shown hshown source hsource hne hsub
  obtain ⟨cell, hcell⟩ := exists_mem_of_ne_nil _ hne
  have hold := h.sources shown hshown source hsource cell hcell
  have hnew := hfresh cell (hsub cell hcell)
  omega

/-- Deriving under reusable turns gives a derived model. -/
theorem displayInv_withDisplay (hnodup : KeysNodup turnKey history.turns)
    (hkeys : KeysNodup cellKey overlay) (hcells : ∀ cell ∈ overlay, cell.made < frame)
    (hreuse : Reusable (modelImageSessionRoute model) (pruneCoveredOverlay history.turns overlay) model.turns) :
    DisplayInv frame (withDisplay model history overlay) model.runningTurnId := by
  have hsub := pruneCoveredOverlay_sublist history.turns overlay
  have hturns : (withDisplay model history overlay).turns =
      displayTurns history.turns (pruneCoveredOverlay history.turns overlay) []
        (modelImageSessionRoute model) model.runningTurnId := displayTurns_reuse hreuse
  refine ⟨hnodup, hkeys.sublist hsub, fun c hc => hcells c (hsub.subset hc), ?_, fun _ => hturns⟩
  intro shown hshown source hsource cell hcell
  rw [hturns] at hshown
  exact hcells cell (hsub.subset (displayTurns_source_subset hshown hsource cell hcell))

/-- Re-deriving a live model with another history or overlay. -/
theorem DisplayInv.rederive {frame' : Nat} (h : DisplayInv frame model R)
    (hlive : (historyOf model).invalidatedAtGeneration = none)
    (hroute : modelImageSessionRoute model' = modelImageSessionRoute model)
    (hturns : model'.turns = model.turns) (hnodup : KeysNodup turnKey history.turns)
    (hkeys : KeysNodup cellKey overlay) (hcells : ∀ cell ∈ overlay, cell.made < frame') :
    DisplayInv frame' (withDisplay model' history overlay) model'.runningTurnId := by
  refine displayInv_withDisplay hnodup hkeys hcells ?_
  rw [hroute, hturns]
  exact (h.derived hlive).reusable _

/-- A change of anything but turns, history turns, overlay and image route. -/
theorem DisplayInv.unchanged (h : DisplayInv frame model R) (hturns : model'.turns = model.turns)
    (hhist : (historyOf model').turns = (historyOf model).turns)
    (hlive : (historyOf model').invalidatedAtGeneration = none → (historyOf model).invalidatedAtGeneration = none)
    (hoverlay : model'.overlay = model.overlay)
    (hroute : modelImageSessionRoute model' = modelImageSessionRoute model) :
    DisplayInv frame model' R := by
  have hov : overlayOf model' = overlayOf model := by
    unfold overlayOf
    rw [hoverlay]
  refine ⟨by rw [hhist]; exact h.nodup, by rw [hov]; exact h.keys, by rw [hov]; exact h.cells,
    by rw [hturns]; exact h.sources, fun hl => ?_⟩
  unfold Derived
  rw [hturns, hhist, hov, hroute]
  exact h.derived (hlive hl)

/-! ## Overlay bookkeeping -/

theorem overlayRecord_made (frame : Nat) (items : Option (List OverlayItem)) :
    ∀ cell ∈ overlayRecord frame items, cell.made = frame := by
  unfold overlayRecord
  refine List.foldlRecOn (motive := fun record : List OverlayCell =>
    ∀ cell ∈ record, cell.made = frame) _ _ (by simp) fun record hrecord item _ cell hcell => ?_
  rcases mem_of_mem_put hcell with rfl | hcell
  · rfl
  · exact hrecord cell hcell

theorem overlayRecord_keys (frame : Nat) (items : Option (List OverlayItem)) :
    KeysNodup cellKey (overlayRecord frame items) := by
  unfold overlayRecord
  exact List.foldlRecOn (motive := KeysNodup cellKey) _ _ keysNodup_nil
    fun record hrecord item _ => keysNodup_put hrecord _

theorem put_cells_lt (h : ∀ cell ∈ overlay, cell.made < frame) (item : OverlayItem) :
    ∀ cell ∈ put cellKey ⟨frame, item⟩ overlay, cell.made < frame + 1 := by
  intro cell hcell
  rcases mem_of_mem_put hcell with rfl | hcell
  · exact Nat.lt_succ_self _
  · exact Nat.lt_succ_of_lt (h cell hcell)

theorem filterOverlay_sublist {kept : List OverlayCell} {drop : OverlayItem → Bool}
    (h : filterOverlay overlay drop = some kept) : kept.Sublist overlay := by
  unfold filterOverlay at h
  dsimp only at h
  split at h
  · cases h
  · cases h
    exact filter_sublist

/-- A delta keeps an overlay item's key and where it is shown. -/
theorem applyDelta_key (params : OverlayDeltaParams) (item : OverlayItem) :
    (applyDelta params item).key = item.key := by
  unfold applyDelta
  split <;> rfl

theorem applyDelta_turnId (params : OverlayDeltaParams) (item : OverlayItem)
    (turns : List TurnModel) (running : Option String) :
    overlayTurnId (applyDelta params item) turns running = overlayTurnId item turns running := by
  unfold applyDelta
  split <;> rfl

theorem put_eq_replaceCell (hkeys : KeysNodup cellKey overlay) {held : OverlayCell}
    (next : OverlayCell) (hheld : held ∈ overlay) (hkey : next.item.key = held.item.key) :
    put cellKey next overlay = overlay.map (replaceCell held next) := by
  have hin : cellKey next ∈ overlay.map cellKey := mem_map.mpr ⟨held, hheld, hkey.symm⟩
  rw [put_eq_map hkeys hin]
  refine map_congr_left fun cell hcell => ?_
  unfold replaceCell
  by_cases hc : cell = held
  · rw [if_pos hc, if_pos (by rw [hc]; exact hkey.symm)]
  · rw [if_neg hc, if_neg fun hk => hc (hkeys.eq_of_key hcell hheld (hk.trans hkey))]

/-! ## Pages -/

theorem keysNodup_dropItemsInRange {turns : List TurnModel} (h : KeysNodup turnKey turns)
    (start : ThreadItemPosition) (stop : Option ThreadItemPosition) :
    KeysNodup turnKey (dropItemsInRange turns start stop) := by
  have hsub : ((dropItemsInRange turns start stop).map turnKey).Sublist (turns.map turnKey) := by
    unfold dropItemsInRange
    induction turns with
    | nil => exact List.Sublist.refl _
    | cons t turns ih =>
      have ih' := ih (keysNodup_cons.mp h).2
      rw [filterMap_cons]
      dsimp only
      split
      · exact ih'.cons _
      · next t' heq =>
        have hid : turnKey t' = turnKey t := by
          split at heq
          · cases heq
            rfl
          · split at heq
            · cases heq
              rfl
            · cases heq
        rw [map_cons, map_cons, hid]
        exact ih'.cons_cons _
  exact hsub.nodup h

/-- After the step the display is derived under the model's own running turn, or neither that nor
    the turn it was derived under changed. -/
def Tracks (model model' : ThreadModel) (R R' : Option String) : Prop :=
  R' = model'.runningTurnId ∨ (R' = R ∧ model'.runningTurnId = model.runningTurnId)

theorem mergeVersionedPage_displayInv {held : HistoryState} (h : DisplayInv frame model R)
    (hheld : model.history = some held) (resp : ThreadTurnsListResponse) (takeCursor : Bool) :
    ∃ R', DisplayInv frame (mergeVersionedPage model held resp takeCursor) R' ∧
      Tracks model (mergeVersionedPage model held resp takeCursor) R R' := by
  have hof := historyOf_some hheld
  unfold mergeVersionedPage
  cases hd : pageDisposition held resp with
  | discard => exact ⟨R, h, Or.inr ⟨rfl, rfl⟩⟩
  | defer =>
    refine ⟨R, h.unchanged rfl ?_ (fun hl => ?_) rfl rfl, Or.inr ⟨rfl, rfl⟩⟩
    · rw [hof]
      rfl
    · rw [hof]
      exact hl
  | invalidate =>
    refine ⟨R, h.unchanged rfl ?_ (fun hl => ?_) rfl rfl, Or.inr ⟨rfl, rfl⟩⟩
    · rw [hof, historyOf_some rfl]
      split <;> rfl
    · exfalso
      rw [historyOf_some rfl] at hl
      split at hl <;> cases hl
  | merge =>
    have hlive : (historyOf model).invalidatedAtGeneration = none := by
      rw [hof]
      exact (pageDisposition_merge_live hd).1
    have hnodup : ∀ (kept : List TurnModel) (f : HistoryFragment), KeysNodup turnKey kept →
        KeysNodup turnKey (mergeHistory kept f) := fun kept f hk => keysNodup_mergeHistory hk f false
    have hkept := h.nodup
    rw [hof] at hkept
    refine ⟨_, h.rederive hlive ?_ ?_ (hnodup _ _ ?_) h.keys h.cells, Or.inl rfl⟩
    · cases takeCursor <;> rfl
    · cases takeCursor <;> rfl
    · split
      · exact keysNodup_dropItemsInRange hkept _ _
      · exact hkept

theorem Tracks.current {R' : Option String} (h : Tracks model model' model.runningTurnId R') :
    R' = model'.runningTurnId := by
  rcases h with h | ⟨h, hrun⟩
  · exact h
  · rw [h, hrun]

theorem mergeDeferredPages_displayInv (incarnation : Option String)
    (pages : List ThreadTurnsListResponse) (h : DisplayInv frame model model.runningTurnId)
    (hhist : model.history.isSome) :
    DisplayInv frame (mergeDeferredPages incarnation model pages)
      (mergeDeferredPages incarnation model pages).runningTurnId := by
  have hall : (mergeDeferredPages incarnation model pages).history.isSome ∧
      DisplayInv frame (mergeDeferredPages incarnation model pages)
        (mergeDeferredPages incarnation model pages).runningTurnId := by
    unfold mergeDeferredPages
    refine List.foldlRecOn (motive := fun next : ThreadModel =>
      next.history.isSome ∧ DisplayInv frame next next.runningTurnId) _ _ ⟨hhist, h⟩ ?_
    rintro next ⟨hsome, hnext⟩ page -
    split
    · obtain ⟨held, hheld⟩ := isSome_iff_exists.mp hsome
      rw [historyOf_some hheld]
      obtain ⟨R', hinv, htracks⟩ := mergeVersionedPage_displayInv hnext hheld page false
      rw [htracks.current] at hinv
      rw [mergeVersionedPage_history hheld]
      exact ⟨rfl, hinv⟩
    · exact ⟨hsome, hnext⟩
  exact hall.2

/-! ## Reads -/

theorem keysNodup_turnsAfterRead {held : HistoryState} (h : KeysNodup turnKey held.turns)
    (disposition : ReadDisposition) (resp : ThreadReadResponse) (route : Option String) :
    KeysNodup turnKey (turnsAfterRead held disposition resp route) := by
  have hnil : KeysNodup turnKey ([] : List TurnModel) := keysNodup_nil
  unfold turnsAfterRead
  cases disposition with
  | discard => exact keysNodup_mergeHistory hnil _ _
  | replace => exact keysNodup_mergeHistory hnil _ _
  | merge =>
    have hkept : KeysNodup turnKey
        (if resp.authoritative then
          dropItemsInRange held.turns (((fragmentRange (splitWireTurns (resp.thread.turns.getD [])
            route).items).map Prod.fst).getD { entry := 0, item := 0 })
        else held.turns) := by
      split
      · exact keysNodup_dropItemsInRange h _ _
      · exact h
    dsimp only
    split
    · exact keysNodup_mergeHistory (keysNodup_mergeHistory hkept _ _) _ _
    · exact keysNodup_mergeHistory hkept _ _

/-- The display of a fresh overlay, whatever was shown before. -/
theorem displayInv_fresh (h : DisplayInv frame model R) (hturns : model'.turns = model.turns)
    (hnodup : KeysNodup turnKey history.turns) (items : Option (List OverlayItem)) :
    DisplayInv (frame + 1) (withDisplay model' history (overlayRecord frame items))
      model'.runningTurnId := by
  have hmade := overlayRecord_made frame items
  refine displayInv_withDisplay hnodup (overlayRecord_keys frame items)
    (fun c hc => by rw [hmade c hc]; exact Nat.lt_succ_self _) ?_
  rw [hturns]
  refine h.reusable_fresh (fun c hc => hmade c ?_) _
  exact (pruneCoveredOverlay_sublist _ _).subset hc

theorem applyReadResponse_displayInv (h : DisplayInv frame model R) (resp : ThreadReadResponse)
    (now : Nat) (frontier : String) :
    ∃ R', DisplayInv (frame + 1) (applyReadResponse frame model resp now frontier) R' ∧
      Tracks model (applyReadResponse frame model resp now frontier) R R' := by
  unfold applyReadResponse
  dsimp only
  split
  · exact ⟨R, h.later (Nat.le_succ _), Or.inr ⟨rfl, rfl⟩⟩
  · refine ⟨_, mergeDeferredPages_displayInv _ _ ?_ rfl, Or.inl rfl⟩
    refine displayInv_fresh h ?_ ?_ _
    · rfl
    · exact keysNodup_turnsAfterRead h.nodup _ _ _

/-! ## Notifications -/

theorem applyHistoryUpdated_displayInv (h : DisplayInv frame model R)
    (params : HistoryUpdatedParams) (now : Nat) :
    ∃ R', DisplayInv frame (applyHistoryUpdated model params now) R' ∧
      Tracks model (applyHistoryUpdated model params now) R R' := by
  have hlivemodel : DisplayInv frame { model with lastFrameAt := now } R :=
    h.unchanged rfl rfl id rfl rfl
  unfold applyHistoryUpdated
  dsimp only
  split
  · exact ⟨R, hlivemodel, Or.inr ⟨rfl, rfl⟩⟩
  · split
    · refine ⟨R, h.unchanged rfl rfl (fun hl => ?_) rfl rfl, Or.inr ⟨rfl, rfl⟩⟩
      cases hl
    · exact ⟨R, hlivemodel, Or.inr ⟨rfl, rfl⟩⟩
    · split
      · exact ⟨R, hlivemodel, Or.inr ⟨rfl, rfl⟩⟩
      · next hlive =>
        split
        · refine ⟨_, h.rederive (by simpa using hlive) ?_ ?_ ?_ h.keys h.cells, Or.inl rfl⟩
          · rfl
          · rfl
          · exact keysNodup_mergeHistory h.nodup _ _
        · exact ⟨R, hlivemodel, Or.inr ⟨rfl, rfl⟩⟩

theorem applyResync_displayInv (h : DisplayInv frame model R) (params : ThreadResyncParams)
    (now : Nat) :
    DisplayInv frame (applyResync model params now) R ∧
      (applyResync model params now).runningTurnId = model.runningTurnId := by
  unfold applyResync
  cases hh : model.history with
  | none => exact ⟨h, rfl⟩
  | some held =>
    have hof := historyOf_some hh
    dsimp only
    split
    · exact ⟨h.unchanged rfl (by rw [hof]; rfl) (fun hl => by rw [hof]; exact hl) rfl rfl, rfl⟩
    · split
      · refine ⟨h.unchanged rfl (by rw [hof]; rfl) (fun hl => ?_) rfl rfl, rfl⟩
        cases hl
      · exact ⟨h.unchanged rfl (by rw [hof]; rfl) (fun hl => by rw [hof]; exact hl) rfl rfl, rfl⟩

theorem applyOverlayChange_displayInv (h : DisplayInv frame model R) (now : Nat)
    (change : List OverlayCell → Option (List OverlayCell))
    (hchange : ∀ overlay', change (overlayOf model) = some overlay' → KeysNodup cellKey overlay' ∧
      ∀ cell ∈ overlay', cell.made < frame + 1) :
    ∃ R', DisplayInv (frame + 1) (applyOverlayChange model now change) R' ∧
      Tracks model (applyOverlayChange model now change) R R' := by
  unfold applyOverlayChange
  split
  · next history overlay hl hc =>
    obtain ⟨hsome, hlive⟩ := liveHistory_eq_some hl
    have hof := historyOf_some hsome
    obtain ⟨hkeys, hcells⟩ := hchange overlay hc
    have hnodup := h.nodup
    rw [hof] at hnodup
    refine ⟨_, h.rederive (by rw [hof]; exact hlive) ?_ ?_ hnodup hkeys hcells, Or.inl rfl⟩
    · rfl
    · rfl
  · exact ⟨R, (h.later (Nat.le_succ _)).unchanged rfl rfl id rfl rfl, Or.inr ⟨rfl, rfl⟩⟩

theorem rebuildShowing_source {held next : OverlayCell} {route : Option String} {P : OverlayCell → Prop}
    (hnext : P next) {l l' : List ShownTurn} (h : rebuildShowing held next route l = some l')
    (hl : ∀ shown ∈ l, ∀ source, shown.source = some source → ∀ cell ∈ source.overlay, P cell) :
    ∀ shown ∈ l', ∀ source, shown.source = some source → ∀ cell ∈ source.overlay, P cell := by
  induction l generalizing l' with
  | nil => cases h
  | cons s l ih =>
    have hs := hl s mem_cons_self
    have hrest := fun shown hshown => hl shown (mem_cons_of_mem _ hshown)
    unfold rebuildShowing at h
    split at h
    · cases h
      intro shown hshown source hsource cell hcell
      rcases mem_cons.mp hshown with rfl | hshown
      · unfold ShownTurn.rebuild at hsource
        cases hsrc : s.source with
        | none =>
          rw [hsrc] at hsource
          rw [hsrc] at hsource
          cases hsource
        | some src =>
          rw [hsrc] at hsource
          cases hsource
          obtain ⟨c, hc, rfl⟩ := mem_map.mp hcell
          unfold replaceCell
          split
          · exact hnext
          · exact hs src hsrc c hc
      · exact hrest shown hshown source hsource cell hcell
    · obtain ⟨rest', hr, rfl⟩ := map_eq_some_iff.mp h
      intro shown hshown
      rcases mem_cons.mp hshown with rfl | hshown
      · exact hs
      · exact ih hr hrest shown hshown

theorem applyOverlayDelta_displayInv (h : DisplayInv frame model R) (params : OverlayDeltaParams)
    (now : Nat) :
    ∃ R', DisplayInv (frame + 1) (applyOverlayDelta frame model params now) R' ∧
      Tracks model (applyOverlayDelta frame model params now) R R' := by
  unfold applyOverlayDelta
  dsimp only
  split
  · next held history hl hlh =>
    obtain ⟨hsome, hlive⟩ := liveHistory_eq_some hlh
    have hof := historyOf_some hsome
    have hheld : held ∈ overlayOf model := mem_of_lookup hl
    have hlive' : (historyOf model).invalidatedAtGeneration = none := by
      rw [hof]
      exact hlive
    have hcells := put_cells_lt h.cells (applyDelta params held.item)
    split
    · next turns hrebuild =>
      -- only the turn that shows the item is rebuilt, and the item stays where it is shown
      have hput := put_eq_replaceCell h.keys ⟨frame, applyDelta params held.item⟩ hheld
        (applyDelta_key params held.item)
      refine ⟨R, ⟨h.nodup, keysNodup_put h.keys _, hcells, ?_, fun _ => ?_⟩, Or.inr ⟨rfl, rfl⟩⟩
      · refine rebuildShowing_source (Nat.lt_succ_self frame) hrebuild ?_
        intro shown hshown source hsource cell hcell
        exact Nat.lt_succ_of_lt (h.sources shown hshown source hsource cell hcell)
      · rw [h.derived hlive'] at hrebuild
        have hdelta := displayTurns_delta h.nodup (applyDelta_turnId params held.item _ _) hrebuild
        rw [← hput] at hdelta
        exact hdelta
    · have hnodup := h.nodup
      rw [hof] at hnodup
      refine ⟨_, h.rederive hlive' ?_ ?_ hnodup (keysNodup_put h.keys _) hcells, Or.inl rfl⟩
      · rfl
      · rfl
  · exact ⟨R, (h.later (Nat.le_succ _)).unchanged rfl rfl id rfl rfl, Or.inr ⟨rfl, rfl⟩⟩

/-- Where a status frame that reaches a live thread leaves the overlay items. -/
def KeepsPlaces (model : ThreadModel) : ClientOp → Prop
  | .notify (.threadStatusChanged params) =>
    params.ref = model.ref → (historyOf model).invalidatedAtGeneration = none →
      ∀ cell ∈ overlayOf model, overlayTurnId cell.item (historyOf model).turns model.runningTurnId =
        overlayTurnId cell.item (historyOf model).turns (truthyString params.activeTurnId)
  | _ => True

/-- The status frame leaves the display as it was derived; under the new running turn it is still
    the derivation when every overlay item keeps its place. -/
theorem applyStatusChanged_displayInv (h : DisplayInv frame model R)
    (params : ThreadStatusChangedParams) (now : Nat) :
    DisplayInv frame (applyStatusChanged model params now) R ∧
      (R = model.runningTurnId → params.ref = model.ref →
        KeepsPlaces model (.notify (.threadStatusChanged params)) →
        DisplayInv frame (applyStatusChanged model params now)
          (applyStatusChanged model params now).runningTurnId) := by
  have hsame : DisplayInv frame (applyStatusChanged model params now) R :=
    h.unchanged rfl rfl id rfl rfl
  refine ⟨hsame, fun hR href hkeep => ⟨h.nodup, h.keys, h.cells, h.sources, fun hlive => ?_⟩⟩
  have hder := hsame.derived hlive
  unfold Derived at hder ⊢
  rw [hder, hR]
  exact displayTurns_running_congr _ _ (hkeep href hlive)

theorem applyNotification_displayInv (h : DisplayInv frame model R) (n : AnyNotification)
    (now : Nat) :
    ∃ R', DisplayInv (frame + 1) (applyNotification frame model n now) R' ∧
      (R' = (applyNotification frame model n now).runningTurnId ∨ R' = R) ∧
      (R = model.runningTurnId → KeepsPlaces model (.notify n) →
        R' = (applyNotification frame model n now).runningTurnId) := by
  -- clearing a pending retry changes nothing the display depends on
  have hretry : ∀ R', DisplayInv (frame + 1) (applyNotificationToThread frame model n now) R' →
      DisplayInv (frame + 1) (applyNotification frame model n now) R' ∧
        (applyNotification frame model n now).runningTurnId =
          (applyNotificationToThread frame model n now).runningTurnId := by
    intro R' hR'
    unfold applyNotification
    split
    · exact ⟨hR'.unchanged rfl rfl id rfl rfl, rfl⟩
    · exact ⟨hR', rfl⟩
  have hfinish : (∃ R', DisplayInv (frame + 1) (applyNotificationToThread frame model n now) R' ∧
      Tracks model (applyNotificationToThread frame model n now) R R') →
      ∃ R', DisplayInv (frame + 1) (applyNotification frame model n now) R' ∧
        (R' = (applyNotification frame model n now).runningTurnId ∨ R' = R) ∧
        (R = model.runningTurnId → KeepsPlaces model (.notify n) →
          R' = (applyNotification frame model n now).runningTurnId) := by
    rintro ⟨R', hR', htracks⟩
    obtain ⟨hinv, hrun⟩ := hretry R' hR'
    refine ⟨R', hinv, ?_, fun hcur _ => ?_⟩
    · rw [hrun]
      exact htracks.imp id And.left
    · rw [hrun]
      rw [hcur] at htracks
      exact htracks.current
  have hlater := Nat.le_succ frame
  by_cases htarget : notificationTargetsThread n model = true
  · unfold applyNotificationToThread at hretry hfinish
    rw [if_pos htarget] at hretry hfinish
    cases n with
    | historyUpdated params =>
      obtain ⟨R', hinv, htracks⟩ := applyHistoryUpdated_displayInv h params now
      exact hfinish ⟨R', hinv.later hlater, htracks⟩
    | threadResync params =>
      obtain ⟨hinv, hrun⟩ := applyResync_displayInv h params now
      exact hfinish ⟨R, hinv.later hlater, Or.inr ⟨rfl, hrun⟩⟩
    | overlayUpserted ref item =>
      refine hfinish (applyOverlayChange_displayInv h now _ fun overlay' hov => ?_)
      cases hov
      exact ⟨keysNodup_put h.keys _, put_cells_lt h.cells _⟩
    | overlayDelta params => exact hfinish (applyOverlayDelta_displayInv h params now)
    | overlayReset ref streamId =>
      refine hfinish (applyOverlayChange_displayInv h now _ fun overlay' hov => ?_)
      have hsub := filterOverlay_sublist hov
      exact ⟨h.keys.sublist hsub, fun c hc => Nat.lt_succ_of_lt (h.cells c (hsub.subset hc))⟩
    | overlayEnd ref roundId =>
      refine hfinish (applyOverlayChange_displayInv h now _ fun overlay' hov => ?_)
      have hsub := filterOverlay_sublist hov
      exact ⟨h.keys.sublist hsub, fun c hc => Nat.lt_succ_of_lt (h.cells c (hsub.subset hc))⟩
    | threadStatusChanged params =>
      have href : params.ref = model.ref := of_decide_eq_true htarget
      obtain ⟨hsame, hmoved⟩ := applyStatusChanged_displayInv h params now
      by_cases hcur : R = model.runningTurnId ∧
          KeepsPlaces model (.notify (.threadStatusChanged params))
      · obtain ⟨hinv, hrun⟩ := hretry _ ((hmoved hcur.1 href hcur.2).later hlater)
        exact ⟨_, hinv, Or.inl hrun.symm, fun _ _ => hrun.symm⟩
      · obtain ⟨hinv, -⟩ := hretry R (hsame.later hlater)
        exact ⟨R, hinv, Or.inr rfl, fun h1 h2 => absurd ⟨h1, h2⟩ hcur⟩
  · unfold applyNotificationToThread at hfinish
    rw [if_neg htarget] at hfinish
    exact hfinish ⟨R, h.later hlater, Or.inr ⟨rfl, rfl⟩⟩

/-! ## Runs -/

/-- The operations of a thread that is being shown: reads, notifications and snapshot pages. -/
def ClientOp.Displays : ClientOp → Prop
  | .applyReadResponse _ _ => True
  | .notify _ => True
  | .mergeOlderItemPage resp => resp.snapshot.isSome
  | _ => False

theorem applyNotification_history_isSome (h : model.history.isSome) (n : AnyNotification)
    (now : Nat) : (applyNotification frame model n now).history.isSome := by
  have hretry : (applyNotification frame model n now).history =
      (applyNotificationToThread frame model n now).history := by
    unfold applyNotification
    split <;> rfl
  rw [hretry]
  unfold applyNotificationToThread
  split
  · cases n with
    | historyUpdated params =>
      dsimp only [applyHistoryUpdated]
      split
      · exact h
      · split
        · rfl
        · exact h
        · split
          · exact h
          · split
            · rfl
            · exact h
    | threadResync params =>
      dsimp only [applyResync]
      split
      · exact h
      · split
        · exact h
        · split
          · rfl
          · exact h
    | overlayUpserted ref item => exact (applyOverlayChange_history _ _ _).symm ▸ h
    | overlayDelta params => exact (applyOverlayDelta_history _ _ _ _).symm ▸ h
    | overlayReset ref streamId => exact (applyOverlayChange_history _ _ _).symm ▸ h
    | overlayEnd ref roundId => exact (applyOverlayChange_history _ _ _).symm ▸ h
    | threadStatusChanged params => exact h
  · exact h

/-- One operation keeps the display derived. -/
theorem step_displayInv (U : UnversionedMerge) {c : Client} (hhist : c.model.history.isSome)
    (h : DisplayInv c.frame c.model R) (op : ClientOp × Nat) (hop : op.1.Displays) :
    (c.step U op).model.history.isSome ∧
    ∃ R', DisplayInv (c.step U op).frame (c.step U op).model R' ∧
      (R' = (c.step U op).model.runningTurnId ∨ R' = R) ∧
      (R = c.model.runningTurnId → KeepsPlaces c.model op.1 →
        R' = (c.step U op).model.runningTurnId) := by
  obtain ⟨op, now⟩ := op
  unfold Client.step
  cases op with
  | issueLatestWindowRead => cases hop
  | invalidateHistory => cases hop
  | applyHistoryReadFailure diagnostic generation => cases hop
  | notify n =>
    exact ⟨applyNotification_history_isSome hhist n now, applyNotification_displayInv h n now⟩
  | applyReadResponse resp frontier =>
    obtain ⟨R', hinv, htracks⟩ := applyReadResponse_displayInv h resp now frontier
    refine ⟨?_, R', hinv, htracks.imp id And.left, fun hcur _ => ?_⟩
    · dsimp only [applyOp, applyReadResponse]
      split
      · exact hhist
      · rw [mergeDeferredPages_history _ _ (withDisplay_history _ _ _)]
        rfl
    · rw [hcur] at htracks
      exact htracks.current
  | mergeOlderItemPage resp =>
    obtain ⟨held, hheld⟩ := isSome_iff_exists.mp hhist
    obtain ⟨snapshot, hsnap⟩ := isSome_iff_exists.mp hop
    have hpage : mergeOlderItemPage U c.model resp = mergeVersionedPage c.model held resp true := by
      unfold mergeOlderItemPage
      rw [hheld, hsnap]
    dsimp only [applyOp]
    rw [hpage, mergeVersionedPage_history hheld]
    obtain ⟨R', hinv, htracks⟩ := mergeVersionedPage_displayInv h hheld resp true
    refine ⟨rfl, R', hinv.later (Nat.le_succ _), htracks.imp id And.left, fun hcur _ => ?_⟩
    rw [hcur] at htracks
    exact htracks.current

theorem hydrateThread_displayInv (U : UnversionedMerge) (frame : Nat) {resp : ThreadReadResponse}
    (hsnap : resp.snapshot.isSome) (ref : String) (now : Nat) (frontier : String) :
    (hydrateThread U frame resp ref now frontier).history.isSome ∧
      DisplayInv (frame + 1) (hydrateThread U frame resp ref now frontier)
        (hydrateThread U frame resp ref now frontier).runningTurnId := by
  obtain ⟨snapshot, hs⟩ := isSome_iff_exists.mp hsnap
  unfold hydrateThread
  rw [hs]
  have hmade := overlayRecord_made frame resp.overlay
  have hnil : KeysNodup turnKey ([] : List TurnModel) := keysNodup_nil
  refine ⟨rfl, displayInv_withDisplay (keysNodup_mergeHistory hnil _ _)
    (overlayRecord_keys _ _) (fun c hc => by rw [hmade c hc]; exact Nat.lt_succ_self _) ?_⟩
  intro shown hshown
  cases hshown

/-- No status frame of the run moves an overlay item of a live thread to another turn. -/
def StatusKeepsPlaces (U : UnversionedMerge) (c : Client) (ops : List (ClientOp × Nat)) : Prop :=
  ∀ pre op post, ops = pre ++ op :: post → KeepsPlaces (c.run U pre).model op.1

theorem run_displayInv (U : UnversionedMerge) {c : Client} (hhist : c.model.history.isSome)
    (h : DisplayInv c.frame c.model c.model.runningTurnId) (ops : List (ClientOp × Nat))
    (hops : ∀ op ∈ ops, op.1.Displays) :
    (c.run U ops).model.history.isSome ∧
    ∃ pre, pre <+: ops ∧
      DisplayInv (c.run U ops).frame (c.run U ops).model (c.run U pre).model.runningTurnId ∧
      (StatusKeepsPlaces U c ops →
        DisplayInv (c.run U ops).frame (c.run U ops).model (c.run U ops).model.runningTurnId) := by
  induction ops using List.reverseRecOn with
  | nil => exact ⟨hhist, [], prefix_rfl, h, fun _ => h⟩
  | append_singleton ops op ih =>
    have hops' : ∀ o ∈ ops, o.1.Displays := fun o ho => hops o (mem_append_left _ ho)
    have hop := hops op (mem_append_right _ (mem_singleton.mpr rfl))
    obtain ⟨hsome, pre, hpre, hinv, hcur⟩ := ih hops'
    have hrun : c.run U (ops ++ [op]) = (c.run U ops).step U op := by
      rw [Client.run_append]
      rfl
    obtain ⟨hsome', R', hinv', hR', -⟩ := step_displayInv U hsome hinv op hop
    rw [hrun]
    refine ⟨hsome', ?_⟩
    have hlast : StatusKeepsPlaces U c (ops ++ [op]) →
        DisplayInv ((c.run U ops).step U op).frame ((c.run U ops).step U op).model
          ((c.run U ops).step U op).model.runningTurnId := by
      intro hkeep
      have hinvc := hcur fun p o q hpq => hkeep p o (q ++ [op]) (by rw [hpq]; simp)
      obtain ⟨-, S, hS, -, hScur⟩ := step_displayInv U hsome hinvc op hop
      rw [hScur rfl (hkeep ops op [] rfl)] at hS
      exact hS
    rcases hR' with hR' | hR'
    · refine ⟨ops ++ [op], prefix_rfl, ?_, hlast⟩
      rw [hrun, ← hR']
      exact hinv'
    · refine ⟨pre, hpre.trans (prefix_append _ _), ?_, hlast⟩
      rw [← hR']
      exact hinv'

/-- A client just hydrated from a read. -/
def Client.hydrate (U : UnversionedMerge) (frame : Nat) (resp : ThreadReadResponse) (ref : String)
    (now : Nat) (frontier : String) : Client :=
  ⟨frame + 1, hydrateThread U frame resp ref now frontier⟩

/-- `model.turns`, as values. -/
def shownTurns (model : ThreadModel) : List TurnModel := model.turns.map (·.turn)

/-- `displayTurns` of the model's history and overlay, with no previous turns to reuse. -/
def derivedTurns (model : ThreadModel) (runningTurnId : Option String) : List TurnModel :=
  (displayTurns (historyOf model).turns (overlayOf model) [] (modelImageSessionRoute model)
    runningTurnId).map (·.turn)

/-- From a snapshot read and through any reads, notifications and snapshot pages, while the
    history is live, the shown turns are the derivation from scratch of the recorded turns and the
    overlay: under the running turn of a state of the run, since a status frame replaces the
    running turn without deriving again, and under the current one when no status frame moved an
    overlay item to another display turn. -/
theorem display_derived (U : UnversionedMerge) (frame : Nat) (resp : ThreadReadResponse)
    (hsnap : resp.snapshot.isSome) (ref : String) (now : Nat) (frontier : String)
    (ops : List (ClientOp × Nat)) (hops : ∀ op ∈ ops, op.1.Displays)
    (hlive : (liveHistory ((Client.hydrate U frame resp ref now frontier).run U ops).model).isSome) :
    (∃ pre, pre <+: ops ∧
      shownTurns ((Client.hydrate U frame resp ref now frontier).run U ops).model =
        derivedTurns ((Client.hydrate U frame resp ref now frontier).run U ops).model
          ((Client.hydrate U frame resp ref now frontier).run U pre).model.runningTurnId) ∧
    (StatusKeepsPlaces U (Client.hydrate U frame resp ref now frontier) ops →
      shownTurns ((Client.hydrate U frame resp ref now frontier).run U ops).model =
        derivedTurns ((Client.hydrate U frame resp ref now frontier).run U ops).model
          ((Client.hydrate U frame resp ref now frontier).run U ops).model.runningTurnId) := by
  obtain ⟨hhist, hstart⟩ := hydrateThread_displayInv U frame hsnap ref now frontier
  obtain ⟨-, pre, hpre, hinv, hcur⟩ := run_displayInv U
    (c := Client.hydrate U frame resp ref now frontier) hhist hstart ops hops
  obtain ⟨h, hh⟩ := isSome_iff_exists.mp hlive
  obtain ⟨hsome, hl⟩ := liveHistory_eq_some hh
  have hof : (historyOf ((Client.hydrate U frame resp ref now frontier).run U
      ops).model).invalidatedAtGeneration = none := by
    rw [historyOf_some hsome]
    exact hl
  refine ⟨⟨pre, hpre, ?_⟩, fun hkeep => ?_⟩
  · unfold shownTurns derivedTurns
    rw [hinv.derived hof]
  · unfold shownTurns derivedTurns
    rw [(hcur hkeep).derived hof]

/-! ## A status frame that moves an item -/

/-- A read of the running turn `t1` with a stream that names no turn. -/
def streamingRead : ThreadReadResponse where
  thread := {
    id := "th", sessionId := "s", status := "active", activeTurnId := some "t1",
    turns := some [{ id := "t1", status := "inProgress", version := some 1 }] }
  bootGeneration := some "5"
  epoch := some 1
  snapshot := some ⟨"i1", 2⟩
  overlay := some [{
    key := "stream:x:agentMessage", kind := .stream, streamId := some "x",
    item := {
      type := "agentMessage", id := "stream:x", text := some "hi", status := some "inProgress" } }]

/-- The turn keeps running: the overlay item keeps its place. -/
def stillRunning : List (ClientOp × Nat) :=
  [(.notify (.threadStatusChanged { ref := "r", status := "active", activeTurnId := some "t1" }), 1),
    (.notify (.overlayDelta
      { ref := "r", key := "stream:x:agentMessage", field := "text", delta := " there" }), 2)]

theorem display_derived_still_running :
    shownTurns ((Client.hydrate plainMerge 0 streamingRead "r" 0 "none").run
        plainMerge stillRunning).model =
      derivedTurns ((Client.hydrate plainMerge 0 streamingRead "r" 0 "none").run
        plainMerge stillRunning).model (some "t1") := by
  have hmain := display_derived plainMerge 0 streamingRead rfl "r" 0 "none" stillRunning
    (by simp [stillRunning, ClientOp.Displays]) (by decide)
  obtain ⟨pre, hpre, heq⟩ := hmain.1
  have hrun : ∀ pre ∈ stillRunning.inits,
      ((Client.hydrate plainMerge 0 streamingRead "r" 0 "none").run
        plainMerge pre).model.runningTurnId = some "t1" := by decide
  rw [hrun pre ((mem_inits pre stillRunning).mpr hpre)] at heq
  exact heq

/-- The running turn ends. -/
def turnEnds : List (ClientOp × Nat) :=
  [(.notify (.threadStatusChanged { ref := "r", status := "idle" }), 1)]

/-- When the turn ends the stream belongs nowhere, and is still shown under the ended turn. -/
theorem display_lags_status :
    (liveHistory ((Client.hydrate plainMerge 0 streamingRead "r" 0 "none").run
      plainMerge turnEnds).model).isSome ∧
    shownTurns ((Client.hydrate plainMerge 0 streamingRead "r" 0 "none").run
        plainMerge turnEnds).model ≠
      derivedTurns ((Client.hydrate plainMerge 0 streamingRead "r" 0 "none").run
        plainMerge turnEnds).model
        ((Client.hydrate plainMerge 0 streamingRead "r" 0 "none").run
          plainMerge turnEnds).model.runningTurnId := by
  decide

end Evener.Transcript
