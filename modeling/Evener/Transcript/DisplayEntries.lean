/-
  A display turn as a list of entries: the recorded items in their order, and every overlay item
  of the turn once (`buildDisplayTurn_entries`).
-/
import Evener.Transcript.DisplayDerived

namespace Evener.Transcript

open Evener.Lib
open List hiding lookup

/-! ## Entries -/

abbrev laidKey (cell : OverlayCell) : Option String := cell.item.historyKey

/-- What a row of a shown turn comes from. -/
inductive Entry where
  | row (item : ItemModel) (laid : Option OverlayCell)
  | own (cell : OverlayCell)
deriving DecidableEq

/-- The row an entry is shown as. -/
def Entry.render (imageSessionRoute : Option String) : Entry → ItemModel
  | .row item none => item
  | .row item (some cell) => layOverHistoryItem item cell.item
  | .own cell => overlayDisplayItem cell.item imageSessionRoute

def Entry.recorded : Entry → Option ItemModel
  | .row item _ => some item
  | .own _ => none

def Entry.overlay : Entry → Option OverlayCell
  | .row _ laid => laid
  | .own cell => some cell

/-- A shown turn is these entries, over these recorded items. -/
structure ShownAs (turn : TurnModel) (recorded : List ItemModel) (entries : List Entry) : Prop where
  rendered : ∃ route, turn.items = entries.map (Entry.render route)
  recorded : entries.filterMap Entry.recorded = recorded
  laid : ∀ item cell, Entry.row item (some cell) ∈ entries →
    cell.item.kind = .tool ∧ cell.item.historyKey.isSome ∧
      item.transcriptKey = cell.item.historyKey

/-- No two tools of the overlay name one recorded item. -/
def DistinctHistoryKeys (overlay : List OverlayCell) : Prop :=
  ∀ a ∈ overlay, ∀ b ∈ overlay, a.item.kind = .tool → b.item.kind = .tool →
    a.item.historyKey.isSome → a.item.historyKey = b.item.historyKey → a = b

theorem DistinctHistoryKeys.subset {l l' : List OverlayCell} (h : DistinctHistoryKeys l)
    (hsub : l' ⊆ l) : DistinctHistoryKeys l' :=
  fun a ha b hb => h a (hsub ha) b (hsub hb)

/-! ## The loop of `buildDisplayTurn` -/

/-- The loop state after the cells `done`, as entries, laid cells and trailing cells. -/
structure Reads (recorded : Option TurnModel) (route : Option String) (done : List OverlayCell)
    (b : Building) (es : List Entry) (laid trailing : List OverlayCell) : Prop where
  items : b.items = es.map (Entry.render route)
  rows : es.filterMap Entry.recorded = (recorded.map (·.items)).getD []
  plain : ∀ item cell, Entry.row item (some cell) ∉ es
  notices : ∀ cell, Entry.own cell ∈ es → cell ∈ done ∧ cell.item.kind = .notice
  laidCells : b.laid = laid.map (·.item)
  lays : ∀ cell ∈ laid, cell ∈ done ∧ laysOver recorded cell.item = true
  trail : b.trailing = trailing.map fun cell => overlayDisplayItem cell.item route
  cells : (es.filterMap Entry.overlay ++ (laid ++ trailing)).Perm done

theorem filterMap_recorded_rows (items : List ItemModel) :
    (items.map (Entry.row · none)).filterMap Entry.recorded = items := by
  rw [filterMap_map]
  exact (filterMap_congr fun _ _ => rfl).trans filterMap_some

theorem filterMap_overlay_rows (items : List ItemModel) :
    (items.map (Entry.row · none)).filterMap Entry.overlay = [] := by
  rw [filterMap_map]
  exact filterMap_eq_nil_iff.mpr fun _ _ => rfl

theorem map_render_rows (items : List ItemModel) (route : Option String) :
    (items.map (Entry.row · none)).map (Entry.render route) = items := by
  rw [map_map]
  exact map_id _

variable {o : OverlayItem} {cell : OverlayCell} {cells : List OverlayCell} {turns : List TurnModel}
  {turn : TurnModel}

theorem laysOver_tool {recorded : Option TurnModel} (h : laysOver recorded o = true) :
    o.kind = .tool ∧ ∃ key, o.historyKey = some key ∧ key ≠ "" ∧
      ∃ turn, recorded = some turn ∧ ∃ item ∈ turn.items, item.transcriptKey = some key := by
  unfold laysOver at h
  simp only [Bool.and_eq_true, decide_eq_true_eq] at h
  obtain ⟨⟨hkind, htruthy⟩, hheld⟩ := h
  refine ⟨hkind, ?_⟩
  cases hkey : o.historyKey with
  | none => simp [hkey, truthyString] at htruthy
  | some key =>
    cases recorded with
    | none => cases hheld
    | some turn =>
      simp only [hkey, truthyString, Option.isSome_filter, any_eq_true, beq_iff_eq]
        at htruthy hheld
      obtain ⟨item, hitem, heq⟩ := hheld
      exact ⟨key, rfl, by simpa using htruthy, turn, rfl, item, hitem, heq⟩

theorem Reads.step {recorded : Option TurnModel} {route : Option String} {done : List OverlayCell}
    {b : Building} {es : List Entry} {laid trailing : List OverlayCell}
    (h : Reads recorded route done b es laid trailing)
    (hkeys : DistinctHistoryKeys (done ++ [cell])) (hnew : cell ∉ done) :
    ∃ es' laid' trailing',
      Reads recorded route (done ++ [cell]) (buildStep recorded route b cell.item) es' laid'
        trailing' := by
  have hlater : ∀ c, c ∈ done → c ∈ done ++ [cell] := fun c hc => mem_append_left _ hc
  have hself : cell ∈ done ++ [cell] := mem_append_right _ (mem_singleton.mpr rfl)
  unfold buildStep
  split
  · next hkind =>
    -- a notice is spliced in among the rows
    dsimp only
    generalize itemsBefore b.items (overlayDisplayItem cell.item route).position = n
    have hperm : (insertAt n (Entry.own cell) es).Perm (.own cell :: es) := by
      unfold insertAt
      refine perm_middle.trans ?_
      rw [take_append_drop]
    have hmem : ∀ e, e ∈ insertAt n (Entry.own cell) es ↔ e = .own cell ∨ e ∈ es :=
      fun e => hperm.mem_iff.trans mem_cons
    refine ⟨insertAt n (.own cell) es, laid, trailing, ?_, ?_, ?_, ?_, h.laidCells, ?_, h.trail, ?_⟩
    · simp only [insertAt, map_append, map_cons, map_take, map_drop, ← h.items]
      rfl
    · have hown : Entry.recorded (.own cell) = none := rfl
      rw [insertAt, filterMap_append, filterMap_cons_none hown, ← filterMap_append,
        take_append_drop]
      exact h.rows
    · intro item c hrow
      rcases (hmem _).mp hrow with heq | hrow
      · cases heq
      · exact h.plain item c hrow
    · intro c hown
      rcases (hmem _).mp hown with heq | hown
      · cases heq
        exact ⟨hself, hkind⟩
      · exact ⟨hlater c (h.notices c hown).1, (h.notices c hown).2⟩
    · exact fun c hc => ⟨hlater c (h.lays c hc).1, (h.lays c hc).2⟩
    · have hes := (hperm.filterMap Entry.overlay).append_right (laid ++ trailing)
      exact (hes.trans (h.cells.cons cell)).trans (perm_append_singleton cell done).symm
  · split
    · next hover =>
      obtain ⟨htool, key, hkey, -, -⟩ := laysOver_tool hover
      have hfresh : ∀ o ∈ b.laid, o.historyKey ≠ cell.item.historyKey := by
        intro o ho heq
        rw [h.laidCells] at ho
        obtain ⟨c, hc, rfl⟩ := mem_map.mp ho
        obtain ⟨hcdone, hcover⟩ := h.lays c hc
        have hsame := hkeys c (hlater c hcdone) cell hself (laysOver_tool hcover).1 htool
          (by rw [heq, hkey]; rfl) heq
        exact hnew (hsame ▸ hcdone)
      refine ⟨es, laid ++ [cell], trailing, h.items, h.rows, h.plain, ?_, ?_, ?_, h.trail, ?_⟩
      · exact fun c hc => ⟨hlater c (h.notices c hc).1, (h.notices c hc).2⟩
      · dsimp only
        rw [put_eq_append hfresh, h.laidCells, map_append]
        rfl
      · intro c hc
        rcases mem_append.mp hc with hc | hc
        · exact ⟨hlater c (h.lays c hc).1, (h.lays c hc).2⟩
        · rw [mem_singleton.mp hc]
          exact ⟨hself, hover⟩
      · refine List.Perm.trans ?_ (h.cells.append_right [cell])
        simp only [append_assoc]
        exact List.Perm.append_left _ (List.Perm.append_left _ perm_append_comm)
    · refine ⟨es, laid, trailing ++ [cell], h.items, h.rows, h.plain, ?_, h.laidCells, ?_, ?_, ?_⟩
      · exact fun c hc => ⟨hlater c (h.notices c hc).1, (h.notices c hc).2⟩
      · exact fun c hc => ⟨hlater c (h.lays c hc).1, (h.lays c hc).2⟩
      · rw [map_append, ← h.trail]
        rfl
      · have hcells := h.cells.append_right [cell]
        simpa only [append_assoc] using hcells

theorem reads_foldl (recorded : Option TurnModel) (route : Option String)
    (hkeys : DistinctHistoryKeys cells) (hnodup : cells.Nodup) :
    ∃ es laid trailing,
      Reads recorded route cells
        ((cells.map (·.item)).foldl (buildStep recorded route)
          ⟨[], (recorded.map (·.items)).getD [], []⟩) es laid trailing := by
  induction cells using List.reverseRecOn with
  | nil =>
    refine ⟨((recorded.map (·.items)).getD []).map (Entry.row · none), [], [], ?_, ?_, ?_, ?_, rfl,
      by simp, rfl, ?_⟩
    · exact (map_render_rows _ _).symm
    · exact filterMap_recorded_rows _
    · intro item cell hmem
      obtain ⟨i, -, heq⟩ := mem_map.mp hmem
      cases heq
    · intro cell hmem
      obtain ⟨i, -, heq⟩ := mem_map.mp hmem
      cases heq
    · rw [filterMap_overlay_rows]
      exact List.Perm.refl _
  | append_singleton done cell ih =>
    obtain ⟨hdone, -, hdisjoint⟩ := nodup_append.mp hnodup
    obtain ⟨es, laid, trailing, h⟩ := ih (hkeys.subset (subset_append_left _ _)) hdone
    rw [map_append, foldl_append]
    exact h.step hkeys fun hmem => hdisjoint cell hmem cell (mem_singleton.mpr rfl) rfl

/-! ## Laying over -/

/-- Lays the cell of a row's key over it. -/
def Entry.lay (laid : List OverlayCell) : Entry → Entry
  | .row item _ => .row item
      (item.transcriptKey.bind fun key => lookup laidKey (some key) laid)
  | .own cell => .own cell

theorem lay_recorded (laid : List OverlayCell) (e : Entry) :
    (e.lay laid).recorded = e.recorded := by
  cases e <;> rfl

theorem overlayDisplayItem_key (o : OverlayItem) (route : Option String) :
    (overlayDisplayItem o route).transcriptKey = o.item.transcriptKey := by
  unfold overlayDisplayItem
  dsimp only
  split_ifs <;> rfl

/-- The keys of rows under distinct identities meet each laid cell once. -/
theorem perm_laid {items : List ItemModel} (hitems : (items.map itemIdentity).Nodup)
    {laid : List OverlayCell} (hnodup : KeysNodup laidKey laid)
    (hheld : ∀ cell ∈ laid, ∃ key, cell.item.historyKey = some key ∧
      ∃ item ∈ items, item.transcriptKey = some key) :
    (items.filterMap fun item => item.transcriptKey.bind fun key =>
      lookup laidKey (some key) laid).Perm laid := by
  have hmeets : ∀ (item : ItemModel) cell, (item.transcriptKey.bind fun key =>
      lookup laidKey (some key) laid) = some cell →
      cell ∈ laid ∧ item.transcriptKey = cell.item.historyKey := by
    intro item cell h
    obtain ⟨key, hkey, hl⟩ := Option.bind_eq_some_iff.mp h
    exact ⟨mem_of_lookup hl, hkey.trans (key_of_lookup hl).symm⟩
  refine (perm_ext_iff_of_nodup ?_ ?_).mpr fun cell => ⟨fun hmem => ?_, fun hmem => ?_⟩
  · refine pairwise_filterMap.mpr ?_
    refine (pairwise_map.mp hitems).imp fun hne cell hcell cell' hcell' heq => hne ?_
    obtain ⟨hin, hkey⟩ := hmeets _ _ hcell
    have hkey' := (hmeets _ _ hcell').2
    obtain ⟨key, hsome, -⟩ := hheld cell hin
    rw [← heq, hsome] at hkey'
    rw [hsome] at hkey
    simp only [itemIdentity, hkey, hkey']
    rfl
  · exact hnodup.of_map
  · obtain ⟨item, -, heq⟩ := mem_filterMap.mp hmem
    exact (hmeets item cell heq).1
  · obtain ⟨key, hkey, item, hitem, heq⟩ := hheld cell hmem
    refine mem_filterMap.mpr ⟨item, hitem, ?_⟩
    rw [heq, Option.bind_some]
    exact (lookup_eq_some hnodup).mpr ⟨hmem, hkey⟩

/-- The overlay cells of laid entries: their own ones, and those laid over the rows. -/
theorem lay_overlay (laid : List OverlayCell) {es : List Entry}
    (hplain : ∀ item cell, Entry.row item (some cell) ∉ es) :
    ((es.map (Entry.lay laid)).filterMap Entry.overlay).Perm
      (es.filterMap Entry.overlay ++ (es.filterMap Entry.recorded).filterMap fun item =>
        item.transcriptKey.bind fun key =>
          lookup laidKey (some key) laid) := by
  induction es with
  | nil => exact List.Perm.refl _
  | cons e es ih =>
    have ih := ih fun item cell hmem => hplain item cell (mem_cons_of_mem _ hmem)
    cases e with
    | own cell =>
      simp only [map_cons, filterMap_cons, Entry.lay, Entry.overlay, Entry.recorded]
      exact ih.cons cell
    | row item laidCell =>
      cases laidCell with
      | some cell => exact absurd mem_cons_self (hplain item cell)
      | none =>
        simp only [map_cons, filterMap_cons, Entry.lay, Entry.overlay, Entry.recorded]
        split
        · exact ih
        · exact (ih.cons _).trans perm_middle.symm

/-! ## One display turn -/

/-- A tool the prune keeps has no completed recorded item. -/
theorem open_of_not_covered (h : covered turns o = false) (hkind : o.kind = .tool) {key : String}
    (hkey : o.historyKey = some key) (hne : key ≠ "") (hturn : turn ∈ turns) {item : ItemModel}
    (hitem : item ∈ turn.items) (hheld : item.transcriptKey = some key) :
    (truthyNat item.completedAtEntry).isSome = false := by
  by_contra hdone
  have hcovered : covered turns o = true := by
    simp only [covered, hkind, hkey, Option.isSome_some, Bool.true_and, anyItem, any_eq_true]
    exact ⟨turn, hturn, item, hitem, by simp [hdone, hheld, truthyString, hne]⟩
  rw [h] at hcovered
  cases hcovered

/-- A notice the prune keeps shares its identity with no recorded item. -/
theorem unrecorded_of_not_covered (h : covered turns o = false) (hkind : o.kind = .notice)
    (hturn : turn ∈ turns) {item : ItemModel} (hitem : item ∈ turn.items) :
    itemIdentity item ≠ wireIdentity o.item := by
  intro heq
  have hcovered : covered turns o = true := by
    simp only [covered, hkind, anyItem, any_eq_true]
    exact ⟨turn, hturn, item, hitem, by simpa using heq⟩
  rw [h] at hcovered
  cases hcovered

theorem buildDisplayTurn_entries {recorded : Option TurnModel} (id : String) (route : Option String)
    (hrecorded : ∀ turn, recorded = some turn → turn ∈ turns)
    (hitems : (((recorded.map (·.items)).getD []).map itemIdentity).Nodup)
    (hopen : ∀ cell ∈ cells, covered turns cell.item = false) (hkeys : DistinctHistoryKeys cells)
    (hnodup : cells.Nodup) :
    ∃ entries, ShownAs (buildDisplayTurn id ⟨recorded, cells⟩ route)
        ((recorded.map (·.items)).getD []) entries ∧
      (entries.filterMap Entry.overlay).Perm cells := by
  obtain ⟨es, laid, trailing, h⟩ := reads_foldl recorded route hkeys hnodup
  have hlaidnodup : laid.Nodup := by
    have hcells := h.cells.nodup_iff.mpr hnodup
    exact (nodup_append.mp (nodup_append.mp hcells).2.1).1
  have hlaidkeys : KeysNodup laidKey laid := by
    refine List.Nodup.map_on (fun c hc c' hc' heq => ?_) hlaidnodup
    obtain ⟨htool, key, hkey, -⟩ := laysOver_tool (h.lays c hc).2
    exact hkeys c (h.lays c hc).1 c' (h.lays c' hc').1 htool (laysOver_tool (h.lays c' hc').2).1
      (by rw [hkey]; rfl) heq
  have hlaidheld : ∀ cell ∈ laid, ∃ key, cell.item.historyKey = some key ∧
      ∃ item ∈ (recorded.map (·.items)).getD [], item.transcriptKey = some key := by
    intro cell hcell
    obtain ⟨-, key, hkey, -, turn, hturn, item, hitem, heq⟩ := laysOver_tool (h.lays cell hcell).2
    refine ⟨key, hkey, item, ?_, heq⟩
    rw [hturn]
    exact hitem
  have hlookup : ∀ key, lookup (fun o : OverlayItem => o.historyKey) (some key)
      (laid.map (·.item)) =
      (lookup laidKey (some key) laid).map (·.item) :=
    fun key => lookup_map_key (fun _ => rfl) _ _
  refine ⟨es.map (Entry.lay laid) ++ trailing.map Entry.own, ⟨⟨route, ?_⟩, ?_, ?_⟩, ?_⟩
  · -- the rows are laid over, and nothing is laid over a notice
    unfold buildDisplayTurn
    dsimp only
    rw [h.items, h.laidCells, h.trail, map_append, map_map, map_map, map_map]
    congr 1
    refine map_congr_left fun e he => ?_
    cases e with
    | row item laidCell =>
      cases laidCell with
      | some cell => exact absurd he (h.plain item cell)
      | none =>
        simp only [Function.comp_apply, Entry.render, Entry.lay, hlookup]
        cases hkey : item.transcriptKey with
        | none => rfl
        | some key =>
          simp only [Option.bind_some]
          cases hl : lookup laidKey (some key) laid with
          | none => rfl
          | some cell =>
            have hcell := mem_of_lookup hl
            obtain ⟨htool, k, hk, hne, turn, hturn, -⟩ := laysOver_tool (h.lays cell hcell).2
            have hitem : item ∈ (recorded.map (·.items)).getD [] := by
              rw [← h.rows]
              exact mem_filterMap.mpr ⟨_, he, rfl⟩
            rw [hturn] at hitem
            have hover : laidKey cell = some key := key_of_lookup hl
            obtain rfl : k = key := Option.some.inj (hk.symm.trans hover)
            have hdone := open_of_not_covered (hopen cell (h.lays cell hcell).1) htool hk hne
              (hrecorded turn hturn) hitem hkey
            simp [hdone]
    | own cell =>
      obtain ⟨hcell, hkind⟩ := h.notices cell he
      simp only [Function.comp_apply, Entry.render, Entry.lay, overlayDisplayItem_key, hlookup]
      cases hkey : cell.item.item.transcriptKey with
      | none => rfl
      | some key =>
        simp only [Option.bind_some]
        cases hl : lookup laidKey (some key) laid with
        | none => rfl
        | some above =>
          have hover := mem_of_lookup hl
          obtain ⟨-, k, hk, -, turn, hturn, item, hitem, heq⟩ := laysOver_tool (h.lays above hover).2
          have hsame : laidKey above = some key := key_of_lookup hl
          obtain rfl : k = key := Option.some.inj (hk.symm.trans hsame)
          refine absurd ?_ (unrecorded_of_not_covered (hopen cell hcell) hkind
            (hrecorded turn hturn) hitem)
          simp only [itemIdentity, wireIdentity, heq, hkey, Option.getD_some]
  · rw [filterMap_append, filterMap_map, filterMap_map]
    have hown : trailing.filterMap (Entry.recorded ∘ Entry.own) = [] :=
      filterMap_eq_nil_iff.mpr fun _ _ => rfl
    rw [hown, append_nil, ← h.rows]
    exact filterMap_congr fun e _ => lay_recorded laid e
  · intro item cell hmem
    rcases mem_append.mp hmem with hmem | hmem
    · obtain ⟨e, he, heq⟩ := mem_map.mp hmem
      cases e with
      | own c => cases heq
      | row i laidCell =>
        simp only [Entry.lay, Entry.row.injEq] at heq
        obtain ⟨rfl, hl⟩ := heq
        obtain ⟨key, hkey, hl⟩ := Option.bind_eq_some_iff.mp hl
        have hk : laidKey cell = some key := key_of_lookup hl
        exact ⟨(laysOver_tool (h.lays cell (mem_of_lookup hl)).2).1,
          Option.isSome_iff_exists.mpr ⟨key, hk⟩, hkey.trans hk.symm⟩
    · obtain ⟨c, -, heq⟩ := mem_map.mp hmem
      cases heq
  · have hown : (trailing.map Entry.own).filterMap Entry.overlay = trailing := by
      rw [filterMap_map]
      exact (filterMap_congr fun _ _ => rfl).trans filterMap_some
    have hrows := lay_overlay laid h.plain
    rw [h.rows] at hrows
    have hlaid := (hrows.trans ((perm_laid hitems hlaidkeys hlaidheld).append_left _))
    rw [filterMap_append, hown]
    refine (hlaid.append_right trailing).trans ?_
    rw [append_assoc]
    exact h.cells

end Evener.Transcript
