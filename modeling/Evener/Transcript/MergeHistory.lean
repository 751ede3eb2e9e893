/-
  The versioned merge of recorded turns (`transcriptHistory.ts`: `itemsBefore`, `supersedes`,
  `splitWireTurns`, `wireFragment`, `mergeHistory`, `earliestPosition`, `fragmentRange`,
  `dropItemsInRange`).

  The source returns its argument itself when no row changed anything, and callers test that by
  reference: `Merging.changed` is that answer. What holds after any merge is derived from
  `mergeTurnRow_cases` and `mergeItemRow_cases`, row by row.
-/
import Mathlib.Data.List.Sort
import Evener.Lib.KeyedList
import Evener.Lib.UpperBound
import Evener.Lib.Versioned
import Evener.Transcript.Items

namespace Evener.Transcript

open Evener.Lib

/-- Where a turn sits: its first item's position, or the entry its version names. -/
def turnPosition (turn : TurnModel) : Option ThreadItemPosition :=
  (turn.items.head?.bind (·.position)).or
    (turn.version.map fun version => { entry := version, item := 0 })

/-- The index a new item at `position` is inserted at. -/
def itemsBefore (items : List ItemModel) (position : Option ThreadItemPosition) : Nat :=
  upperBound (fun item => decide (PosLe item.position position)) items

/-- The higher version wins; a held row without a version always yields. -/
def supersedes (held incoming : Option Nat) : Bool :=
  match held, incoming with
  | none, _ => true
  | some held, some incoming => incoming > held
  | some _, none => false

/-- Turn scalars, and the items that came with them. -/
structure HistoryFragment where
  turns : List TurnScalars
  items : List ItemModel
deriving DecidableEq, Repr

/-- Flattens wire turns. An item without its own turn id belongs to the turn carrying it. -/
def splitWireTurns (turns : List Turn) (imageSessionRoute : Option String) :
    HistoryFragment where
  turns := turns.map wireToTurnScalars
  items := turns.flatMap fun turn => (turn.items.getD []).map fun wire =>
    let item := wireItemToModel wire imageSessionRoute
    if item.turnId = "" then { item with turnId := turn.id } else item

def wireFragment (turns : Option (List Turn)) (items : Option (List ThreadItem))
    (imageSessionRoute : Option String) : HistoryFragment where
  turns := (turns.getD []).map wireToTurnScalars
  items := (items.getD []).map fun item => wireItemToModel item imageSessionRoute

/-! ## The merge -/

/-- The loop state of `mergeHistory`: the map by turn id, and whether a row changed it. -/
structure Merging where
  changed : Bool
  byId : List TurnModel

/-- What the map is keyed by. -/
abbrev turnKey (turn : TurnModel) : String := turn.id

/-- `new Map(turns.map((turn) => [turn.id, turn]))`. -/
def turnsById (turns : List TurnModel) : List TurnModel :=
  turns.foldl (fun byId turn => put turnKey turn byId) []

/-- The turn minted for an item that arrives before its turn. -/
def placeholderTurn (id : String) : TurnScalars := { id := id, status := "inProgress" }

def mergeTurnRow (heldOnly : Bool) (m : Merging) (incoming : TurnScalars) : Merging :=
  if incoming.id = "" then m
  else
    match lookup turnKey incoming.id m.byId with
    | some held =>
      if supersedes held.version incoming.version then
        ⟨true, put turnKey ⟨incoming, held.items⟩ m.byId⟩
      else m
    | none =>
      if heldOnly then m
      else ⟨true, put turnKey ⟨incoming, []⟩ m.byId⟩

/-- The held turn an item row joins, or the placeholder it mints. -/
def turnForItem (m : Merging) (incoming : ItemModel) : TurnModel :=
  (lookup turnKey incoming.turnId m.byId).getD
    ⟨placeholderTurn incoming.turnId, []⟩

/-- An equal-version body replaces a held row that carries identity only. -/
def identityUpgrade (held incoming : ItemModel) : Bool :=
  held.version = incoming.version && itemIsIdentityOnly held && !itemIsIdentityOnly incoming

def mergeItemRow (heldOnly : Bool) (m : Merging) (incoming : ItemModel) : Merging :=
  if incoming.turnId = "" then m
  else if (lookup turnKey incoming.turnId m.byId).isNone ∧ heldOnly then m
  else
    let turn := turnForItem m incoming
    match lookup itemIdentity (itemIdentity incoming) turn.items with
    | some heldItem =>
      if supersedes heldItem.version incoming.version || identityUpgrade heldItem incoming then
        ⟨true, put turnKey
          { turn with items := put itemIdentity (mergeReplacedItem heldItem incoming) turn.items }
          m.byId⟩
      else m
    | none =>
      if heldOnly then m
      else
        ⟨true, put turnKey
          { turn with
            items := insertAt (itemsBefore turn.items incoming.position) incoming turn.items }
          m.byId⟩

/-- Both row loops of `mergeHistory`. -/
def mergeRows (turns : List TurnModel) (fragment : HistoryFragment) (heldOnly : Bool) : Merging :=
  fragment.items.foldl (mergeItemRow heldOnly)
    (fragment.turns.foldl (mergeTurnRow heldOnly) ⟨false, turnsById turns⟩)

/-- The order turns are shown in. -/
def TurnLe (left right : TurnModel) : Prop := PosLe (turnPosition left) (turnPosition right)

instance : DecidableRel TurnLe := fun _ _ => inferInstanceAs (Decidable (PosLe _ _))

/-- Merges a fragment into recorded turns by version; with `heldOnly`, only into rows already
    held. -/
def mergeHistory (turns : List TurnModel) (fragment : HistoryFragment) (heldOnly : Bool := false) :
    List TurnModel :=
  let m := mergeRows turns fragment heldOnly
  if m.changed then m.byId.insertionSort TurnLe else turns

/-- Whether `mergeHistory` returns another array than its argument. -/
def mergeHistoryChanges (turns : List TurnModel) (fragment : HistoryFragment) : Bool :=
  (mergeRows turns fragment false).changed

/-! ## Ranges -/

def earliestPosition (turns : List TurnModel) : Option ThreadItemPosition :=
  turns.foldl (fun earliest turn =>
    match turn.items.head?.bind (·.position), earliest with
    | some position, none => some position
    | some position, some held =>
      if comparePositions (some position) (some held) < 0 then some position else some held
    | none, held => held) none

def fragmentRange (items : List ItemModel) : Option (ThreadItemPosition × ThreadItemPosition) :=
  items.foldl (fun range item =>
    match item.position, range with
    | some position, none => some (position, position)
    | some position, some (first, last) =>
      some (if comparePositions (some position) (some first) < 0 then position else first,
        if comparePositions (some position) (some last) > 0 then position else last)
    | none, held => held) none

def inRange (start : ThreadItemPosition) (stop : Option ThreadItemPosition)
    (position : Option ThreadItemPosition) : Bool :=
  position.isSome && comparePositions position (some start) ≥ 0 &&
    (stop.isNone || comparePositions position stop ≤ 0)

/-- Drops the held items of a range (`stop = none`: through the end of history), and the turns
    that lose all their items. -/
def dropItemsInRange (turns : List TurnModel) (start : ThreadItemPosition)
    (stop : Option ThreadItemPosition := none) : List TurnModel :=
  turns.filterMap fun turn =>
    let items := turn.items.filter fun item => !inRange start stop item.position
    if items.length = turn.items.length then some turn
    else if items.length > 0 then some { turn with items := items }
    else none

/-! ## Supersession -/

theorem versionLe_of_supersedes {held incoming : Option Nat} (h : supersedes held incoming) :
    VersionLe held incoming := by
  cases held with
  | none => exact versionLe_none _
  | some v =>
    cases incoming with
    | none => simp [supersedes] at h
    | some w =>
      have : v < w := by simpa [supersedes] using h
      exact versionLe_some.mpr (Nat.le_of_lt this)

theorem versionLe_of_not_supersedes {held incoming : Option Nat}
    (h : supersedes held incoming = false) : VersionLe incoming held := by
  cases held with
  | none => simp [supersedes] at h
  | some v =>
    cases incoming with
    | none => exact versionLe_none _
    | some w =>
      have : ¬ v < w := by simpa [supersedes] using h
      exact versionLe_some.mpr (Nat.le_of_not_lt this)

theorem versionLe_of_identityUpgrade {held incoming : ItemModel}
    (h : identityUpgrade held incoming) : VersionLe held.version incoming.version := by
  have hv : held.version = incoming.version := by
    simp only [identityUpgrade, Bool.and_eq_true, decide_eq_true_eq] at h
    exact h.1.1
  rw [hv]
  exact versionLe_refl _

/-! ## One row -/

/-- Everything a turn row can do. -/
theorem mergeTurnRow_cases (heldOnly : Bool) (m : Merging) (r : TurnScalars) :
    (mergeTurnRow heldOnly m r = m ∧
      (r.id = "" ∨ (lookup turnKey r.id m.byId = none ∧ heldOnly = true) ∨
        ∃ held, lookup turnKey r.id m.byId = some held ∧
          supersedes held.version r.version = false)) ∨
    (r.id ≠ "" ∧ ∃ items, mergeTurnRow heldOnly m r = ⟨true, put turnKey ⟨r, items⟩ m.byId⟩ ∧
      ((lookup turnKey r.id m.byId = none ∧ heldOnly = false ∧ items = []) ∨
        ∃ held, lookup turnKey r.id m.byId = some held ∧ items = held.items ∧
          supersedes held.version r.version = true)) := by
  unfold mergeTurnRow
  by_cases hid : r.id = ""
  · rw [if_pos hid]
    exact Or.inl ⟨rfl, Or.inl hid⟩
  · rw [if_neg hid]
    cases hl : lookup turnKey r.id m.byId with
    | none =>
      cases heldOnly with
      | true => exact Or.inl ⟨rfl, Or.inr (Or.inl ⟨rfl, rfl⟩)⟩
      | false => exact Or.inr ⟨hid, [], rfl, Or.inl ⟨rfl, rfl, rfl⟩⟩
    | some held =>
      cases hs : supersedes held.version r.version with
      | true =>
        refine Or.inr ⟨hid, held.items, ?_, Or.inr ⟨held, rfl, rfl, hs⟩⟩
        simp [hs]
      | false =>
        refine Or.inl ⟨?_, Or.inr (Or.inr ⟨held, rfl, hs⟩)⟩
        simp [hs]

/-- How an item row edits the items of its turn. -/
inductive ItemEdit (items : List ItemModel) (incoming : ItemModel) : List ItemModel → Prop where
  | insert (hnew : lookup itemIdentity (itemIdentity incoming) items = none) :
      ItemEdit items incoming (insertAt (itemsBefore items incoming.position) incoming items)
  | replace (held : ItemModel) (hheld : lookup itemIdentity (itemIdentity incoming) items = some held)
      (hnewer : supersedes held.version incoming.version ∨ identityUpgrade held incoming) :
      ItemEdit items incoming (put itemIdentity (mergeReplacedItem held incoming) items)

/-- Everything an item row can do. -/
theorem mergeItemRow_cases (heldOnly : Bool) (m : Merging) (r : ItemModel) :
    (mergeItemRow heldOnly m r = m ∧
      (r.turnId = "" ∨ heldOnly = true ∨
        ∃ turn held, lookup turnKey r.turnId m.byId = some turn ∧
          lookup itemIdentity (itemIdentity r) turn.items = some held ∧
          supersedes held.version r.version = false ∧ identityUpgrade held r = false)) ∨
    (r.turnId ≠ "" ∧ ∃ items, ItemEdit (turnForItem m r).items r items ∧
      mergeItemRow heldOnly m r =
        ⟨true, put turnKey { turnForItem m r with items := items } m.byId⟩) := by
  unfold mergeItemRow
  by_cases hid : r.turnId = ""
  · rw [if_pos hid]
    exact Or.inl ⟨rfl, Or.inl hid⟩
  · rw [if_neg hid]
    split
    · next hh => exact Or.inl ⟨rfl, Or.inr (Or.inl hh.2)⟩
    · dsimp only
      cases hl : lookup itemIdentity (itemIdentity r) (turnForItem m r).items with
      | none =>
        cases heldOnly with
        | true => exact Or.inl ⟨rfl, Or.inr (Or.inl rfl)⟩
        | false => exact Or.inr ⟨hid, _, .insert hl, rfl⟩
      | some held =>
        dsimp only
        split
        · next hs => exact Or.inr ⟨hid, _, .replace held hl (by simpa using hs), rfl⟩
        · next hs =>
          have hs : supersedes held.version r.version = false ∧ identityUpgrade held r = false := by
            simpa using hs
          refine Or.inl ⟨rfl, Or.inr (Or.inr ⟨turnForItem m r, held, ?_, hl, hs⟩)⟩
          cases ht : lookup turnKey r.turnId m.byId with
          | none => simp [turnForItem, ht] at hl
          | some turn => simp [turnForItem, ht]

variable {id : String} {r i : ItemModel} {m : Merging} {heldOnly : Bool} {turns : List TurnModel}

theorem id_of_lookup {byId : List TurnModel} {turn : TurnModel}
    (h : lookup turnKey id byId = some turn) : turn.id = id := by
  have : turnKey turn = id := key_of_lookup h
  exact this

theorem turnForItem_id (m : Merging) (r : ItemModel) : (turnForItem m r).id = r.turnId := by
  unfold turnForItem
  cases hl : lookup turnKey r.turnId m.byId with
  | none => rfl
  | some turn => exact id_of_lookup hl

theorem turnForItem_mem (h : i ∈ (turnForItem m r).items) : turnForItem m r ∈ m.byId := by
  unfold turnForItem at h ⊢
  cases hl : lookup turnKey r.turnId m.byId with
  | none => simp [hl] at h
  | some turn => exact mem_of_lookup hl

/-! ## Rows and whole merges

A property of the map that both kinds of row keep is kept by the loops, and one that the map's
order does not decide is kept by the merge. -/

theorem mergeRows_induction {P : List TurnModel → Prop} (turns : List TurnModel)
    (fragment : HistoryFragment) (heldOnly : Bool)
    (hstart : P (turnsById turns))
    (hturn : ∀ m r, r ∈ fragment.turns → P m.byId → P (mergeTurnRow heldOnly m r).byId)
    (hitem : ∀ m r, r ∈ fragment.items → P m.byId → P (mergeItemRow heldOnly m r).byId) :
    P (mergeRows turns fragment heldOnly).byId := by
  have hturns : P (fragment.turns.foldl (mergeTurnRow heldOnly) ⟨false, turnsById turns⟩).byId := by
    refine List.foldlRecOn (motive := fun m => P m.byId) _ _ ?_ fun m hm r hr => hturn m r hr hm
    exact hstart
  unfold mergeRows
  exact List.foldlRecOn (motive := fun m => P m.byId) _ _ hturns fun m hm r hr => hitem m r hr hm

/-- A row that leaves `changed` false left the map alone, and one that sets it never clears
    it. -/
theorem mergeTurnRow_changed {r : TurnScalars} (h : (mergeTurnRow heldOnly m r).changed = false) :
    mergeTurnRow heldOnly m r = m := by
  rcases mergeTurnRow_cases heldOnly m r with ⟨heq, -⟩ | ⟨-, items, heq, -⟩
  · exact heq
  · rw [heq] at h
    cases h

theorem mergeItemRow_changed (h : (mergeItemRow heldOnly m r).changed = false) :
    mergeItemRow heldOnly m r = m := by
  rcases mergeItemRow_cases heldOnly m r with ⟨heq, -⟩ | ⟨-, items, -, heq⟩
  · exact heq
  · rw [heq] at h
    cases h

theorem foldl_unchanged {ρ : Type} {step : Merging → ρ → Merging}
    (hstep : ∀ m r, (step m r).changed = false → step m r = m) (rows : List ρ) (m : Merging)
    (h : (rows.foldl step m).changed = false) : rows.foldl step m = m := by
  induction rows generalizing m with
  | nil => rfl
  | cons r rows ih =>
    rw [List.foldl_cons] at h ⊢
    have htail := ih (step m r) h
    rw [htail] at h ⊢
    exact hstep m r h

theorem mergeRows_unchanged (turns : List TurnModel) (fragment : HistoryFragment)
    (heldOnly : Bool) (h : (mergeRows turns fragment heldOnly).changed = false) :
    (mergeRows turns fragment heldOnly).byId = turnsById turns := by
  unfold mergeRows at h ⊢
  have hitems := foldl_unchanged (fun m r => mergeItemRow_changed) _ _ h
  rw [hitems] at h ⊢
  rw [foldl_unchanged (fun m r => mergeTurnRow_changed) _ _ h]

theorem turnsById_eq (h : KeysNodup turnKey turns) : turnsById turns = turns := by
  have hgen : ∀ (l acc : List TurnModel), KeysNodup turnKey (acc ++ l) →
      l.foldl (fun byId turn => put turnKey turn byId) acc = acc ++ l := by
    intro l
    induction l with
    | nil => simp
    | cons t l ih =>
      intro acc hacc
      have hput : put turnKey t acc = acc ++ [t] := by
        refine put_eq_append fun u hu heq => ?_
        have hnd := List.nodup_append.mp (by simpa [KeysNodup] using hacc)
        exact hnd.2.2 _ (List.mem_map_of_mem hu) _ List.mem_cons_self heq
      rw [List.foldl_cons, hput, ih (acc ++ [t]) (by simpa using hacc)]
      simp
  simpa [turnsById] using hgen turns [] (by simpa using h)

theorem keysNodup_turnsById (turns : List TurnModel) : KeysNodup turnKey (turnsById turns) := by
  unfold turnsById
  exact List.foldlRecOn (motive := KeysNodup turnKey) _ _ keysNodup_nil
    fun byId h turn _ => keysNodup_put h turn

theorem mem_of_mem_turnsById {t : TurnModel} (h : t ∈ turnsById turns) : t ∈ turns := by
  have hgen : ∀ u ∈ turnsById turns, u ∈ turns := by
    unfold turnsById
    refine List.foldlRecOn (motive := fun byId => ∀ u ∈ byId, u ∈ turns) _ _ ?_ ?_
    · intro u hu
      cases hu
    · intro byId hby turn hturn u hu
      rcases mem_of_mem_put hu with rfl | hu
      · exact hturn
      · exact hby u hu
  exact hgen t h

theorem keysNodup_mergeTurnRow (r : TurnScalars) (h : KeysNodup turnKey m.byId) :
    KeysNodup turnKey (mergeTurnRow heldOnly m r).byId := by
  rcases mergeTurnRow_cases heldOnly m r with ⟨heq, -⟩ | ⟨-, items, heq, -⟩
  · rw [heq]
    exact h
  · rw [heq]
    exact keysNodup_put h _

theorem keysNodup_mergeItemRow (r : ItemModel) (h : KeysNodup turnKey m.byId) :
    KeysNodup turnKey (mergeItemRow heldOnly m r).byId := by
  rcases mergeItemRow_cases heldOnly m r with ⟨heq, -⟩ | ⟨-, items, -, heq⟩
  · rw [heq]
    exact h
  · rw [heq]
    exact keysNodup_put h _

/-- The merge holds the turns of the map its rows leave. -/
theorem mergeHistory_perm (h : KeysNodup turnKey turns) (fragment : HistoryFragment)
    (heldOnly : Bool) :
    (mergeHistory turns fragment heldOnly).Perm (mergeRows turns fragment heldOnly).byId := by
  unfold mergeHistory
  dsimp only
  split
  · exact List.perm_insertionSort _ _
  · next hch =>
    have hstay := mergeRows_unchanged turns fragment heldOnly (by simpa using hch)
    rw [hstay, turnsById_eq h]

theorem keysNodup_mergeHistory (h : KeysNodup turnKey turns) (fragment : HistoryFragment)
    (heldOnly : Bool) : KeysNodup turnKey (mergeHistory turns fragment heldOnly) := by
  refine KeysNodup.perm ?_ (mergeHistory_perm h fragment heldOnly).symm
  exact mergeRows_induction turns fragment heldOnly (keysNodup_turnsById turns)
    (fun m r _ hm => keysNodup_mergeTurnRow r hm) (fun m r _ hm => keysNodup_mergeItemRow r hm)

/-! ## Where merged items come from -/

/-- `i` is row `r` of the same turn, in the same version. -/
def SameRow (r i : ItemModel) : Prop :=
  r.turnId = i.turnId ∧ itemIdentity r = itemIdentity i ∧ r.version = i.version

theorem ItemEdit.mem_from {items items' : List ItemModel} (h : ItemEdit items r items')
    (hi : i ∈ items') : i ∈ items ∨ SameRow r i := by
  cases h with
  | insert hnew =>
    rcases mem_insertAt.mp hi with rfl | hi
    · exact Or.inr ⟨rfl, rfl, rfl⟩
    · exact Or.inl hi
  | replace held hheld hnewer =>
    rcases mem_of_mem_put hi with rfl | hi
    · exact Or.inr ⟨by simp, by simp, by simp⟩
    · exact Or.inl hi

/-- An item of a turn: the row and the turn that holds it. -/
def HoldsItem (turns : List TurnModel) (id : String) (i : ItemModel) : Prop :=
  ∃ t ∈ turns, t.id = id ∧ i ∈ t.items

theorem mergeTurnRow_holdsItem {r : TurnScalars}
    (h : HoldsItem (mergeTurnRow heldOnly m r).byId id i) : HoldsItem m.byId id i := by
  rcases mergeTurnRow_cases heldOnly m r with ⟨heq, -⟩ | ⟨-, items, heq, hfrom⟩
  · rw [heq] at h
    exact h
  · rw [heq] at h
    obtain ⟨t, ht, rfl, hi⟩ := h
    rcases mem_of_mem_put ht with rfl | ht
    · rcases hfrom with ⟨-, -, rfl⟩ | ⟨held, hl, rfl, -⟩
      · cases hi
      · exact ⟨held, mem_of_lookup hl, id_of_lookup hl, hi⟩
    · exact ⟨t, ht, rfl, hi⟩

theorem mergeItemRow_holdsItem (h : HoldsItem (mergeItemRow heldOnly m r).byId id i) :
    HoldsItem m.byId id i ∨ (r.turnId = id ∧ SameRow r i) := by
  rcases mergeItemRow_cases heldOnly m r with ⟨heq, -⟩ | ⟨-, items, hedit, heq⟩
  · rw [heq] at h
    exact Or.inl h
  · rw [heq] at h
    obtain ⟨t, ht, rfl, hi⟩ := h
    rcases mem_of_mem_put ht with rfl | ht
    · rcases hedit.mem_from hi with hi | hsame
      · exact Or.inl ⟨turnForItem m r, turnForItem_mem hi, rfl, hi⟩
      · exact Or.inr ⟨(turnForItem_id m r).symm, hsame⟩
    · exact Or.inl ⟨t, ht, rfl, hi⟩

/-- Every item of a merge was held, or came (in its current version) with the fragment. -/
theorem mergeHistory_item_from {fragment : HistoryFragment}
    (h : HoldsItem (mergeHistory turns fragment heldOnly) id i) :
    HoldsItem turns id i ∨ ∃ r ∈ fragment.items, r.turnId = id ∧ SameRow r i := by
  have hmap : ∀ id i, HoldsItem (turnsById turns) id i → HoldsItem turns id i := by
    intro id i ⟨t, ht, hid, hi⟩
    exact ⟨t, mem_of_mem_turnsById ht, hid, hi⟩
  have hrows := mergeRows_induction
    (P := fun byId => ∀ id i, HoldsItem byId id i →
      HoldsItem turns id i ∨ ∃ r ∈ fragment.items, r.turnId = id ∧ SameRow r i)
    turns fragment heldOnly
    (fun id i h => Or.inl (hmap id i h))
    (fun m r _ hm id i h => hm id i (mergeTurnRow_holdsItem h))
    (fun m r hr hm id i h => by
      rcases mergeItemRow_holdsItem h with h | ⟨hid, hsame⟩
      · exact hm id i h
      · exact Or.inr ⟨r, hr, hid, hsame⟩)
  unfold mergeHistory at h
  dsimp only at h
  split at h
  · obtain ⟨t, ht, hid, hi⟩ := h
    exact hrows id i ⟨t, (List.perm_insertionSort _ _).mem_iff.mp ht, hid, hi⟩
  · exact Or.inl h

/-! ## A merge never removes -/

/-- Every turn and item of `turns` is still there in `turns'`, in no lower version. -/
def Extends (turns turns' : List TurnModel) : Prop :=
  ∀ t ∈ turns, ∃ t' ∈ turns', t'.id = t.id ∧ VersionLe t.version t'.version ∧
    ∀ i ∈ t.items, ∃ i' ∈ t'.items,
      itemIdentity i' = itemIdentity i ∧ VersionLe i.version i'.version

theorem extends_refl (turns : List TurnModel) : Extends turns turns :=
  fun t ht => ⟨t, ht, rfl, versionLe_refl _, fun i hi => ⟨i, hi, rfl, versionLe_refl _⟩⟩

theorem extends_trans {a b c : List TurnModel} (hab : Extends a b) (hbc : Extends b c) :
    Extends a c := by
  intro t ht
  obtain ⟨t', ht', hid', hv', hi'⟩ := hab t ht
  obtain ⟨t'', ht'', hid'', hv'', hi''⟩ := hbc t' ht'
  refine ⟨t'', ht'', hid''.trans hid', versionLe_trans hv' hv'', fun i hi => ?_⟩
  obtain ⟨j, hj, hji, hjv⟩ := hi' i hi
  obtain ⟨k, hk, hki, hkv⟩ := hi'' j hj
  exact ⟨k, hk, hki.trans hji, versionLe_trans hjv hkv⟩

theorem extends_of_perm {a b : List TurnModel} (h : a.Perm b) : Extends a b :=
  fun t ht => ⟨t, h.mem_iff.mp ht, rfl, versionLe_refl _, fun i hi => ⟨i, hi, rfl, versionLe_refl _⟩⟩

/-- Putting a turn extends the map when it extends whatever the map held under its id. -/
theorem extends_put {byId : List TurnModel} {turn : TurnModel}
    (hext : ∀ held ∈ byId, held.id = turn.id → VersionLe held.version turn.version ∧
      ∀ i ∈ held.items, ∃ i' ∈ turn.items,
        itemIdentity i' = itemIdentity i ∧ VersionLe i.version i'.version) :
    Extends byId (put turnKey turn byId) := by
  intro t ht
  by_cases hid : t.id = turn.id
  · obtain ⟨hv, hi⟩ := hext t ht hid
    exact ⟨turn, mem_put_self _ _, hid.symm, hv, hi⟩
  · exact ⟨t, mem_put_of_ne ht hid, rfl, versionLe_refl _, fun i hi => ⟨i, hi, rfl, versionLe_refl _⟩⟩

theorem mergeTurnRow_extends (h : KeysNodup turnKey m.byId) (r : TurnScalars) :
    Extends m.byId (mergeTurnRow heldOnly m r).byId := by
  rcases mergeTurnRow_cases heldOnly m r with ⟨heq, -⟩ | ⟨-, items, heq, hfrom⟩
  · rw [heq]
    exact extends_refl _
  · rw [heq]
    refine extends_put fun held hheld hid => ?_
    have hl : lookup turnKey r.id m.byId = some held := (lookup_eq_some h).mpr ⟨hheld, hid⟩
    rcases hfrom with ⟨hnone, -⟩ | ⟨held', hl', rfl, hs⟩
    · rw [hnone] at hl
      cases hl
    · rw [hl'] at hl
      cases hl
      exact ⟨versionLe_of_supersedes hs, fun i hi => ⟨i, hi, rfl, versionLe_refl _⟩⟩

theorem ItemEdit.extends {items items' : List ItemModel} (h : ItemEdit items r items')
    (hi : i ∈ items) :
    ∃ i' ∈ items', itemIdentity i' = itemIdentity i ∧ VersionLe i.version i'.version := by
  cases h with
  | insert hnew => exact ⟨i, mem_insertAt.mpr (Or.inr hi), rfl, versionLe_refl _⟩
  | replace held hheld hnewer =>
    have hkept : i ∈ put itemIdentity (mergeReplacedItem held r) items ∨
        lookup itemIdentity (itemIdentity (mergeReplacedItem held r)) items = some i :=
      mem_put_or_lookup hi _
    rcases hkept with hmem | hl
    · exact ⟨i, hmem, rfl, versionLe_refl _⟩
    · rw [mergeReplacedItem_identity, hheld] at hl
      obtain rfl := Option.some.inj hl
      refine ⟨mergeReplacedItem held r, mem_put_self _ _, ?_, ?_⟩
      · rw [mergeReplacedItem_identity]
        exact (key_of_lookup hheld).symm
      · rw [mergeReplacedItem_version]
        exact hnewer.elim versionLe_of_supersedes versionLe_of_identityUpgrade

theorem mergeItemRow_extends (h : KeysNodup turnKey m.byId) (r : ItemModel) :
    Extends m.byId (mergeItemRow heldOnly m r).byId := by
  rcases mergeItemRow_cases heldOnly m r with ⟨heq, -⟩ | ⟨-, items, hedit, heq⟩
  · rw [heq]
    exact extends_refl _
  · rw [heq]
    refine extends_put fun held hheld hid => ?_
    have hl : lookup turnKey r.turnId m.byId = some held :=
      (lookup_eq_some h).mpr ⟨hheld, hid.trans (turnForItem_id m r)⟩
    have hturn : turnForItem m r = held := by
      unfold turnForItem
      rw [hl]
      rfl
    rw [hturn] at hedit ⊢
    exact ⟨versionLe_refl _, fun i hi => hedit.extends hi⟩

/-- No merge removes a turn or an item, or lowers a version. -/
theorem mergeHistory_extends (h : KeysNodup turnKey turns) (fragment : HistoryFragment)
    (heldOnly : Bool) : Extends turns (mergeHistory turns fragment heldOnly) := by
  have hrows := mergeRows_induction (P := fun byId => KeysNodup turnKey byId ∧ Extends turns byId)
    turns fragment heldOnly
    (by rw [turnsById_eq h]; exact ⟨h, extends_refl _⟩)
    (fun m r _ hm =>
      ⟨keysNodup_mergeTurnRow r hm.1, extends_trans hm.2 (mergeTurnRow_extends hm.1 r)⟩)
    (fun m r _ hm =>
      ⟨keysNodup_mergeItemRow r hm.1, extends_trans hm.2 (mergeItemRow_extends hm.1 r)⟩)
  exact extends_trans hrows.2 (extends_of_perm (mergeHistory_perm h fragment heldOnly).symm)

end Evener.Transcript
