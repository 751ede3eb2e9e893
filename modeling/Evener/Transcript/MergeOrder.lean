/-
  The merge does not depend on the order of delivery.

  `Represents delivered turns` says that `turns` is the newest of all turn rows and item rows
  delivered so far. One row keeps this, so a fragment does, and a run of fragments does. What
  represents a set of rows is determined by that set up to the order of ties
  (`Represents.sameTurns`).
-/
import Evener.Transcript.MergeHistory

namespace Evener.Transcript

open Evener.Lib
open List hiding lookup

/-! ## Delivered rows -/

/-- What names an item row besides its version. -/
def itemKey (item : ItemModel) : String × String := (item.turnId, itemIdentity item)

def HistoryFragment.append (d f : HistoryFragment) : HistoryFragment :=
  ⟨d.turns ++ f.turns, d.items ++ f.items⟩

/-- All rows of a list of fragments. -/
def deliveredRows (fragments : List HistoryFragment) : HistoryFragment :=
  ⟨fragments.flatMap (·.turns), fragments.flatMap (·.items)⟩

def SubRows (d d' : HistoryFragment) : Prop :=
  (∀ r ∈ d.turns, r ∈ d'.turns) ∧ ∀ i ∈ d.items, i ∈ d'.items

/-- The same rows, in any order, with any repetitions and cut into fragments in any way. -/
def SameRows (d d' : HistoryFragment) : Prop :=
  (∀ r, r ∈ d.turns ↔ r ∈ d'.turns) ∧ ∀ i, i ∈ d.items ↔ i ∈ d'.items

/-- Rows of one versioned source. -/
structure OneSource (d : HistoryFragment) : Prop where
  turns : VersionedSource (·.id) (·.version) d.turns
  items : VersionedSource itemKey (·.version) d.items
  full : ∀ i ∈ d.items, i.Full
  place : ∀ i ∈ d.items, ∀ j ∈ d.items, itemIdentity i = itemIdentity j →
    i.position = j.position ∧ i.turnId = j.turnId

variable {d' d f a c b : HistoryFragment} {turns turns' byId : List TurnModel} {turn t : TurnModel}
  {m : Merging} {r : ItemModel}

theorem OneSource.sub (h : OneSource d') (hsub : SubRows d d') :
    OneSource d where
  turns := h.turns.subset hsub.1
  items := h.items.subset hsub.2
  full := fun i hi => h.full i (hsub.2 i hi)
  place := fun i hi j hj => h.place i (hsub.2 i hi) j (hsub.2 j hj)

/-! ## What a merge represents -/

/-- `turn` is the newest of what was delivered for its id. -/
structure TurnRepresents (d : HistoryFragment) (turn : TurnModel) : Prop where
  newest : ∀ r ∈ d.turns, r.id = turn.id →
    IsNewest (·.id) (·.version) d.turns turn.toTurnScalars
  placeholder : (∀ r ∈ d.turns, r.id ≠ turn.id) → turn.toTurnScalars = placeholderTurn turn.id
  nodup : KeysNodup itemIdentity turn.items
  items : ∀ i, i ∈ turn.items ↔ i.turnId = turn.id ∧ IsNewest itemKey (·.version) d.items i
  sorted : turn.items.Pairwise fun a b => PosLe a.position b.position

/-- `id` is named by a delivered row. -/
def Names (d : HistoryFragment) (id : String) : Prop :=
  id ≠ "" ∧ ((∃ r ∈ d.turns, r.id = id) ∨ ∃ i ∈ d.items, i.turnId = id)

structure Represents (d : HistoryFragment) (turns : List TurnModel) : Prop where
  nodup : KeysNodup turnKey turns
  ids : ∀ id, (∃ t ∈ turns, t.id = id) ↔ Names d id
  each : ∀ t ∈ turns, TurnRepresents d t

theorem represents_nil : Represents ⟨[], []⟩ [] where
  nodup := keysNodup_nil
  ids := by simp [Names]
  each := by simp

theorem Represents.perm (h : Represents d turns) (hp : turns.Perm turns') :
    Represents d turns' where
  nodup := h.nodup.perm hp
  ids := fun id => by
    rw [← h.ids id]
    simp only [hp.mem_iff]
  each := fun t ht => h.each t (hp.mem_iff.mpr ht)

/-- The turn held under `id`, or the placeholder. -/
def turnOrPlaceholder (byId : List TurnModel) (id : String) : TurnModel :=
  (lookup turnKey id byId).getD ⟨placeholderTurn id, []⟩

theorem turnOrPlaceholder_of_lookup {id : String} (h : lookup turnKey id byId = some turn) :
    turnOrPlaceholder byId id = turn := by
  unfold turnOrPlaceholder
  rw [h]
  rfl

theorem turnOrPlaceholder_id (byId : List TurnModel) (id : String) :
    (turnOrPlaceholder byId id).id = id := by
  unfold turnOrPlaceholder
  cases hl : lookup turnKey id byId with
  | none => rfl
  | some turn => exact id_of_lookup hl

/-- The placeholder represents an id nothing has named yet. -/
theorem Represents.turnRepresents (h : Represents d byId) {id : String} (hid : id ≠ "") :
    TurnRepresents d (turnOrPlaceholder byId id) := by
  cases hl : lookup turnKey id byId with
  | some turn =>
    rw [turnOrPlaceholder_of_lookup hl]
    exact h.each turn (mem_of_lookup hl)
  | none =>
    have hno : ¬ Names d id := by
      rw [← h.ids id]
      rintro ⟨t, ht, hti⟩
      exact lookup_eq_none.mp hl t ht hti
    have hturns : ∀ r ∈ d.turns, r.id ≠ id := fun r hr hri => hno ⟨hid, Or.inl ⟨r, hr, hri⟩⟩
    have hitems : ∀ i ∈ d.items, i.turnId ≠ id := fun i hi hii => hno ⟨hid, Or.inr ⟨i, hi, hii⟩⟩
    have heq : turnOrPlaceholder byId id = ⟨placeholderTurn id, []⟩ := by
      unfold turnOrPlaceholder
      rw [hl]
      rfl
    rw [heq]
    refine ⟨fun r hr hri => absurd hri (hturns r hr), fun _ => rfl, keysNodup_nil, fun i => ?_,
      List.Pairwise.nil⟩
    constructor
    · intro hi
      cases hi
    · rintro ⟨hii, hnew⟩
      exact absurd hii (hitems i hnew.1)

/-- Putting a turn that represents the new rows, when the others still do. -/
theorem Represents.put (h : Represents d byId) (hturn : TurnRepresents d' turn)
    (hids : ∀ id, Names d' id ↔ id = turn.id ∨ Names d id)
    (hothers : ∀ t ∈ byId, t.id ≠ turn.id → TurnRepresents d' t) :
    Represents d' (put turnKey turn byId) where
  nodup := keysNodup_put h.nodup turn
  ids := fun id => by
    rw [hids id, ← h.ids id]
    constructor
    · rintro ⟨t, ht, rfl⟩
      rcases mem_of_mem_put ht with rfl | ht
      · exact Or.inl rfl
      · exact Or.inr ⟨t, ht, rfl⟩
    · rintro (rfl | ⟨t, ht, rfl⟩)
      · exact ⟨turn, mem_put_self _ _, rfl⟩
      · by_cases hk : t.id = turn.id
        · exact ⟨turn, mem_put_self _ _, hk.symm⟩
        · exact ⟨t, mem_put_of_ne ht hk, rfl⟩
  each := fun t ht => by
    rcases (mem_put h.nodup).mp ht with rfl | ⟨ht, hk⟩
    · exact hturn
    · exact hothers t ht hk

/-! ## One turn row -/

theorem names_addTurn {r : TurnScalars} (id : String) :
    Names ⟨d.turns ++ [r], d.items⟩ id ↔ (id = r.id ∧ r.id ≠ "") ∨ Names d id := by
  simp only [Names, mem_append, mem_singleton]
  constructor
  · rintro ⟨hid, ⟨x, hx | rfl, rfl⟩ | hi⟩
    · exact Or.inr ⟨hid, Or.inl ⟨x, hx, rfl⟩⟩
    · exact Or.inl ⟨rfl, hid⟩
    · exact Or.inr ⟨hid, Or.inr hi⟩
  · rintro (⟨rfl, hid⟩ | ⟨hid, ⟨x, hx, rfl⟩ | hi⟩)
    · exact ⟨hid, Or.inl ⟨r, Or.inr rfl, rfl⟩⟩
    · exact ⟨hid, Or.inl ⟨x, Or.inl hx, rfl⟩⟩
    · exact ⟨hid, Or.inr hi⟩

/-- A turn row leaves a turn of another id alone. -/
theorem TurnRepresents.addTurn_of_ne (h : TurnRepresents d turn) {r : TurnScalars}
    (hr : r.id ≠ turn.id) :
    TurnRepresents ⟨d.turns ++ [r], d.items⟩ turn where
  newest := fun x hx hxid => by
    have hx' : x ∈ d.turns := by
      rcases mem_append.mp hx with hx | hx
      · exact hx
      · rw [mem_singleton.mp hx] at hxid
        exact absurd hxid hr
    exact (isNewest_append_of_ne hr).mpr (h.newest x hx' hxid)
  placeholder := fun hno => h.placeholder fun x hx => hno x (mem_append_left _ hx)
  nodup := h.nodup
  items := h.items
  sorted := h.sorted

/-- A held turn that does not yield to the row has the newest scalars already. -/
theorem TurnRepresents.addTurn_of_le (h : TurnRepresents d turn) {r : TurnScalars}
    (hr : r.id = turn.id) (hsrc : VersionedSource (·.id) (·.version) (d.turns ++ [r]))
    (hs : supersedes turn.version r.version = false) :
    TurnRepresents ⟨d.turns ++ [r], d.items⟩ turn := by
  have hheld : ∃ x ∈ d.turns, x.id = turn.id := by
    by_contra hno
    -- a placeholder has no version, and yields to every row
    have hph := h.placeholder fun x hx hxid => hno ⟨x, hx, hxid⟩
    have hv : turn.version = none := by rw [hph, placeholderTurn]
    rw [hv] at hs
    cases hs
  obtain ⟨x, hx, hxid⟩ := hheld
  have hnew := h.newest x hx hxid
  refine ⟨fun _ _ _ => ?_, fun hno => ?_, h.nodup, h.items, h.sorted⟩
  · exact (isNewest_append_of_le hsrc hnew hr (versionLe_of_not_supersedes hs) _).mpr hnew
  · exact absurd hxid (hno x (mem_append_left _ hx))

/-- A row that supersedes the held scalars takes their place. -/
theorem TurnRepresents.addTurn_put (h : TurnRepresents d turn) {r : TurnScalars}
    (hr : r.id = turn.id) (hs : supersedes turn.version r.version = true) :
    TurnRepresents ⟨d.turns ++ [r], d.items⟩ ⟨r, turn.items⟩ where
  newest := fun _ _ _ => isNewest_append_self fun x hx hxid =>
    versionLe_trans ((h.newest x hx (hxid.trans hr)).2 x hx (hxid.trans hr))
      (versionLe_of_supersedes hs)
  placeholder := fun hno => absurd rfl (hno r (mem_append_right _ (mem_singleton.mpr rfl)))
  nodup := h.nodup
  items := fun i => by
    rw [h.items i]
    exact and_congr_left' (by rw [hr])
  sorted := h.sorted

theorem represents_mergeTurnRow {r : TurnScalars} (h : Represents d m.byId)
    (hsrc : OneSource ⟨d.turns ++ [r], d.items⟩) :
    Represents ⟨d.turns ++ [r], d.items⟩ (mergeTurnRow false m r).byId := by
  rcases mergeTurnRow_cases false m r with ⟨heq, hwhy⟩ | ⟨hid, items, heq, hwhy⟩
  · rw [heq]
    rcases hwhy with hid | ⟨-, hfalse⟩ | ⟨held, hl, hs⟩
    · -- a row without an id is skipped, and no held turn has that id
      refine ⟨h.nodup, fun id => ?_, fun t ht => (h.each t ht).addTurn_of_ne ?_⟩
      · rw [names_addTurn, h.ids id]
        simp [hid]
      · have hne := ((h.ids t.id).mp ⟨t, ht, rfl⟩).1
        rw [hid]
        exact Ne.symm hne
    · cases hfalse
    · have hheld := mem_of_lookup hl
      have hhid := id_of_lookup hl
      refine ⟨h.nodup, fun id => ?_, fun t ht => ?_⟩
      · rw [names_addTurn, h.ids id]
        constructor
        · exact Or.inr
        · rintro (⟨rfl, -⟩ | hn)
          · exact (h.ids r.id).mp ⟨held, hheld, hhid⟩
          · exact hn
      · by_cases ht' : r.id = t.id
        · have : t = held := h.nodup.eq_of_key ht hheld (ht'.symm.trans hhid.symm)
          rw [this]
          exact (h.each held hheld).addTurn_of_le hhid.symm hsrc.turns hs
        · exact (h.each t ht).addTurn_of_ne ht'
  · rw [heq]
    have hrep := h.turnRepresents hid
    have hrid := (turnOrPlaceholder_id m.byId r.id).symm
    have hput : TurnRepresents ⟨d.turns ++ [r], d.items⟩ ⟨r, items⟩ := by
      rcases hwhy with ⟨hl, -, rfl⟩ | ⟨held, hl, rfl, hs⟩
      · have hph : turnOrPlaceholder m.byId r.id = ⟨placeholderTurn r.id, []⟩ := by
          unfold turnOrPlaceholder
          rw [hl]
          rfl
        rw [hph] at hrep
        exact hrep.addTurn_put rfl rfl
      · rw [turnOrPlaceholder_of_lookup hl] at hrep hrid
        exact hrep.addTurn_put hrid hs
    refine h.put hput (fun id => ?_) fun t ht hne => (h.each t ht).addTurn_of_ne (Ne.symm hne)
    rw [names_addTurn]
    simp [hid]

/-! ## One item row -/

theorem names_addItem (id : String) :
    Names ⟨d.turns, d.items ++ [r]⟩ id ↔ (id = r.turnId ∧ r.turnId ≠ "") ∨ Names d id := by
  simp only [Names, mem_append, mem_singleton]
  constructor
  · rintro ⟨hid, ht | ⟨x, hx | rfl, rfl⟩⟩
    · exact Or.inr ⟨hid, Or.inl ht⟩
    · exact Or.inr ⟨hid, Or.inr ⟨x, hx, rfl⟩⟩
    · exact Or.inl ⟨rfl, hid⟩
  · rintro (⟨rfl, hid⟩ | ⟨hid, ht | ⟨x, hx, rfl⟩⟩)
    · exact ⟨hid, Or.inr ⟨r, Or.inr rfl, rfl⟩⟩
    · exact ⟨hid, Or.inl ht⟩
    · exact ⟨hid, Or.inr ⟨x, Or.inl hx, rfl⟩⟩

/-- An item row leaves the turns it does not name alone. -/
theorem TurnRepresents.addItem_of_ne (h : TurnRepresents d turn) (hr : r.turnId ≠ turn.id) :
    TurnRepresents ⟨d.turns, d.items ++ [r]⟩ turn where
  newest := h.newest
  placeholder := h.placeholder
  nodup := h.nodup
  items := fun i => by
    rw [h.items i]
    refine and_congr_right fun hi => (isNewest_append_of_ne fun hk => ?_).symm
    exact hr ((congrArg Prod.fst hk).trans hi)
  sorted := h.sorted

/-- A held row that does not yield is the newest already. -/
theorem TurnRepresents.addItem_of_le (h : TurnRepresents d turn) {held : ItemModel}
    (hr : r.turnId = turn.id) (hsrc : VersionedSource itemKey (·.version) (d.items ++ [r]))
    (hheld : lookup itemIdentity (itemIdentity r) turn.items = some held)
    (hs : supersedes held.version r.version = false) :
    TurnRepresents ⟨d.turns, d.items ++ [r]⟩ turn := by
  obtain ⟨hturn, hnew⟩ := (h.items held).mp (mem_of_lookup hheld)
  have hkey : itemKey r = itemKey held :=
    Prod.ext (hr.trans hturn.symm) (key_of_lookup hheld).symm
  refine ⟨h.newest, h.placeholder, h.nodup, fun i => ?_, h.sorted⟩
  rw [h.items i, isNewest_append_of_le hsrc hnew hkey (versionLe_of_not_supersedes hs)]

/-- An identity the turn does not hold was never delivered for it. -/
theorem TurnRepresents.not_delivered (h : TurnRepresents d turn) (hr : r.turnId = turn.id)
    (hnew : lookup itemIdentity (itemIdentity r) turn.items = none) :
    ∀ x ∈ d.items, itemKey x ≠ itemKey r := by
  intro x hx hxk
  have hnewest : ∃ n, IsNewest itemKey (·.version) d.items n ∧ itemKey n = itemKey x :=
    exists_isNewest hx
  obtain ⟨n, hn, hnk⟩ := hnewest
  have hnr : itemKey n = itemKey r := hnk.trans hxk
  have hmem : n ∈ turn.items := (h.items n).mpr ⟨(congrArg Prod.fst hnr).trans hr, hn⟩
  exact lookup_eq_none.mp hnew n hmem (congrArg Prod.snd hnr)

/-- The inserted or replaced row is the newest of its identity, and the list stays sorted. -/
theorem TurnRepresents.addItem_edit (h : TurnRepresents d turn) (hr : r.turnId = turn.id)
    (hsrc : OneSource ⟨d.turns, d.items ++ [r]⟩) {items : List ItemModel}
    (hedit : ItemEdit turn.items r items) :
    TurnRepresents ⟨d.turns, d.items ++ [r]⟩ { turn with items := items } := by
  cases hedit with
  | insert hnew =>
    refine ⟨h.newest, h.placeholder, ?_, fun i => ?_, ?_⟩
    · refine KeysNodup.perm ?_ (insertAt_perm _ _ _).symm
      exact keysNodup_cons.mpr ⟨lookup_eq_none.mp hnew, h.nodup⟩
    · rw [mem_insertAt, h.items i, isNewest_append_of_new (h.not_delivered hr hnew)]
      constructor
      · rintro (rfl | ⟨hi, hn⟩)
        · exact ⟨hr, Or.inl rfl⟩
        · exact ⟨hi, Or.inr hn⟩
      · rintro ⟨hi, rfl | hn⟩
        · exact Or.inl rfl
        · exact Or.inr ⟨hi, hn⟩
    · exact pairwise_insertAt_upperBound (r := fun a b : ItemModel => PosLe a.position b.position)
        (fun a b c => posLe_trans _ _ _) (fun a b => posLe_total _ _) h.sorted r
  | replace held hheld hnewer =>
    obtain ⟨hturn, hnew⟩ := (h.items held).mp (mem_of_lookup hheld)
    have hidentity : itemIdentity held = itemIdentity r := key_of_lookup hheld
    have hr_mem : r ∈ d.items ++ [r] := mem_append_right _ (mem_singleton.mpr rfl)
    have hfull : mergeReplacedItem (some held) r = r := mergeReplacedItem_full (hsrc.full r hr_mem) _
    have hle : VersionLe held.version r.version :=
      hnewer.elim versionLe_of_supersedes versionLe_of_identityUpgrade
    have hkey : itemKey r = itemKey held := Prod.ext (hr.trans hturn.symm) hidentity.symm
    rw [hfull]
    refine ⟨h.newest, h.placeholder, keysNodup_put h.nodup r, fun i => ?_, ?_⟩
    · rw [mem_put h.nodup, h.items i, isNewest_append_of_ge hsrc.items hnew hkey hle]
      constructor
      · rintro (rfl | ⟨⟨hi, hn⟩, hne⟩)
        · exact ⟨hr, Or.inl rfl⟩
        · exact ⟨hi, Or.inr ⟨hn, fun hk => hne (congrArg Prod.snd hk)⟩⟩
      · rintro ⟨hi, rfl | ⟨hn, hne⟩⟩
        · exact Or.inl rfl
        · exact Or.inr ⟨⟨hi, hn⟩, fun hk => hne (Prod.ext (hi.trans hr.symm) hk)⟩
    · -- the replacement sits at the position of the row it replaces
      have hplace : r.position = held.position :=
        (hsrc.place r hr_mem held (mem_append_left _ hnew.1) hidentity.symm).1
      have hpos : ∀ w ∈ turn.items,
          (if itemIdentity w = itemIdentity r then r else w).position = w.position := by
        intro w hw
        split
        · next hw' =>
          rw [h.nodup.eq_of_key hw (mem_of_lookup hheld) (hw'.trans hidentity.symm)]
          exact hplace
        · rfl
      have hin : itemIdentity r ∈ turn.items.map itemIdentity :=
        mem_map.mpr ⟨held, mem_of_lookup hheld, hidentity⟩
      rw [put_eq_map h.nodup hin]
      refine pairwise_map.mpr (h.sorted.imp_of_mem fun {a b} ha hb hab => ?_)
      rw [hpos a ha, hpos b hb]
      exact hab

theorem represents_mergeItemRow (h : Represents d m.byId)
    (hsrc : OneSource ⟨d.turns, d.items ++ [r]⟩) :
    Represents ⟨d.turns, d.items ++ [r]⟩ (mergeItemRow false m r).byId := by
  rcases mergeItemRow_cases false m r with ⟨heq, hwhy⟩ | ⟨hid, items, hedit, heq⟩
  · rw [heq]
    rcases hwhy with hid | hfalse | ⟨turn, held, hl, hheld, hs, -⟩
    · refine ⟨h.nodup, fun id => ?_, fun t ht => (h.each t ht).addItem_of_ne ?_⟩
      · rw [names_addItem, h.ids id]
        simp [hid]
      · have hne := ((h.ids t.id).mp ⟨t, ht, rfl⟩).1
        rw [hid]
        exact Ne.symm hne
    · cases hfalse
    · have hturn := mem_of_lookup hl
      have htid := id_of_lookup hl
      refine ⟨h.nodup, fun id => ?_, fun t ht => ?_⟩
      · rw [names_addItem, h.ids id]
        constructor
        · exact Or.inr
        · rintro (⟨rfl, -⟩ | hn)
          · exact (h.ids r.turnId).mp ⟨turn, hturn, htid⟩
          · exact hn
      · by_cases ht' : r.turnId = t.id
        · have : t = turn := h.nodup.eq_of_key ht hturn (ht'.symm.trans htid.symm)
          rw [this]
          exact (h.each turn hturn).addItem_of_le htid.symm hsrc.items hheld hs
        · exact (h.each t ht).addItem_of_ne ht'
  · rw [heq]
    have hrep : TurnRepresents d (turnForItem m r) := h.turnRepresents hid
    have hput := hrep.addItem_edit (turnForItem_id m r).symm hsrc hedit
    refine h.put hput (fun id => ?_) fun t ht hne => ?_
    · rw [names_addItem, turnForItem_id]
      simp [hid]
    · refine (h.each t ht).addItem_of_ne fun hr => hne ?_
      exact hr.symm.trans (turnForItem_id m r).symm

/-! ## Fragments and runs

With `heldOnly` a row may be passed over; the rows that were not are the ones represented. -/

theorem mergeTurnRow_heldOnly (heldOnly : Bool) (m : Merging) (r : TurnScalars) :
    mergeTurnRow heldOnly m r = mergeTurnRow false m r ∨
      (heldOnly = true ∧ mergeTurnRow heldOnly m r = m) := by
  cases heldOnly with
  | false => exact Or.inl rfl
  | true =>
    unfold mergeTurnRow
    split
    · exact Or.inl rfl
    · split
      · exact Or.inl rfl
      · exact Or.inr ⟨rfl, rfl⟩

theorem mergeItemRow_heldOnly (heldOnly : Bool) (m : Merging) (r : ItemModel) :
    mergeItemRow heldOnly m r = mergeItemRow false m r ∨
      (heldOnly = true ∧ mergeItemRow heldOnly m r = m) := by
  cases heldOnly with
  | false => exact Or.inl rfl
  | true =>
    unfold mergeItemRow
    split
    · exact Or.inl rfl
    · split
      · exact Or.inr ⟨rfl, rfl⟩
      · rw [if_neg (by simp)]
        dsimp only
        split
        · exact Or.inl rfl
        · exact Or.inr ⟨rfl, rfl⟩

theorem represents_turnRows (heldOnly : Bool) (rows : List TurnScalars) (h : Represents d m.byId)
    (hsrc : OneSource ⟨d.turns ++ rows, d.items⟩) :
    ∃ kept, kept.Sublist rows ∧ (heldOnly = false → kept = rows) ∧
      Represents ⟨d.turns ++ kept, d.items⟩ (rows.foldl (mergeTurnRow heldOnly) m).byId := by
  induction rows generalizing d m with
  | nil => exact ⟨[], List.Sublist.refl _, fun _ => rfl, by simpa using h⟩
  | cons r rows ih =>
    have hsrc' : OneSource ⟨(d.turns ++ [r]) ++ rows, d.items⟩ := by simpa using hsrc
    rcases mergeTurnRow_heldOnly heldOnly m r with heq | ⟨hheld, heq⟩
    · have hstep := represents_mergeTurnRow h (r := r)
        (hsrc'.sub ⟨fun x hx => mem_append_left _ hx, fun i hi => hi⟩)
      rw [← heq] at hstep
      obtain ⟨kept, hsub, hall, hrep⟩ := ih hstep hsrc'
      refine ⟨r :: kept, hsub.cons_cons r, fun hf => by rw [hall hf], ?_⟩
      simpa using hrep
    · rw [foldl_cons, heq]
      have hsrc'' : OneSource ⟨d.turns ++ rows, d.items⟩ := by
        refine hsrc.sub ⟨fun x hx => ?_, fun i hi => hi⟩
        exact (append_sublist_append_left _).mpr (sublist_cons_self r rows) |>.subset hx
      obtain ⟨kept, hsub, -, hrep⟩ := ih h hsrc''
      exact ⟨kept, hsub.cons r, fun hf => absurd hf (by simp [hheld]), hrep⟩

theorem represents_itemRows (heldOnly : Bool) (rows : List ItemModel) (h : Represents d m.byId)
    (hsrc : OneSource ⟨d.turns, d.items ++ rows⟩) :
    ∃ kept, kept.Sublist rows ∧ (heldOnly = false → kept = rows) ∧
      Represents ⟨d.turns, d.items ++ kept⟩ (rows.foldl (mergeItemRow heldOnly) m).byId := by
  induction rows generalizing d m with
  | nil => exact ⟨[], List.Sublist.refl _, fun _ => rfl, by simpa using h⟩
  | cons r rows ih =>
    have hsrc' : OneSource ⟨d.turns, (d.items ++ [r]) ++ rows⟩ := by simpa using hsrc
    rcases mergeItemRow_heldOnly heldOnly m r with heq | ⟨hheld, heq⟩
    · have hstep := represents_mergeItemRow h (r := r)
        (hsrc'.sub ⟨fun x hx => hx, fun i hi => mem_append_left _ hi⟩)
      rw [← heq] at hstep
      obtain ⟨kept, hsub, hall, hrep⟩ := ih hstep hsrc'
      refine ⟨r :: kept, hsub.cons_cons r, fun hf => by rw [hall hf], ?_⟩
      simpa using hrep
    · rw [foldl_cons, heq]
      have hsrc'' : OneSource ⟨d.turns, d.items ++ rows⟩ := by
        refine hsrc.sub ⟨fun x hx => hx, fun i hi => ?_⟩
        exact (append_sublist_append_left _).mpr (sublist_cons_self r rows) |>.subset hi
      obtain ⟨kept, hsub, -, hrep⟩ := ih h hsrc''
      exact ⟨kept, hsub.cons r, fun hf => absurd hf (by simp [hheld]), hrep⟩

theorem represents_mergeRows (heldOnly : Bool) (h : Represents d turns)
    (hsrc : OneSource (d.append f)) :
    ∃ kept, SubRows kept f ∧ (heldOnly = false → kept = f) ∧
      Represents (d.append kept) (mergeRows turns f heldOnly).byId := by
  have hstart : Represents d (Merging.mk false (turnsById turns)).byId := by
    rw [turnsById_eq h.nodup]
    exact h
  obtain ⟨keptTurns, hsubT, hallT, hturns⟩ := represents_turnRows heldOnly f.turns hstart
    (hsrc.sub ⟨fun r hr => hr, fun i hi => mem_append_left _ hi⟩)
  have hsrc' : OneSource ⟨d.turns ++ keptTurns, d.items ++ f.items⟩ :=
    hsrc.sub ⟨fun r hr => ((append_sublist_append_left _).mpr hsubT).subset hr, fun i hi => hi⟩
  obtain ⟨keptItems, hsubI, hallI, hitems⟩ := represents_itemRows heldOnly f.items hturns hsrc'
  refine ⟨⟨keptTurns, keptItems⟩, ⟨fun r hr => hsubT.subset hr, fun i hi => hsubI.subset hi⟩,
    fun hf => ?_, hitems⟩
  rw [hallT hf, hallI hf]

theorem represents_mergeHistory (heldOnly : Bool) (h : Represents d turns)
    (hsrc : OneSource (d.append f)) :
    ∃ kept, SubRows kept f ∧ (heldOnly = false → kept = f) ∧
      Represents (d.append kept) (mergeHistory turns f heldOnly) := by
  obtain ⟨kept, hsub, hall, hrep⟩ := represents_mergeRows heldOnly h hsrc
  exact ⟨kept, hsub, hall, hrep.perm (mergeHistory_perm h.nodup f heldOnly).symm⟩

/-- Folding the merge over fragments, each merged with its own `heldOnly`. -/
def foldMerges (turns : List TurnModel) (merges : List (HistoryFragment × Bool)) :
    List TurnModel :=
  merges.foldl (fun turns m => mergeHistory turns m.1 m.2) turns

/-- Folding the merge over fragments that add what history does not hold. -/
def foldHistory (turns : List TurnModel) (fragments : List HistoryFragment) : List TurnModel :=
  foldMerges turns (fragments.map fun f => (f, false))

theorem deliveredRows_cons (f : HistoryFragment) (fragments : List HistoryFragment) :
    deliveredRows (f :: fragments) = f.append (deliveredRows fragments) := by
  simp [deliveredRows, HistoryFragment.append]

theorem append_assoc' (a b c : HistoryFragment) :
    (a.append b).append c = a.append (b.append c) := by
  simp [HistoryFragment.append]

theorem SubRows.append_left (h : SubRows b c) : SubRows (a.append b) (a.append c) := by
  constructor
  · intro r hr
    exact (mem_append.mp hr).elim (mem_append_left _)
      fun hb => mem_append_right _ (h.1 r hb)
  · intro i hi
    exact (mem_append.mp hi).elim (mem_append_left _)
      fun hb => mem_append_right _ (h.2 i hb)

theorem SubRows.append_right (h : SubRows a b) : SubRows (a.append c) (b.append c) := by
  constructor
  · intro r hr
    exact (mem_append.mp hr).elim (fun ha => mem_append_left _ (h.1 r ha))
      (mem_append_right _)
  · intro i hi
    exact (mem_append.mp hi).elim (fun ha => mem_append_left _ (h.2 i ha))
      (mem_append_right _)

theorem represents_foldMerges (merges : List (HistoryFragment × Bool)) (h : Represents d turns)
    (hsrc : OneSource (d.append (deliveredRows (merges.map Prod.fst)))) :
    ∃ kept, SubRows kept (deliveredRows (merges.map Prod.fst)) ∧
      ((∀ m ∈ merges, m.2 = false) → kept = deliveredRows (merges.map Prod.fst)) ∧
      Represents (d.append kept) (foldMerges turns merges) := by
  induction merges generalizing d turns with
  | nil =>
    refine ⟨⟨[], []⟩, ⟨fun r hr => hr, fun i hi => hi⟩, fun _ => rfl, ?_⟩
    simpa [HistoryFragment.append, foldMerges] using h
  | cons m merges ih =>
    rw [map_cons, deliveredRows_cons, ← append_assoc'] at hsrc
    obtain ⟨kept, hsub, hall, hstep⟩ := represents_mergeHistory m.2 h (f := m.1)
      (hsrc.sub ⟨fun r hr => mem_append_left _ hr, fun i hi => mem_append_left _ hi⟩)
    obtain ⟨kept', hsub', hall', hrep⟩ := ih hstep (hsrc.sub hsub.append_left.append_right)
    rw [append_assoc'] at hrep
    rw [map_cons, deliveredRows_cons]
    refine ⟨kept.append kept', ?_, fun hm => ?_, hrep⟩
    · constructor
      · intro r hr
        exact hsub'.append_left.1 r (hsub.append_right.1 r hr)
      · intro i hi
        exact hsub'.append_left.2 i (hsub.append_right.2 i hi)
    · rw [hall (hm m mem_cons_self), hall' fun x hx => hm x (mem_cons_of_mem _ hx)]

theorem represents_foldHistory (fragments : List HistoryFragment) (h : Represents d turns)
    (hsrc : OneSource (d.append (deliveredRows fragments))) :
    Represents (d.append (deliveredRows fragments)) (foldHistory turns fragments) := by
  have hfst : (fragments.map fun f => (f, false)).map Prod.fst = fragments := by
    simp [Function.comp_def]
  have hfold := represents_foldMerges (fragments.map fun f => (f, false)) h (by rwa [hfst])
  rw [hfst] at hfold
  obtain ⟨kept, -, hall, hrep⟩ := hfold
  rw [hall (by simp)] at hrep
  exact hrep

theorem pairwise_mergeHistory (h : turns.Pairwise TurnLe) (f : HistoryFragment) (heldOnly : Bool) :
    (mergeHistory turns f heldOnly).Pairwise TurnLe := by
  have : IsTrans TurnModel TurnLe := ⟨fun a b c => posLe_trans _ _ _⟩
  have : Std.Total TurnLe := ⟨fun a b => posLe_total _ _⟩
  unfold mergeHistory
  dsimp only
  split
  · exact pairwise_insertionSort _ _
  · exact h

theorem pairwise_foldMerges (merges : List (HistoryFragment × Bool)) (h : turns.Pairwise TurnLe) :
    (foldMerges turns merges).Pairwise TurnLe := by
  unfold foldMerges
  exact List.foldlRecOn (motive := fun turns : List TurnModel => turns.Pairwise TurnLe) _ _ h
    fun turns hturns m _ => pairwise_mergeHistory hturns m.1 m.2

/-! ## The represented turns are determined -/

/-- Equal turns up to the order of items at equal positions. -/
def SameTurn (t t' : TurnModel) : Prop :=
  t.toTurnScalars = t'.toTurnScalars ∧ t.items.Perm t'.items

def SameTurns (turns turns' : List TurnModel) : Prop :=
  (∀ t ∈ turns, ∃ t' ∈ turns', SameTurn t t') ∧ ∀ t' ∈ turns', ∃ t ∈ turns, SameTurn t t'

theorem names_congr (h : SameRows d d') (id : String) : Names d id ↔ Names d' id := by
  simp only [Names, h.1, h.2]

theorem TurnRepresents.sameTurn {t' : TurnModel} (hsrc : OneSource d) (hrows : SameRows d d')
    (h : TurnRepresents d t) (h' : TurnRepresents d' t') (hid : t.id = t'.id) : SameTurn t t' := by
  constructor
  · by_cases hnamed : ∃ r ∈ d.turns, r.id = t.id
    · obtain ⟨r, hr, hrid⟩ := hnamed
      have hnew' := h'.newest r ((hrows.1 r).mp hr) (hrid.trans hid)
      exact (h.newest r hr hrid).unique hsrc.turns ((isNewest_congr hrows.1 _).mpr hnew') hid
    · have hnone : ∀ r ∈ d.turns, r.id ≠ t.id := fun r hr hrid => hnamed ⟨r, hr, hrid⟩
      rw [h.placeholder hnone, h'.placeholder, hid]
      intro r hr hrid
      exact hnone r ((hrows.1 r).mpr hr) (hrid.trans hid.symm)
  · refine (perm_ext_iff_of_nodup h.nodup.of_map h'.nodup.of_map).mpr fun i => ?_
    rw [h.items i, h'.items i, hid, isNewest_congr hrows.2]

theorem Represents.exists_sameTurn (hsrc : OneSource d) (hrows : SameRows d d')
    (h : Represents d turns) (h' : Represents d' turns') (ht : t ∈ turns) :
    ∃ t' ∈ turns', SameTurn t t' := by
  have hnames : Names d t.id := (h.ids t.id).mp ⟨t, ht, rfl⟩
  obtain ⟨t', ht', hid⟩ := (h'.ids t.id).mpr ((names_congr hrows _).mp hnames)
  exact ⟨t', ht', (h.each t ht).sameTurn hsrc hrows (h'.each t' ht') hid.symm⟩

theorem SameRows.symm (h : SameRows d d') : SameRows d' d :=
  ⟨fun r => (h.1 r).symm, fun i => (h.2 i).symm⟩

theorem Represents.sameTurns (hsrc : OneSource d) (hrows : SameRows d d') (h : Represents d turns)
    (h' : Represents d' turns') : SameTurns turns turns' := by
  refine ⟨fun t ht => h.exists_sameTurn hsrc hrows h' ht, fun t' ht' => ?_⟩
  have hsrc' : OneSource d' :=
    hsrc.sub ⟨fun r hr => (hrows.1 r).mpr hr, fun i hi => (hrows.2 i).mpr hi⟩
  obtain ⟨t, ht, hscalars, hitems⟩ := h'.exists_sameTurn hsrc' hrows.symm h ht'
  exact ⟨t, ht, hscalars.symm, hitems.symm⟩

/-- Every delivered item identity has exactly one row in its turn. -/
theorem Represents.existsUnique_row (h : Represents d turns) {i : ItemModel} (hi : i ∈ d.items)
    (hid : i.turnId ≠ "") :
    ∃! row, HoldsItem turns i.turnId row ∧ itemIdentity row = itemIdentity i := by
  obtain ⟨t, ht, htid⟩ := (h.ids i.turnId).mpr ⟨hid, Or.inr ⟨i, hi, rfl⟩⟩
  have hnewest : ∃ n, IsNewest itemKey (·.version) d.items n ∧ itemKey n = itemKey i :=
    exists_isNewest hi
  obtain ⟨n, hn, hnk⟩ := hnewest
  have hmem : n ∈ t.items := ((h.each t ht).items n).mpr ⟨(congrArg Prod.fst hnk).trans htid.symm, hn⟩
  refine ⟨n, ⟨⟨t, ht, htid, hmem⟩, congrArg Prod.snd hnk⟩, ?_⟩
  rintro row ⟨⟨t', ht', htid', hrow⟩, hidentity⟩
  have htt : t' = t := h.nodup.eq_of_key ht' ht (htid'.trans htid.symm)
  rw [htt] at hrow
  exact (h.each t ht).nodup.eq_of_key hrow hmem (hidentity.trans (congrArg Prod.snd hnk).symm)

/-! ## No ties -/

/-- No two turns, and no two items of a turn, share a place. -/
def NoTies (turns : List TurnModel) : Prop :=
  turns.Pairwise (fun a b => ¬ TurnLe b a) ∧
    ∀ t ∈ turns, t.items.Pairwise fun a b => ¬ PosLe b.position a.position

theorem SameTurn.eq {t' : TurnModel} (h : SameTurn t t')
    (hties : t.items.Pairwise fun a b => ¬ PosLe b.position a.position)
    (ht : t.items.Pairwise fun a b => PosLe a.position b.position)
    (ht' : t'.items.Pairwise fun a b => PosLe a.position b.position) : t = t' := by
  have hitems : t.items = t'.items := by
    refine h.2.eq_of_pairwise (fun a b ha hb hab hba => ?_) ht ht'
    exact eq_of_pairwise_not (r := fun x y : ItemModel => PosLe x.position y.position) hties ha
      (h.2.mem_iff.mpr hb) hab hba
  cases t
  cases t'
  obtain ⟨hscalars, -⟩ := h
  simp only at hscalars hitems
  rw [hscalars, hitems]

/-- Without ties the represented turns are one list. -/
theorem Represents.eq_of_noTies (h : Represents d turns) (h' : Represents d' turns')
    (hsame : SameTurns turns turns') (hle : turns.Pairwise TurnLe) (hle' : turns'.Pairwise TurnLe)
    (hties : NoTies turns) : turns = turns' := by
  have heq : ∀ t ∈ turns, ∀ t' ∈ turns', SameTurn t t' → t = t' := fun t ht t' ht' hst =>
    hst.eq (hties.2 t ht) (h.each t ht).sorted (h'.each t' ht').sorted
  have hperm : turns.Perm turns' := by
    refine (perm_ext_iff_of_nodup h.nodup.of_map h'.nodup.of_map).mpr fun t => ⟨?_, ?_⟩
    · intro ht
      obtain ⟨t', ht', hst⟩ := hsame.1 t ht
      rw [heq t ht t' ht' hst]
      exact ht'
    · intro ht
      obtain ⟨t', ht', hst⟩ := hsame.2 t ht
      rw [← heq t' ht' t ht hst]
      exact ht'
  refine hperm.eq_of_pairwise (fun a b ha hb hab hba => ?_) hle hle'
  exact eq_of_pairwise_not hties.1 ha (hperm.mem_iff.mpr hb) hab hba

/-! ## Order independence -/

/-- Every list `itemsBefore` searches while `f` is merged into `turns` is sorted: after any
    prefix of the item rows, so is every turn's item list. -/
def SearchesSorted (turns : List TurnModel) (f : HistoryFragment) : Prop :=
  ∀ n, ∀ t ∈ (mergeRows turns ⟨f.turns, f.items.take n⟩ false).byId,
    t.items.Pairwise fun a b => PosLe a.position b.position

theorem Represents.searchesSorted (h : Represents d turns) (hsrc : OneSource (d.append f)) :
    SearchesSorted turns f := by
  intro n t ht
  have hsub : SubRows (d.append ⟨f.turns, f.items.take n⟩) (d.append f) :=
    SubRows.append_left ⟨fun r hr => hr, fun i hi => take_subset n _ hi⟩
  obtain ⟨kept, -, -, hrep⟩ := represents_mergeRows false h (hsrc.sub hsub)
  exact (hrep.each t ht).sorted

theorem foldHistory_append (turns : List TurnModel) (pre post : List HistoryFragment) :
    foldHistory turns (pre ++ post) = foldHistory (foldHistory turns pre) post := by
  simp [foldHistory, foldMerges]

theorem deliveredRows_append (pre post : List HistoryFragment) :
    deliveredRows (pre ++ post) = (deliveredRows pre).append (deliveredRows post) := by
  simp [deliveredRows, HistoryFragment.append]

theorem SameRows.append_left (h : SameRows b c) : SameRows (a.append b) (a.append c) := by
  constructor
  · intro r
    simp only [HistoryFragment.append, mem_append, h.1]
  · intro i
    simp only [HistoryFragment.append, mem_append, h.2]

/-- For rows of one versioned source, the merged turns do not depend on the order in which
    fragments arrive, on repetitions or on how rows are cut into fragments: from any history
    built by merges (some of them `heldOnly`), two lists of fragments with the same rows lead to
    the same turns, and to the same list when no two rows share a place. The result is the
    newest of everything delivered, in position order; no merge on the way removes a turn or an
    item or lowers a version, and none runs the binary search on an unsorted list. -/
theorem foldHistory_order_independent (start : List (HistoryFragment × Bool))
    (fragments others : List HistoryFragment)
    (hsrc : OneSource (deliveredRows (start.map Prod.fst ++ fragments)))
    (hsame : SameRows (deliveredRows fragments) (deliveredRows others)) :
    SameTurns (foldHistory (foldMerges [] start) fragments)
      (foldHistory (foldMerges [] start) others) ∧
    (NoTies (foldHistory (foldMerges [] start) fragments) →
      foldHistory (foldMerges [] start) fragments = foldHistory (foldMerges [] start) others) ∧
    (∃ kept, SubRows kept (deliveredRows (start.map Prod.fst)) ∧
      ((∀ m ∈ start, m.2 = false) → kept = deliveredRows (start.map Prod.fst)) ∧
      Represents (kept.append (deliveredRows fragments))
        (foldHistory (foldMerges [] start) fragments) ∧
      ∀ i ∈ (kept.append (deliveredRows fragments)).items, i.turnId ≠ "" →
        ∃! row, HoldsItem (foldHistory (foldMerges [] start) fragments) i.turnId row ∧
          itemIdentity row = itemIdentity i) ∧
    (foldHistory (foldMerges [] start) fragments).Pairwise TurnLe ∧
    (∀ pre f post, fragments = pre ++ f :: post →
      SearchesSorted (foldHistory (foldMerges [] start) pre) f ∧
      Extends (foldHistory (foldMerges [] start) pre)
        (foldHistory (foldMerges [] start) (pre ++ [f]))) := by
  rw [deliveredRows_append] at hsrc
  obtain ⟨kept, hsub, hall, hstart⟩ := represents_foldMerges start represents_nil
    (hsrc.sub ⟨fun r hr => mem_append_left _ hr, fun i hi => mem_append_left _ hi⟩)
  have hkept : (HistoryFragment.mk [] []).append kept = kept := rfl
  rw [hkept] at hstart
  have hsrcF : OneSource (kept.append (deliveredRows fragments)) := hsrc.sub hsub.append_right
  have hsrcG : OneSource (kept.append (deliveredRows others)) :=
    hsrcF.sub ⟨fun r hr => (hsame.append_left.1 r).mpr hr, fun i hi => (hsame.append_left.2 i).mpr hi⟩
  have hF := represents_foldHistory fragments hstart hsrcF
  have hG := represents_foldHistory others hstart hsrcG
  have hsorted0 : (foldMerges [] start).Pairwise TurnLe := pairwise_foldMerges start List.Pairwise.nil
  have hsortedF : (foldHistory (foldMerges [] start) fragments).Pairwise TurnLe :=
    pairwise_foldMerges _ hsorted0
  have hsortedG : (foldHistory (foldMerges [] start) others).Pairwise TurnLe :=
    pairwise_foldMerges _ hsorted0
  have hturns := hF.sameTurns hsrcF hsame.append_left hG
  refine ⟨hturns, fun hties => hF.eq_of_noTies hG hturns hsortedF hsortedG hties,
    ⟨kept, hsub, hall, hF, fun i hi hid => hF.existsUnique_row hi hid⟩, hsortedF, ?_⟩
  intro pre f post hsplit
  have hrows : SubRows ((kept.append (deliveredRows pre)).append f)
      (kept.append (deliveredRows fragments)) := by
    rw [hsplit, append_assoc', deliveredRows_append, deliveredRows_cons]
    exact SubRows.append_left (SubRows.append_left
      ⟨fun r hr => mem_append_left _ hr, fun i hi => mem_append_left _ hi⟩)
  have hsrcP := hsrcF.sub hrows
  have hpre := represents_foldHistory pre hstart
    (hsrcP.sub ⟨fun r hr => mem_append_left _ hr, fun i hi => mem_append_left _ hi⟩)
  refine ⟨hpre.searchesSorted hsrcP, ?_⟩
  rw [foldHistory_append]
  exact mergeHistory_extends hpre.nodup f false

/-- A tool row with every field the source may omit. -/
def toolRow (key : String) (entry version : Nat) (output : String) : ItemModel where
  id := key
  turnId := "t1"
  type := "commandExecution"
  text := "ls"
  transcriptKey := some key
  position := some { entry := entry, item := 0 }
  version := some version
  images := some []
  outputImages := some []
  output := some output
  error := some ""
  raw := some "ls"
  prevalOnly := some false
  exitCode := some 0
  argumentsJSON := some "[]"
  description := some "list"
  toolName := some "shell"
  callId := some key
  eventKind := some "tool"
  steeringKind := some ""
  source := some "model"
  actor := some { kind := "agent" }

theorem toolRow_full (key : String) (entry version : Nat) (output : String) :
    (toolRow key entry version output).Full := by
  constructor <;> rfl

/-- A page with the old form of `b` and the row `a`, and a push with `b`'s new form. -/
theorem foldHistory_order_independent_page_push :
    SameTurns
      (foldHistory (foldMerges [] [(⟨[], [toolRow "c" 9 9 "c"]⟩, false)])
        [⟨[{ id := "t1", status := "completed", version := some 8 }],
          [toolRow "a" 1 1 "a", toolRow "b" 5 5 "b"]⟩, ⟨[], [toolRow "b" 5 7 "b+"]⟩])
      (foldHistory (foldMerges [] [(⟨[], [toolRow "c" 9 9 "c"]⟩, false)])
        [⟨[], [toolRow "b" 5 7 "b+", toolRow "a" 1 1 "a"]⟩,
          ⟨[{ id := "t1", status := "completed", version := some 8 }], [toolRow "b" 5 5 "b"]⟩]) := by
  refine (foldHistory_order_independent _ _ _ ⟨?_, ?_, ?_, ?_⟩ ⟨?_, ?_⟩).1
  · unfold VersionedSource
    decide
  · unfold VersionedSource
    decide
  · simp [deliveredRows, toolRow_full]
  · decide
  · intro r
    simp [deliveredRows]
  · intro i
    simp only [deliveredRows, flatMap_cons, flatMap_nil, append_nil, mem_append,
      mem_cons, not_mem_nil, or_false]
    tauto

end Evener.Transcript
