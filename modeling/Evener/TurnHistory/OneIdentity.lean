/-
  One identity, one item: what `mergePageItems` returns on any two item lists.

  A fold can make an item match another one, so the inner loop starts over; each turn that does
  not end it consumes one accumulated item (`ReconcileTurn.consumes`).
-/
import Evener.TurnHistory.Items
import Mathlib.Data.List.Perm.Basic

namespace Evener.TurnHistory

open Evener.Lib List

/-! ## The inner loop -/

/-- No two items of the list match. -/
def Distinct (items : List ItemModel) : Prop :=
  items.Pairwise fun a b => itemIdentityMatches a.toItemValue b.toItemValue = false

theorem Distinct.perm {items items' : List ItemModel} (h : Distinct items)
    (hperm : items.Perm items') : Distinct items' := by
  refine (hperm.pairwise_iff ?_).mp h
  intro a b hab
  rw [itemIdentityMatches_comm]
  exact hab

theorem orderedItems_perm (items : List ItemModel) : (orderedItems items).Perm items :=
  sortBy_perm _

/-- One turn of the inner loop that folds: the accumulated items and the current one, before and
    after. The loop ends where no turn applies. -/
inductive ReconcileTurn (context : Bool) :
    List ItemModel × ItemModel → List ItemModel × ItemModel → Prop where
  | fold {reconciled : List ItemModel} {current existing : ItemModel} {index : Nat} :
      (reconciled.findIdx? fun candidate =>
        itemIdentityMatches candidate.toItemValue current.toItemValue) = some index →
      reconciled[index]? = some existing →
      ReconcileTurn context (reconciled, current)
        (reconciled.eraseIdx index, reconcilePair context existing current)

variable {context : Bool} {reconciled : List ItemModel} {current : ItemModel}

theorem ReconcileTurn.consumes {s s' : List ItemModel × ItemModel} (h : ReconcileTurn context s s') :
    s'.1.length + 1 = s.1.length := by
  cases h with
  | @fold reconciled current existing index _ hget =>
    obtain ⟨hlt, -⟩ := List.getElem?_eq_some_iff.mp hget
    show (reconciled.eraseIdx index).length + 1 = reconciled.length
    rw [length_eraseIdx_of_lt hlt]
    omega

/-- What a search among the accumulated items finds. -/
theorem findIdx?_cases (reconciled : List ItemModel) (current : ItemModel) :
    ((reconciled.findIdx? fun candidate =>
        itemIdentityMatches candidate.toItemValue current.toItemValue) = none ∧
      ∀ a ∈ reconciled, itemIdentityMatches a.toItemValue current.toItemValue = false) ∨
    ∃ index existing, (reconciled.findIdx? fun candidate =>
        itemIdentityMatches candidate.toItemValue current.toItemValue) = some index ∧
      reconciled[index]? = some existing := by
  cases hfind : reconciled.findIdx? fun candidate =>
      itemIdentityMatches candidate.toItemValue current.toItemValue with
  | none => exact Or.inl ⟨rfl, findIdx?_eq_none_iff.mp hfind⟩
  | some index =>
    obtain ⟨hlt, -⟩ := findIdx?_eq_some_iff_getElem.mp hfind
    exact Or.inr ⟨index, _, rfl, getElem?_eq_getElem hlt⟩

/-- With fuel for every accumulated item the loop ends because nothing matches any more. -/
theorem settleItem_ends (context : Bool) (current : ItemModel) {fuel : Nat}
    (hfuel : reconciled.length ≤ fuel) :
    ∃ final : List ItemModel × ItemModel,
      Relation.ReflTransGen (ReconcileTurn context) (reconciled, current) final ∧
      (∀ a ∈ final.1, itemIdentityMatches a.toItemValue final.2.toItemValue = false) ∧
      settleItem context fuel reconciled current = final.1 ++ [final.2] := by
  induction fuel generalizing reconciled current with
  | zero =>
    obtain rfl := length_eq_zero_iff.mp (Nat.le_zero.mp hfuel)
    exact ⟨([], current), .refl, fun _ ha => absurd ha not_mem_nil, rfl⟩
  | succ fuel ih =>
    rcases findIdx?_cases reconciled current with ⟨hfind, hnone⟩ | ⟨index, existing, hfind, hget⟩
    · refine ⟨(reconciled, current), .refl, hnone, ?_⟩
      rw [settleItem, hfind]
    · have hturn : ReconcileTurn context (reconciled, current)
          (reconciled.eraseIdx index, reconcilePair context existing current) := .fold hfind hget
      have hless := hturn.consumes
      obtain ⟨final, hreach, hends, heq⟩ := ih (reconcilePair context existing current)
        (Nat.le_of_succ_le_succ (hless ▸ hfuel))
      refine ⟨final, .head hturn hreach, hends, ?_⟩
      rw [settleItem, hfind]
      dsimp only
      rw [hget]
      exact heq

theorem Distinct.turns {s s' : List ItemModel × ItemModel} (h : Distinct s.1)
    (hreach : Relation.ReflTransGen (ReconcileTurn context) s s') : Distinct s'.1 := by
  induction hreach with
  | refl => exact h
  | tail _ hturn ih =>
    cases hturn with
    | fold _ _ => exact ih.sublist (eraseIdx_sublist _ _)

/-- The loop keeps the accumulated items distinct, whatever identity the folds end with. -/
theorem Distinct.settleItem (h : Distinct reconciled) :
    Distinct (settleItem context reconciled.length reconciled current) := by
  obtain ⟨final, hreach, hends, heq⟩ :=
    settleItem_ends context current (le_refl reconciled.length)
  rw [heq]
  refine pairwise_append.mpr ⟨h.turns hreach, pairwise_singleton _ _, ?_⟩
  intro a ha b hb
  rw [mem_singleton.mp hb]
  exact hends a ha

theorem reconcileItemDuplicates_distinct (context : Bool) (items : List ItemModel) :
    Distinct (reconcileItemDuplicates context items) := by
  have hfold : ∀ (items reconciled : List ItemModel), Distinct reconciled →
      Distinct (items.foldl (fun reconciled item =>
        settleItem context reconciled.length reconciled item) reconciled) := by
    intro items
    induction items with
    | nil => exact fun _ h => h
    | cons item items ih => exact fun reconciled h => ih _ h.settleItem
  exact hfold items [] List.Pairwise.nil

/-! ## Where the inputs went -/

/-- The item was built from the sources, in this order, by the folds of `mergePageItems`. -/
inductive FoldedFrom (context : Bool) : ItemModel → List ItemModel → Prop where
  | source (item : ItemModel) : FoldedFrom context item [item]
  | merged {existing current : ItemModel} {sources sources' : List ItemModel} :
      FoldedFrom context existing sources → FoldedFrom context current sources' →
      FoldedFrom context (recorded context existing current
        (mergePageItem existing.toItemValue current.toItemValue)) (sources ++ sources')
  | reconciled {existing current : ItemModel} {sources sources' : List ItemModel} :
      FoldedFrom context existing sources → FoldedFrom context current sources' →
      FoldedFrom context (reconcilePair context existing current) (sources ++ sources')

/-- The inputs fall into groups, one for each item of the result, built from its group. -/
def Folded (context : Bool) (result inputs : List ItemModel) : Prop :=
  ∃ groups : List (List ItemModel), groups.flatten.Perm inputs ∧
    List.Forall₂ (FoldedFrom context) result groups

section Folded

variable {result result' inputs inputs' sources : List ItemModel} {item : ItemModel}

theorem folded_self (items : List ItemModel) : Folded context items items := by
  refine ⟨items.map fun item => [item], ?_, ?_⟩
  · induction items with
    | nil => exact .nil
    | cons item items ih => exact ih.cons item
  · induction items with
    | nil => exact .nil
    | cons item items ih => exact .cons (.source item) ih

theorem Folded.perm (h : Folded context result inputs) (hperm : result'.Perm result) :
    Folded context result' inputs := by
  obtain ⟨groups, hgroups, hfolded⟩ := h
  obtain ⟨groups', hfolded', hperm'⟩ := perm_comp_forall₂ hperm hfolded
  exact ⟨groups', hperm'.flatten.trans hgroups, hfolded'⟩

theorem Folded.perm_inputs (h : Folded context result inputs) (hperm : inputs.Perm inputs') :
    Folded context result inputs' := by
  obtain ⟨groups, hgroups, hfolded⟩ := h
  exact ⟨groups, hgroups.trans hperm, hfolded⟩

theorem Folded.push (h : Folded context result inputs) (hitem : FoldedFrom context item sources) :
    Folded context (result ++ [item]) (inputs ++ sources) := by
  obtain ⟨groups, hgroups, hfolded⟩ := h
  refine ⟨groups ++ [sources], ?_, rel_append hfolded (.cons hitem .nil)⟩
  rw [flatten_append, flatten_singleton]
  exact hgroups.append_right sources

/-- One item of the result, taken out with the sources it was built from. -/
theorem Folded.take {existing : ItemModel} {index : Nat} (h : Folded context result inputs)
    (hget : result[index]? = some existing) :
    ∃ sources rest, FoldedFrom context existing sources ∧ (sources ++ rest).Perm inputs ∧
      Folded context (result.eraseIdx index) rest := by
  obtain ⟨hlt, hitem⟩ := List.getElem?_eq_some_iff.mp hget
  have hperm : (existing :: result.eraseIdx index).Perm result := by
    rw [← hitem]
    exact getElem_cons_eraseIdx_perm hlt
  obtain ⟨groups, hgroups, hfolded⟩ := h.perm hperm
  cases hfolded with
  | cons hexisting hrest => exact ⟨_, _, hexisting, hgroups, _, .refl _, hrest⟩

theorem Folded.mergeCurrent (h : Folded context result inputs) (current : ItemModel) :
    Folded context (mergeCurrent context result current) (inputs ++ [current]) := by
  unfold TurnHistory.mergeCurrent
  rcases findIdx?_cases result current with ⟨hfind, -⟩ | ⟨index, existing, hfind, hget⟩
  · rw [hfind]
    exact h.push (.source current)
  · rw [hfind]
    dsimp only
    rw [hget]
    obtain ⟨hlt, -⟩ := List.getElem?_eq_some_iff.mp hget
    obtain ⟨sources, rest, hexisting, hinputs, groups, hgroups, hfolded⟩ := h.take hget
    have hpushed : Folded context (recorded context existing current
        (mergePageItem existing.toItemValue current.toItemValue) :: result.eraseIdx index)
        ((sources ++ [current]) ++ rest) :=
      ⟨_, hgroups.append_left _, .cons (.merged hexisting (.source current)) hfolded⟩
    refine (hpushed.perm_inputs ?_).perm (set_perm_cons_eraseIdx hlt _)
    rw [append_assoc]
    refine (perm_append_comm.append_left sources).trans ?_
    rw [← append_assoc]
    exact hinputs.append_right [current]

theorem Folded.settleItem (fuel : Nat) (h : Folded context result inputs)
    (hitem : FoldedFrom context item sources) :
    Folded context (settleItem context fuel result item) (inputs ++ sources) := by
  induction fuel generalizing result inputs item sources with
  | zero => exact h.push hitem
  | succ fuel ih =>
    unfold TurnHistory.settleItem
    rcases findIdx?_cases result item with ⟨hfind, -⟩ | ⟨index, existing, hfind, hget⟩
    · rw [hfind]
      exact h.push hitem
    · rw [hfind]
      dsimp only
      rw [hget]
      obtain ⟨sources', rest, hexisting, hinputs, hrest⟩ := h.take hget
      refine (ih hrest (.reconciled hexisting hitem)).perm_inputs ?_
      rw [← append_assoc]
      exact (perm_append_comm.trans hinputs).append_right sources

theorem Folded.reconcile (h : Folded context result inputs) :
    Folded context (reconcileItemDuplicates context result) inputs := by
  have hfold : ∀ (items reconciled inputs inputs' : List ItemModel), Folded context reconciled inputs →
      Folded context items inputs' → Folded context (items.foldl (fun reconciled item =>
        TurnHistory.settleItem context reconciled.length reconciled item) reconciled)
        (inputs ++ inputs') := by
    intro items
    induction items with
    | nil =>
      rintro reconciled inputs inputs' h ⟨groups, hgroups, hfolded⟩
      cases hfolded
      rw [nil_perm.mp hgroups, append_nil]
      exact h
    | cons item items ih =>
      rintro reconciled inputs inputs' h ⟨groups, hgroups, hfolded⟩
      cases hfolded with
      | cons hitem hrest =>
        refine (ih _ _ _ (h.settleItem _ hitem) ⟨_, .refl _, hrest⟩).perm_inputs ?_
        rw [append_assoc]
        exact hgroups.append_left inputs
  exact hfold result [] [] inputs (folded_self []) h

theorem folded_mergePageItems (older newer : List ItemModel) :
    Folded context (mergePageItems context older newer) (older ++ newer) := by
  have hfold : ∀ (newer result inputs : List ItemModel), Folded context result inputs →
      Folded context (newer.foldl (TurnHistory.mergeCurrent context) result) (inputs ++ newer) := by
    intro newer
    induction newer with
    | nil =>
      intro result inputs h
      rw [append_nil]
      exact h
    | cons item newer ih =>
      intro result inputs h
      rw [append_cons]
      exact ih _ _ (h.mergeCurrent item)
  have hmerged := hfold (orderedItems newer) (orderedItems older) _ (folded_self _)
  have hinputs := (orderedItems_perm older).append (orderedItems_perm newer)
  exact ((hmerged.perm (orderedItems_perm _)).reconcile.perm (orderedItems_perm _)).perm_inputs
    hinputs

end Folded

/-! ## What the context records -/

/-- The input objects an item's context entry names, on either side. -/
def recordedLeaves (item : ItemModel) : List ItemObject :=
  leavesOf (item.provenance.bind (·.fresh)) ++ leavesOf (item.provenance.bind (·.older))

theorem leavesOf_combine (left right : Option ToolItemSourceMembership) :
    leavesOf (combineToolItemMembership left right) = leavesOf left ++ leavesOf right := by
  cases left <;> cases right <;> simp [combineToolItemMembership, leavesOf, membershipLeaves]

/-- Each side of the entry is joined on its own. -/
theorem mergedProvenance_sides (existing current : ItemModel) :
    (mergedProvenance existing current).bind (·.fresh) = combineToolItemMembership
        (existing.provenance.bind (·.fresh)) (current.provenance.bind (·.fresh)) ∧
      (mergedProvenance existing current).bind (·.older) = combineToolItemMembership
        (existing.provenance.bind (·.older)) (current.provenance.bind (·.older)) := by
  unfold mergedProvenance
  cases existing.provenance <;> cases current.provenance <;> exact ⟨rfl, rfl⟩

theorem recordedLeaves_recorded (existing current : ItemModel) (merged : ItemValue) :
    (recordedLeaves (recorded true existing current merged)).Perm
      (recordedLeaves existing ++ recordedLeaves current) := by
  obtain ⟨hfresh, holder⟩ := mergedProvenance_sides existing current
  unfold recordedLeaves
  show (leavesOf ((mergedProvenance existing current).bind (·.fresh)) ++
    leavesOf ((mergedProvenance existing current).bind (·.older))).Perm _
  rw [hfresh, holder, leavesOf_combine, leavesOf_combine, append_assoc, append_assoc]
  refine List.Perm.append_left _ ?_
  rw [← append_assoc, ← append_assoc]
  exact perm_append_comm.append_right _

/-- A returned item's entry names what the entries of its sources named. -/
theorem FoldedFrom.leaves {item : ItemModel} {sources : List ItemModel}
    (h : FoldedFrom true item sources) :
    (recordedLeaves item).Perm (sources.flatMap recordedLeaves) := by
  induction h with
  | source item => simp
  | merged _ _ ih ih' =>
    rw [flatMap_append]
    exact (recordedLeaves_recorded _ _ _).trans (ih.append ih')
  | reconciled _ _ ih ih' =>
    rw [flatMap_append]
    exact (recordedLeaves_recorded _ _ _).trans (ih.append ih')

theorem Folded.leaves {result inputs : List ItemModel} (h : Folded true result inputs) :
    (result.flatMap recordedLeaves).Perm (inputs.flatMap recordedLeaves) := by
  obtain ⟨groups, hgroups, hfolded⟩ := h
  refine List.Perm.trans ?_ (hgroups.flatMap_right _)
  clear hgroups
  induction hfolded with
  | nil => exact .refl _
  | cons hitem _ ih =>
    rw [flatMap_cons, flatten_cons, flatMap_append]
    exact hitem.leaves.append ih

/-- The references of the input objects an item's entry names. -/
def sourceRefs (item : ItemModel) : List Nat := (recordedLeaves item).map ItemObject.ref

theorem Folded.refs {result inputs : List ItemModel} (h : Folded true result inputs) :
    (result.flatMap sourceRefs).Perm (inputs.flatMap sourceRefs) := by
  have hmap := h.leaves.map ItemObject.ref
  rwa [map_flatMap, map_flatMap] at hmap

/-- What a flattened list holds once, one of its lists holds and no other. -/
theorem filter_eq_singleton_of_count {α : Type} {f : α → List Nat} {x : Nat} {l : List α}
    (h : (l.flatMap f).count x = 1) : ∃ a, l.filter (fun a => x ∈ f a) = [a] := by
  induction l with
  | nil => exact absurd h (by simp)
  | cons a l ih =>
    rw [flatMap_cons, count_append] at h
    by_cases hmem : x ∈ f a
    · have hpos := count_pos_iff.mpr hmem
      have hzero : (l.flatMap f).count x = 0 := by omega
      refine ⟨a, ?_⟩
      rw [filter_cons_of_pos (by simpa using hmem), List.cons.injEq, filter_eq_nil_iff]
      refine ⟨rfl, fun b hb hxb => ?_⟩
      exact count_eq_zero.mp hzero (mem_flatMap.mpr ⟨b, hb, by simpa using hxb⟩)
    · rw [count_eq_zero.mpr hmem, Nat.zero_add] at h
      rw [filter_cons_of_neg (by simpa using hmem)]
      exact ih h

theorem reconcileTurn_wellFounded (context : Bool) :
    WellFounded fun s' s => ReconcileTurn context s s' := by
  refine Subrelation.wf ?_ (InvImage.wf (fun s : List ItemModel × ItemModel => s.1.length)
    Nat.lt_wfRel.wf)
  intro s' s hturn
  have hless := hturn.consumes
  show s'.1.length < s.1.length
  omega

/-- One identity, one item. No two returned items match; the input items fall into the groups the
    returned items were folded from, so that an input the context names once is a source of one
    returned item alone; and the inner loop ends on every input, with what `settleItem` returns. -/
theorem mergePageItems_one_identity (context : Bool) (older newer : List ItemModel) :
    Distinct (mergePageItems context older newer) ∧
    Folded context (mergePageItems context older newer) (older ++ newer) ∧
    (∀ ref, ((older ++ newer).flatMap sourceRefs).count ref = 1 →
      ∃ item, (mergePageItems true older newer).filter (fun item => ref ∈ sourceRefs item) =
        [item]) ∧
    (WellFounded fun s' s => ReconcileTurn context s s') ∧
    ∀ reconciled current, ∃ final : List ItemModel × ItemModel,
      Relation.ReflTransGen (ReconcileTurn context) (reconciled, current) final ∧
      (∀ s, ¬ ReconcileTurn context final s) ∧
      settleItem context reconciled.length reconciled current = final.1 ++ [final.2] := by
  refine ⟨?_, folded_mergePageItems older newer, fun ref hcount => ?_,
    reconcileTurn_wellFounded context, fun reconciled current => ?_⟩
  · exact (reconcileItemDuplicates_distinct context _).perm (orderedItems_perm _).symm
  · refine filter_eq_singleton_of_count ?_
    rw [(folded_mergePageItems older newer).refs.count_eq, hcount]
  · obtain ⟨final, hreach, hends, heq⟩ := settleItem_ends context current
      (le_refl reconciled.length)
    refine ⟨final, hreach, fun s hturn => ?_, heq⟩
    cases hturn with
    | fold hfind _ =>
      obtain ⟨hlt, hmatch, -⟩ := findIdx?_eq_some_iff_getElem.mp hfind
      rw [hends _ (getElem_mem hlt)] at hmatch
      exact Bool.false_ne_true hmatch

end Evener.TurnHistory
