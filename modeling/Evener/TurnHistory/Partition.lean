/-
  Coalescing is a partition of the input turns into groups without conflicting keys, and two
  groups that match were kept apart by such a conflict.
-/
import Evener.TurnHistory.Coalesce
import Evener.Lib.Sequences
import Mathlib.Data.List.TakeWhile

namespace Evener.TurnHistory

open Evener.Lib List
open Evener.Lib.JsValue

/-! ## Symmetry -/

variable {a b : TurnModel} {f : TurnFragment} {l' l grown added : List TurnFragment}
  {groups : List TurnFragmentGroup}

theorem turnsMatch_iff : turnsMatch a b = true ↔
    a.id = b.id ∨ ∃ x ∈ a.items, ∃ y ∈ b.items,
      itemIdentityMatches x.toItemValue y.toItemValue = true := by
  simp [turnsMatch, turnsShareItemIdentity]

theorem turnsMatch_comm (h : turnsMatch a b = true) : turnsMatch b a = true := by
  rcases (turnsMatch_iff).mp h with hid | ⟨x, hx, y, hy, hxy⟩
  · exact (turnsMatch_iff).mpr (Or.inl hid.symm)
  · rw [itemIdentityMatches_comm] at hxy
    exact (turnsMatch_iff).mpr (Or.inr ⟨y, hy, x, hx, hxy⟩)

theorem itemsConflict_iff {a b : ItemValue} : itemsConflict a b = true ↔
    a.id = b.id ∧ truthy a.transcriptKey = true ∧ truthy b.transcriptKey = true ∧
      a.transcriptKey ≠ b.transcriptKey := by
  simp [itemsConflict, and_assoc]

theorem itemsConflict_comm {a b : ItemValue} (h : itemsConflict a b = true) :
    itemsConflict b a = true := by
  obtain ⟨hid, ha, hb, hne⟩ := (itemsConflict_iff).mp h
  exact (itemsConflict_iff).mpr ⟨hid.symm, hb, ha, hne.symm⟩

theorem turnsCarryConflictingKeys_iff : turnsCarryConflictingKeys a b = true ↔
    ∃ x ∈ a.items, ∃ y ∈ b.items, itemsConflict x.toItemValue y.toItemValue = true := by
  simp [turnsCarryConflictingKeys]

theorem turnsCarryConflictingKeys_comm (h : turnsCarryConflictingKeys a b = true) :
    turnsCarryConflictingKeys b a = true := by
  obtain ⟨x, hx, y, hy, hxy⟩ := (turnsCarryConflictingKeys_iff).mp h
  exact (turnsCarryConflictingKeys_iff).mpr ⟨y, hy, x, hx, itemsConflict_comm hxy⟩

/-! ## Lists of fragments -/

def Compatible (f g : TurnFragment) : Prop := ¬ turnsCarryConflictingKeys f.turn g.turn = true

theorem Compatible.symm {g : TurnFragment} (h : Compatible f g) : Compatible g f :=
  fun hconflict => h (turnsCarryConflictingKeys_comm hconflict)

/-- Some fragment of the one matches some fragment of the other. -/
def Touches (l l' : List TurnFragment) : Prop :=
  ∃ f ∈ l, ∃ g ∈ l', turnsMatch f.turn g.turn = true

def Conflicts (l l' : List TurnFragment) : Prop :=
  ∃ f ∈ l, ∃ g ∈ l', turnsCarryConflictingKeys f.turn g.turn = true

theorem Touches.symm (h : Touches l l') : Touches l' l := by
  obtain ⟨f, hf, g, hg, hfg⟩ := h
  exact ⟨g, hg, f, hf, turnsMatch_comm hfg⟩

theorem Conflicts.symm (h : Conflicts l l') : Conflicts l' l := by
  obtain ⟨f, hf, g, hg, hfg⟩ := h
  exact ⟨g, hg, f, hf, turnsCarryConflictingKeys_comm hfg⟩

theorem Conflicts.mono {m : List TurnFragment} (h : Conflicts l l') (hsub : l ⊆ m) :
    Conflicts m l' := by
  obtain ⟨f, hf, g, hg, hfg⟩ := h
  exact ⟨f, hsub hf, g, hg, hfg⟩

theorem fragmentsCarryConflictingKeys_iff :
    fragmentsCarryConflictingKeys l l' = true ↔ Conflicts l l' := by
  simp [fragmentsCarryConflictingKeys, Conflicts]

theorem groupMatchesFragment_iff {group : TurnFragmentGroup} {fragment : TurnFragment} :
    groupMatchesFragment group fragment = true ↔ Touches group.fragments [fragment] := by
  simp [groupMatchesFragment, Touches]

theorem groupConflictsWithFragment_iff {group : TurnFragmentGroup} {fragment : TurnFragment} :
    groupConflictsWithFragment group fragment = true ↔ Conflicts group.fragments [fragment] := by
  simp [groupConflictsWithFragment, Conflicts]

/-- Groups that match are kept apart by a conflict only. -/
def ApartLists (l l' : List TurnFragment) : Prop := Touches l l' → Conflicts l l'

def Apart (g h : TurnFragmentGroup) : Prop := ApartLists g.fragments h.fragments

theorem ApartLists.symm (h : ApartLists l l') : ApartLists l' l :=
  fun htouches => (h htouches.symm).symm

theorem ApartLists.perm_left {m : List TurnFragment} (h : ApartLists l l') (hp : l.Perm m) :
    ApartLists m l' := by
  intro ⟨f, hf, g, hg, hfg⟩
  exact (h ⟨f, hp.mem_iff.mpr hf, g, hg, hfg⟩).mono hp.subset

/-! ## Absorbing groups -/

section Absorb

variable (fragment : TurnFragment)

theorem absorb_append (grown : List TurnFragment) (groups groups' : List TurnFragmentGroup) :
    absorb fragment grown (groups ++ groups') =
      ((absorb fragment (absorb fragment grown groups).1 groups').1,
        (absorb fragment grown groups).2 ++
          (absorb fragment (absorb fragment grown groups).1 groups').2) := by
  induction groups generalizing grown with
  | nil => simp [absorb]
  | cons group groups ih =>
    rw [cons_append]
    simp only [absorb]
    split
    · rw [ih]
    · rw [ih]
      rfl

theorem absorb_kept (grown : List TurnFragment) (groups : List TurnFragmentGroup) :
    (absorb fragment grown groups).2.Sublist groups := by
  induction groups generalizing grown with
  | nil => exact List.Sublist.refl _
  | cons group groups ih =>
    simp only [absorb]
    split
    · exact (ih _).cons group
    · exact (ih _).cons_cons group

theorem absorb_perm (grown : List TurnFragment) (groups : List TurnFragmentGroup) :
    ((absorb fragment grown groups).1 ++
      (absorb fragment grown groups).2.flatMap TurnFragmentGroup.fragments).Perm
      (grown ++ groups.flatMap TurnFragmentGroup.fragments) := by
  induction groups generalizing grown with
  | nil => exact List.Perm.refl _
  | cons group groups ih =>
    simp only [absorb]
    split
    · refine (ih _).trans ?_
      rw [flatMap_cons, append_assoc]
    · rw [flatMap_cons, flatMap_cons]
      -- the kept group moves past what was gathered, on both sides
      have hleft : ((absorb fragment grown groups).1 ++ (group.fragments ++
          (absorb fragment grown groups).2.flatMap TurnFragmentGroup.fragments)).Perm
          (group.fragments ++ ((absorb fragment grown groups).1 ++
            (absorb fragment grown groups).2.flatMap TurnFragmentGroup.fragments)) :=
        perm_append_comm_assoc _ _ _
      have hright : (group.fragments ++ (grown ++ groups.flatMap TurnFragmentGroup.fragments)).Perm
          (grown ++ (group.fragments ++ groups.flatMap TurnFragmentGroup.fragments)) :=
        perm_append_comm_assoc _ _ _
      exact hleft.trans (((ih grown).append_left _).trans hright)

theorem subset_absorb (grown : List TurnFragment) (groups : List TurnFragmentGroup) :
    grown ⊆ (absorb fragment grown groups).1 := by
  induction groups generalizing grown with
  | nil => exact List.Subset.refl _
  | cons group groups ih =>
    simp only [absorb]
    split
    · exact List.Subset.trans (subset_append_left _ _) (ih _)
    · exact ih _

/-- What the target has grown by are whole groups. -/
theorem mem_absorb (hf : f ∈ (absorb fragment grown groups).1) :
    f ∈ grown ∨ ∃ group ∈ groups, f ∈ group.fragments ∧
      group.fragments ⊆ (absorb fragment grown groups).1 := by
  induction groups generalizing grown with
  | nil => exact Or.inl hf
  | cons group groups ih =>
    simp only [absorb] at hf ⊢
    split at hf
    · next hjoin =>
      rw [if_pos hjoin]
      rcases ih hf with hgrown | ⟨other, hother, hmem, hsub⟩
      · rcases mem_append.mp hgrown with hgrown | hgroup
        · exact Or.inl hgrown
        · refine Or.inr ⟨group, mem_cons_self, hgroup, ?_⟩
          exact List.Subset.trans (subset_append_right _ _) (subset_absorb fragment _ groups)
      · exact Or.inr ⟨other, mem_cons_of_mem _ hother, hmem, hsub⟩
    · next hjoin =>
      rw [if_neg hjoin]
      rcases ih hf with hgrown | ⟨other, hother, hmem, hsub⟩
      · exact Or.inl hgrown
      · exact Or.inr ⟨other, mem_cons_of_mem _ hother, hmem, hsub⟩

theorem absorb_compatible (hgrown : grown.Pairwise Compatible)
    (hgroups : ∀ group ∈ groups, group.fragments.Pairwise Compatible) :
    (absorb fragment grown groups).1.Pairwise Compatible := by
  induction groups generalizing grown with
  | nil => exact hgrown
  | cons group groups ih =>
    have hrest := fun g hg => hgroups g (mem_cons_of_mem _ hg)
    simp only [absorb]
    split
    · next hjoin =>
      refine ih (pairwise_append.mpr ⟨hgrown, hgroups group mem_cons_self, ?_⟩) hrest
      intro f hf g hg hconflict
      have hnot := (Bool.and_eq_true_iff.mp hjoin).2
      rw [fragmentsCarryConflictingKeys_iff.mpr ⟨f, hf, g, hg, hconflict⟩] at hnot
      exact Bool.false_ne_true hnot
    · exact ih hgrown hrest

/-- A kept group that the grown target touches conflicts with it, provided that at the outset
    every group the target touched did so or matched the fragment. -/
theorem absorb_apart (hapart : groups.Pairwise Apart)
    (hgrown : ∀ group ∈ groups, Touches grown group.fragments → Conflicts grown group.fragments ∨
      groupMatchesFragment group fragment = true) :
    ∀ group ∈ (absorb fragment grown groups).2,
      ApartLists (absorb fragment grown groups).1 group.fragments := by
  induction groups generalizing grown with
  | nil => exact fun _ hmem => nomatch hmem
  | cons group groups ih =>
    obtain ⟨hhead, htail⟩ := pairwise_cons.mp hapart
    simp only [absorb]
    split
    · refine ih htail fun other hother => ?_
      intro ⟨f, hf, g, hg, hfg⟩
      rcases mem_append.mp hf with hf | hf
      · have hold := hgrown other (mem_cons_of_mem _ hother) ⟨f, hf, g, hg, hfg⟩
        exact hold.imp (fun h => h.mono (subset_append_left _ _)) id
      · exact Or.inl ((hhead other hother ⟨f, hf, g, hg, hfg⟩).mono (subset_append_right _ _))
    · next hkept =>
      intro kept hmem
      rcases mem_cons.mp hmem with rfl | hmem
      · intro ⟨f, hf, g, hg, hfg⟩
        rcases mem_absorb fragment hf with hf | ⟨other, hother, hmemOther, hsub⟩
        · have hconflicts : Conflicts grown kept.fragments := by
            rcases hgrown kept mem_cons_self ⟨f, hf, g, hg, hfg⟩ with h | hmatches
            · exact h
            · by_contra hnone
              refine hkept (Bool.and_eq_true_iff.mpr ⟨hmatches, ?_⟩)
              rw [Bool.not_eq_true', ← Bool.not_eq_true]
              exact fun h => hnone (fragmentsCarryConflictingKeys_iff.mp h)
          exact hconflicts.mono (subset_absorb fragment grown groups)
        · -- a group absorbed later touches the kept one, so it conflicts with it
          have htouches : Touches kept.fragments other.fragments :=
            ⟨g, hg, f, hmemOther, turnsMatch_comm hfg⟩
          exact (hhead other hother htouches).symm.mono hsub
      · exact ih htail (fun other hother => hgrown other (mem_cons_of_mem _ hother)) kept hmem

end Absorb

/-! ## Adding fragments one by one -/

/-- The groups after the fragments `added`. -/
structure Grouped (added : List TurnFragment) (groups : List TurnFragmentGroup) : Prop where
  perm : (groups.flatMap TurnFragmentGroup.fragments).Perm added
  compatible : ∀ group ∈ groups, group.fragments.Pairwise Compatible
  apart : groups.Pairwise Apart
  nonempty : ∀ group ∈ groups, group.fragments ≠ []
  ordered : ∀ group ∈ groups, group.fragments.Pairwise fun f g => f.order ≤ g.order

theorem grouped_nil : Grouped [] [] where
  perm := List.Perm.refl _
  compatible := fun _ h => nomatch h
  apart := List.Pairwise.nil
  nonempty := fun _ h => nomatch h
  ordered := fun _ h => nomatch h

theorem not_joinable {fragment : TurnFragment} {group : TurnFragmentGroup}
    (h : joinable fragment group = false) (hmatches : groupMatchesFragment group fragment = true) :
    Conflicts group.fragments [fragment] := by
  simp only [joinable, hmatches, Bool.true_and, Bool.not_eq_false'] at h
  exact groupConflictsWithFragment_iff.mp h

/-- No group can take the fragment: it opens a group of its own. -/
theorem Grouped.open (h : Grouped added groups) (fragment : TurnFragment)
    (hnone : ∀ group ∈ groups, joinable fragment group = false) :
    Grouped (added ++ [fragment])
      (groups ++ [{ fragments := [fragment], firstOrder := fragment.order }]) where
  perm := by
    rw [flatMap_append]
    exact h.perm.append_right _
  compatible := by
    intro group hgroup
    rcases mem_append.mp hgroup with hgroup | hgroup
    · exact h.compatible group hgroup
    · rw [mem_singleton.mp hgroup]
      exact pairwise_singleton _ _
  apart := by
    refine pairwise_append.mpr ⟨h.apart, pairwise_singleton _ _, ?_⟩
    intro group hgroup new hnew htouches
    rw [mem_singleton.mp hnew] at htouches ⊢
    exact not_joinable (hnone group hgroup) (groupMatchesFragment_iff.mpr htouches)
  nonempty := by
    intro group hgroup
    rcases mem_append.mp hgroup with hgroup | hgroup
    · exact h.nonempty group hgroup
    · rw [mem_singleton.mp hgroup]
      exact cons_ne_nil _ _
  ordered := by
    intro group hgroup
    rcases mem_append.mp hgroup with hgroup | hgroup
    · exact h.ordered group hgroup
    · rw [mem_singleton.mp hgroup]
      exact pairwise_singleton _ _

theorem orderedGroup_perm (fragments : List TurnFragment) (firstOrder : Nat) :
    (orderedGroup fragments firstOrder).fragments.Perm fragments := sortBy_perm _

/-- The fragment joins the target, with the groups it pulls in from both sides of it. -/
theorem Grouped.join {earlier later : List TurnFragmentGroup} {target : TurnFragmentGroup}
    (h : Grouped added (earlier ++ target :: later)) (fragment : TurnFragment)
    (hjoin : joinable fragment target = true) {firstOrder : Nat}
    {kept kept' : List TurnFragmentGroup}
    (habsorb : absorb fragment (target.fragments ++ [fragment]) (earlier ++ later) = (grown, kept ++ kept')) :
    Grouped (added ++ [fragment]) (kept ++ orderedGroup grown firstOrder :: kept') := by
  have hsym : ∀ {g h : TurnFragmentGroup}, Apart g h → Apart h g := fun h => ApartLists.symm h
  obtain ⟨htargetApart, hothersApart⟩ :=
    pairwise_cons.mp ((pairwise_middle hsym).mp h.apart)
  have hmemOthers : ∀ {group}, group ∈ earlier ++ later → group ∈ earlier ++ target :: later := by
    intro group hgroup
    rcases mem_append.mp hgroup with hgroup | hgroup
    · exact mem_append_left _ hgroup
    · exact mem_append_right _ (mem_cons_of_mem _ hgroup)
  have htarget : target ∈ earlier ++ target :: later :=
    mem_append_right _ mem_cons_self
  have hkept := absorb_kept fragment (target.fragments ++ [fragment]) (earlier ++ later)
  have hperm := absorb_perm fragment (target.fragments ++ [fragment]) (earlier ++ later)
  have hsub := subset_absorb fragment (target.fragments ++ [fragment]) (earlier ++ later)
  have hnoConflict : ¬ Conflicts target.fragments [fragment] := by
    intro hconflict
    simp [joinable, groupConflictsWithFragment_iff.mpr hconflict] at hjoin
  have hcompatible : grown.Pairwise Compatible := by
    have hstart : (target.fragments ++ [fragment]).Pairwise Compatible :=
      pairwise_append.mpr ⟨h.compatible target htarget, pairwise_singleton _ _,
        fun f hf g hg hconflict => hnoConflict ⟨f, hf, g, hg, hconflict⟩⟩
    have := absorb_compatible fragment hstart fun g hg => h.compatible g (hmemOthers hg)
    rwa [habsorb] at this
  have hapart : ∀ group ∈ kept ++ kept', ApartLists grown group.fragments := by
    have hstart : ∀ group ∈ earlier ++ later,
        Touches (target.fragments ++ [fragment]) group.fragments →
          Conflicts (target.fragments ++ [fragment]) group.fragments ∨
            groupMatchesFragment group fragment = true := by
      intro group hgroup ⟨f, hf, g, hg, hfg⟩
      rcases mem_append.mp hf with hf | hf
      · exact Or.inl ((htargetApart group hgroup ⟨f, hf, g, hg, hfg⟩).mono
          (subset_append_left _ _))
      · rw [mem_singleton.mp hf] at hfg
        exact Or.inr (groupMatchesFragment_iff.mpr
          ⟨g, hg, fragment, mem_singleton_self _, turnsMatch_comm hfg⟩)
    have := absorb_apart fragment hothersApart hstart
    rwa [habsorb] at this
  rw [habsorb] at hkept hperm hsub
  have hgrownNonempty : grown ≠ [] := by
    intro hnil
    rw [hnil] at hsub
    exact not_mem_nil (hsub (mem_append_right _ (mem_singleton_self fragment)))
  -- the result holds the joined group and groups that were there before
  have hcases : ∀ {group}, group ∈ kept ++ orderedGroup grown firstOrder :: kept' →
      group = orderedGroup grown firstOrder ∨ group ∈ earlier ++ target :: later := by
    intro group hgroup
    rcases mem_append.mp hgroup with hgroup | hgroup
    · exact Or.inr (hmemOthers (hkept.subset (mem_append_left _ hgroup)))
    · rcases mem_cons.mp hgroup with hgroup | hgroup
      · exact Or.inl hgroup
      · exact Or.inr (hmemOthers (hkept.subset (mem_append_right _ hgroup)))
  refine ⟨?_, ?_, ?_, ?_, ?_⟩
  · have hresult : ((kept ++ orderedGroup grown firstOrder :: kept').flatMap
        TurnFragmentGroup.fragments).Perm (grown ++ (kept ++ kept').flatMap
          TurnFragmentGroup.fragments) := by
      rw [flatMap_append, flatMap_cons, flatMap_append]
      exact (perm_append_comm_assoc _ _ _).trans
        ((orderedGroup_perm grown firstOrder).append_right _)
    have hinput : (target.fragments ++ [fragment] ++ (earlier ++ later).flatMap
        TurnFragmentGroup.fragments).Perm ((earlier ++ target :: later).flatMap
          TurnFragmentGroup.fragments ++ [fragment]) := by
      rw [flatMap_append, flatMap_append, flatMap_cons]
      refine (perm_append_comm_assoc _ _ _).trans ?_
      have hmove : (target.fragments ++ [fragment] ++ later.flatMap
          TurnFragmentGroup.fragments).Perm (target.fragments ++ later.flatMap
            TurnFragmentGroup.fragments ++ [fragment]) := by
        rw [append_assoc, append_assoc]
        exact perm_append_comm.append_left _
      rw [append_assoc (earlier.flatMap TurnFragmentGroup.fragments)]
      exact hmove.append_left _
    exact hresult.trans (hperm.trans (hinput.trans (h.perm.append_right _)))
  · intro group hgroup
    rcases hcases hgroup with rfl | hgroup
    · exact (orderedGroup_perm grown firstOrder).symm.pairwise hcompatible fun h => h.symm
    · exact h.compatible group hgroup
  · refine (pairwise_middle hsym).mpr (pairwise_cons.mpr ⟨?_, ?_⟩)
    · intro group hgroup
      exact (hapart group hgroup).perm_left (orderedGroup_perm grown firstOrder).symm
    · exact hothersApart.sublist hkept
  · intro group hgroup
    rcases hcases hgroup with rfl | hgroup
    · intro hnil
      exact hgrownNonempty (perm_nil.mp (hnil ▸ (orderedGroup_perm grown firstOrder).symm))
    · exact h.nonempty group hgroup
  · intro group hgroup
    rcases hcases hgroup with rfl | hgroup
    · exact sortBy_pairwise grown
    · exact h.ordered group hgroup

theorem Grouped.addFragment (h : Grouped added groups) (fragment : TurnFragment) :
    Grouped (added ++ [fragment]) (addFragment groups fragment) := by
  unfold TurnHistory.addFragment
  have hsplit := takeWhile_append_dropWhile (p := fun group => !joinable fragment group)
    (l := groups)
  split
  · next hnone =>
    refine h.open fragment fun group hgroup => ?_
    have hall := dropWhile_eq_nil_iff.mp hnone group hgroup
    simpa using hall
  · next target later hfound =>
    have hjoin : joinable fragment target = true := by
      have hne : groups.dropWhile (fun group => !joinable fragment group) ≠ [] := by
        rw [hfound]
        exact cons_ne_nil _ _
      have hhead := head_dropWhile_not (fun group => !joinable fragment group) hne
      simpa [hfound] using hhead
    rw [hfound] at hsplit
    rw [← hsplit] at h
    exact h.join fragment hjoin (absorb_append fragment _ _ _)

theorem grouped_fragmentGroups (older fresh : List TurnModel) :
    Grouped (inputFragments older fresh) (fragmentGroups older fresh) := by
  have hrun : ∀ (l added : List TurnFragment) (groups : List TurnFragmentGroup),
      Grouped added groups → Grouped (added ++ l) (l.foldl TurnHistory.addFragment groups) := by
    intro l
    induction l with
    | nil =>
      intro added groups h
      rwa [append_nil]
    | cons fragment l ih =>
      intro added groups h
      have := ih _ _ (h.addFragment fragment)
      rwa [append_assoc] at this
  exact hrun _ [] [] grouped_nil

/-! ## Groups of one class -/

section Uniform

variable {γ : Type} (cls : TurnFragment → γ)

variable {cls} {fragment : TurnFragment}

end Uniform

/-! ## The coalesced turns -/

def TurnFragment.key (fragment : TurnFragment) : FragmentSource × Nat :=
  (fragment.source, fragment.index)

/-- The input turns of a coalesced turn, by side and index. -/
def CoalescedTurn.members (group : CoalescedTurn) : List (FragmentSource × Nat) :=
  group.olderIndexes.map (fun index => (.older, index)) ++
    group.freshIndexes.map fun index => (.fresh, index)

def inputKeys (older fresh : List TurnModel) : List (FragmentSource × Nat) :=
  (List.range older.length).map (fun index => (.older, index)) ++
    (List.range fresh.length).map fun index => (.fresh, index)

def inputTurn (older fresh : List TurnModel) : FragmentSource × Nat → Option TurnModel
  | (.older, index) => older[index]?
  | (.fresh, index) => fresh[index]?

theorem key_inputFragments (older fresh : List TurnModel) :
    (inputFragments older fresh).map TurnFragment.key = inputKeys older fresh := by
  have hside : ∀ (turns : List TurnModel) (source : FragmentSource) (order : Nat → Nat),
      (turns.zipIdx.map fun entry => TurnFragment.key
        { turn := entry.1, source := source, index := entry.2, order := order entry.2 }) =
        (List.range turns.length).map fun index => (source, index) := by
    intro turns source order
    rw [range_eq_range', ← zipIdx_map_snd, map_map]
    rfl
  unfold inputFragments inputKeys
  rw [map_append, map_map, map_map]
  exact congrArg₂ _ (hside older .older id) (hside fresh .fresh (older.length + ·))

theorem inputTurn_key {older fresh : List TurnModel} {fragment : TurnFragment}
    (h : fragment ∈ inputFragments older fresh) :
    inputTurn older fresh fragment.key = some fragment.turn := by
  rcases mem_append.mp h with h | h
  · obtain ⟨entry, hentry, rfl⟩ := mem_map.mp h
    exact mem_zipIdx_iff_getElem?.mp hentry
  · obtain ⟨entry, hentry, rfl⟩ := mem_map.mp h
    exact mem_zipIdx_iff_getElem?.mp hentry

theorem nodup_inputKeys (older fresh : List TurnModel) : (inputKeys older fresh).Nodup := by
  have hside : ∀ (n : Nat) (source : FragmentSource),
      ((List.range n).map fun index => (source, index)).Nodup := fun n source =>
    nodup_range.map fun a b h => (Prod.mk.inj h).2
  refine nodup_append.mpr ⟨hside _ _, hside _ _, ?_⟩
  intro a ha b hb hab
  obtain ⟨_, _, rfl⟩ := mem_map.mp ha
  obtain ⟨_, _, rfl⟩ := mem_map.mp hb
  cases hab

/-- A group and the turn it is coalesced into. -/
structure CoalescesTo (context : Bool) (group : TurnFragmentGroup) (turn : CoalescedTurn) : Prop where
  eq : coalesceGroup context group = some turn
  older : turn.olderIndexes = (fragmentsOf .older group).map TurnFragment.index
  fresh : turn.freshIndexes = (fragmentsOf .fresh group).map TurnFragment.index

theorem mem_fragmentsOf {source : FragmentSource} {group : TurnFragmentGroup}
    {fragment : TurnFragment} :
    fragment ∈ fragmentsOf source group ↔ fragment ∈ group.fragments ∧ fragment.source = source := by
  simp [fragmentsOf]

theorem fragmentsOf_perm (group : TurnFragmentGroup) :
    (fragmentsOf .older group ++ fragmentsOf .fresh group).Perm group.fragments := by
  have hfresh : fragmentsOf .fresh group =
      group.fragments.filter fun fragment => !decide (fragment.source = .older) := by
    refine filter_congr fun fragment _ => ?_
    cases fragment.source <;> rfl
  rw [hfresh]
  exact filter_append_perm _ _

theorem exists_coalescesTo (context : Bool) {group : TurnFragmentGroup}
    (hne : group.fragments ≠ []) : ∃ turn, CoalescesTo context group turn := by
  cases hsides : fragmentsOf .older group ++ fragmentsOf .fresh group with
  | nil =>
    have hperm := fragmentsOf_perm group
    rw [hsides] at hperm
    exact absurd (nil_perm.mp hperm) hne
  | cons first rest =>
    refine ⟨
      { turn := rest.foldl (fun current fragment => mergePageTurn context current fragment.turn)
          first.turn
        olderIndexes := (fragmentsOf .older group).map TurnFragment.index
        freshIndexes := (fragmentsOf .fresh group).map TurnFragment.index }, ?_, rfl, rfl⟩
    unfold coalesceGroup
    rw [hsides]

theorem CoalescesTo.members_perm {context : Bool} {group : TurnFragmentGroup} {turn : CoalescedTurn}
    (h : CoalescesTo context group turn) :
    turn.members.Perm (group.fragments.map TurnFragment.key) := by
  have hside : ∀ source, ((fragmentsOf source group).map TurnFragment.index).map
      (fun index => (source, index)) = (fragmentsOf source group).map TurnFragment.key := by
    intro source
    rw [map_map]
    refine map_congr_left fun fragment hfragment => ?_
    rw [← ((mem_fragmentsOf).mp hfragment).2]
    rfl
  unfold CoalescedTurn.members
  rw [h.older, h.fresh, hside, hside, ← map_append]
  exact (fragmentsOf_perm group).map _

/-- The groups in the order they are coalesced. -/
def orderedGroups (older fresh : List TurnModel) : List TurnFragmentGroup :=
  sortBy TurnFragmentGroup.firstOrder (fragmentGroups older fresh)

theorem grouped_orderedGroups (older fresh : List TurnModel) :
    Grouped (inputFragments older fresh) (orderedGroups older fresh) := by
  have h := grouped_fragmentGroups older fresh
  have hperm : (orderedGroups older fresh).Perm (fragmentGroups older fresh) := sortBy_perm _
  exact
    { perm := (hperm.flatMap_right _).trans h.perm
      compatible := fun group hgroup => h.compatible group (hperm.mem_iff.mp hgroup)
      apart := hperm.symm.pairwise h.apart fun hapart => ApartLists.symm hapart
      nonempty := fun group hgroup => h.nonempty group (hperm.mem_iff.mp hgroup)
      ordered := fun group hgroup => h.ordered group (hperm.mem_iff.mp hgroup) }

theorem coalesceTurnFragments_forall₂ (context : Bool) (older fresh : List TurnModel) :
    List.Forall₂ (CoalescesTo context) (orderedGroups older fresh)
      (coalesceTurnFragments context older fresh) := by
  have hne := (grouped_orderedGroups older fresh).nonempty
  show List.Forall₂ _ _ ((orderedGroups older fresh).filterMap (coalesceGroup context))
  generalize orderedGroups older fresh = groups at hne
  induction groups with
  | nil => exact List.Forall₂.nil
  | cons group groups ih =>
    obtain ⟨turn, hturn⟩ := exists_coalescesTo context (hne group mem_cons_self)
    rw [filterMap_cons, hturn.eq]
    exact List.Forall₂.cons hturn (ih fun g hg => hne g (mem_cons_of_mem _ hg))

/-- The two input turns carry items of one id under different keys. -/
def InputsConflict (older fresh : List TurnModel) (m m' : FragmentSource × Nat) : Prop :=
  ∃ t t', inputTurn older fresh m = some t ∧ inputTurn older fresh m' = some t' ∧
    turnsCarryConflictingKeys t t' = true

/-- The two input turns have one id or share an item. -/
def InputsMatch (older fresh : List TurnModel) (m m' : FragmentSource × Nat) : Prop :=
  ∃ t t', inputTurn older fresh m = some t ∧ inputTurn older fresh m' = some t' ∧
    turnsMatch t t' = true

section Members

variable {context : Bool} {group : TurnFragmentGroup} {turn : CoalescedTurn}

theorem CoalescesTo.fragment_of_member (h : CoalescesTo context group turn)
    {m : FragmentSource × Nat} (hm : m ∈ turn.members) : ∃ f ∈ group.fragments, f.key = m :=
  mem_map.mp (h.members_perm.mem_iff.mp hm)

theorem CoalescesTo.member_of_fragment (h : CoalescesTo context group turn)
    (hf : f ∈ group.fragments) : f.key ∈ turn.members :=
  h.members_perm.mem_iff.mpr (mem_map.mpr ⟨f, hf, rfl⟩)

theorem members_perm_of_forall₂ {turns : List CoalescedTurn}
    (h : List.Forall₂ (CoalescesTo context) groups turns) :
    (turns.flatMap CoalescedTurn.members).Perm
      (groups.flatMap fun group => group.fragments.map TurnFragment.key) := by
  induction h with
  | nil => exact List.Perm.refl _
  | cons hturn _ ih =>
    rw [flatMap_cons, flatMap_cons]
    exact hturn.members_perm.append ih

end Members

theorem coalesceTurnFragments_members (context : Bool) (older fresh : List TurnModel) :
    ((coalesceTurnFragments context older fresh).flatMap CoalescedTurn.members).Perm
      (inputKeys older fresh) := by
  refine (members_perm_of_forall₂ (coalesceTurnFragments_forall₂ context older fresh)).trans ?_
  rw [← key_inputFragments, ← map_flatMap]
  exact (grouped_orderedGroups older fresh).perm.map _

/-- Every input turn goes to exactly one group; no group holds two turns with conflicting keys,
    whatever else it holds; and two groups with matching turns hold such a conflict. -/
theorem coalesce_partition (context : Bool) (older fresh : List TurnModel) :
    ((coalesceTurnFragments context older fresh).flatMap CoalescedTurn.members).Perm
      (inputKeys older fresh) ∧
    (inputKeys older fresh).Nodup ∧
    (∀ group ∈ coalesceTurnFragments context older fresh, ∀ m ∈ group.members,
      ∀ m' ∈ group.members, m ≠ m' → ¬ InputsConflict older fresh m m') ∧
    (coalesceTurnFragments context older fresh).Pairwise fun group group' =>
      (∀ m ∈ group.members, ∀ m' ∈ group'.members, ¬ InputsMatch older fresh m m') ∨
      ∃ m ∈ group.members, ∃ m' ∈ group'.members, InputsConflict older fresh m m' := by
  have hgrouped := grouped_orderedGroups older fresh
  have hall := coalesceTurnFragments_forall₂ context older fresh
  have hinput : ∀ group ∈ orderedGroups older fresh, ∀ f ∈ group.fragments,
      inputTurn older fresh f.key = some f.turn := by
    intro group hgroup f hf
    exact inputTurn_key (hgrouped.perm.mem_iff.mp (mem_flatMap.mpr ⟨group, hgroup, hf⟩))
  refine ⟨coalesceTurnFragments_members context older fresh, nodup_inputKeys older fresh, ?_, ?_⟩
  · intro turn hturn m hm m' hm' hne ⟨t, t', ht, ht', hconflict⟩
    obtain ⟨group, hgroup, hcoalesces⟩ := exists_of_forall₂_right hall hturn
    obtain ⟨f, hf, rfl⟩ := hcoalesces.fragment_of_member hm
    obtain ⟨f', hf', rfl⟩ := hcoalesces.fragment_of_member hm'
    rw [hinput group hgroup f hf] at ht
    rw [hinput group hgroup f' hf'] at ht'
    cases ht
    cases ht'
    have hsymm : Std.Symm Compatible := ⟨fun _ _ h => h.symm⟩
    exact (hgrouped.compatible group hgroup).forall hf hf' (fun h => hne (congrArg _ h)) hconflict
  · refine pairwise_of_forall₂ hall hgrouped.apart ?_
    intro group hgroup turn hturn group' hgroup' turn' hturn' hapart
    by_cases hconflicts : Conflicts group.fragments group'.fragments
    · right
      obtain ⟨f, hf, f', hf', hconflict⟩ := hconflicts
      exact ⟨f.key, hturn.member_of_fragment hf, f'.key, hturn'.member_of_fragment hf', f.turn, f'.turn,
        hinput group hgroup f hf, hinput group' hgroup' f' hf', hconflict⟩
    · left
      intro m hm m' hm' ⟨t, t', ht, ht', hmatch⟩
      obtain ⟨f, hf, rfl⟩ := hturn.fragment_of_member hm
      obtain ⟨f', hf', rfl⟩ := hturn'.fragment_of_member hm'
      rw [hinput group hgroup f hf] at ht
      rw [hinput group' hgroup' f' hf'] at ht'
      cases ht
      cases ht'
      exact hconflicts (hapart ⟨f, hf, f', hf', hmatch⟩)

end Evener.TurnHistory
