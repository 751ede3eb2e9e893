/-
  The order of the visits and what comes of a repair: two names for one argument are the only way
  in which the order shows.

  A loop whose rounds each edit the entry they visit ends alike in every order
  (`applyEdits_perm`); the loop over the alias table is not such a loop.
-/
import Evener.Tool.RepairArgs

namespace Evener.Tool.Repair
open Evener.Lib (lookup put erase Edit applyEdits KeysNodup keysNodup_cons)
open List hiding lookup

/-! ## Nested objects -/

theorem dropEmptyOptionals_eq (v : Visits) (schema m : Object) (path : List PathStep)
    (keep : List String) :
    dropEmptyOptionals v schema m path keep =
      applyEdits ((v.entries .empties path m).map fun e =>
        (e.1, emptyOptional v schema e.1 e.2 path keep)) m := by
  rw [dropEmptyOptionals]
  congr 1
  refine Eq.trans (map_congr_left fun e _ => ?_) attach_map_val
  rfl

variable {m m' : Object}

theorem Value.Keyed.keysNodup (h : (Value.obj m).Keyed) : KeysNodup Prod.fst m := by
  cases h with
  | obj hkeys _ => exact hkeys

theorem Value.Keyed.entry (h : (Value.obj m).Keyed) {e : String × Value} (he : e ∈ m) :
    e.2.Keyed := by
  cases h with
  | obj _ hvalues => exact hvalues e he

theorem Value.Keyed.element {vs : List Value} (h : (Value.arr vs).Keyed) {x : Value} (hx : x ∈ vs) :
    x.Keyed := by
  cases h with
  | arr hvalues => exact hvalues x hx

/-- Two outcomes that differ in the order of the changes only. -/
def Alike {α : Type} (a b : α × List Change) : Prop := a.1 = b.1 ∧ a.2.Perm b.2

theorem Alike.refl {α : Type} (a : α × List Change) : Alike a a := ⟨rfl, List.Perm.refl _⟩

theorem Alike.isEmpty {α : Type} {a b : α × List Change} (h : Alike a b) :
    a.2.isEmpty = b.2.isEmpty := by
  rw [Bool.eq_iff_iff, List.isEmpty_iff, List.isEmpty_iff]
  constructor
  · intro ha
    exact (ha ▸ h.2).nil_eq.symm
  · intro hb
    exact (hb ▸ h.2).eq_nil

theorem collect_alike (value : Value) {elements : List Value}
    {results results' : List (Value × List Change)} (h : List.Forall₂ Alike results results') :
    Alike (collect value elements results) (collect value elements results') := by
  have hchanges : (results.flatMap Prod.snd).Perm (results'.flatMap Prod.snd) := by
    induction h with
    | nil => exact List.Perm.refl _
    | cons hr _ ih => exact hr.2.append ih
  have hrepaired : ∀ f : Value × Value × List Change → Value,
      (∀ element r r', Alike r r' → f (element, r) = f (element, r')) →
      (elements.zip results).map f = (elements.zip results').map f := by
    intro f hf
    clear hchanges
    induction h generalizing elements with
    | nil => rfl
    | cons hr _ ih =>
      cases elements with
      | nil => rfl
      | cons element elements =>
        rw [zip_cons_cons, zip_cons_cons, map_cons, map_cons, ih, hf _ _ _ hr]
  have hempty : Alike ((), results.flatMap Prod.snd) ((), results'.flatMap Prod.snd) :=
    ⟨rfl, hchanges⟩
  have hsame := hempty.isEmpty
  unfold collect
  dsimp only
  rw [hsame, hrepaired _ fun element r r' hr => by dsimp only; rw [hr.isEmpty, hr.1]]
  split
  · exact Alike.refl _
  · exact ⟨rfl, hchanges⟩

mutual

theorem dropEmptyOptionals_alike (v w : Visits) (schema m : Object) (path : List PathStep)
    (keep : List String) (h : (Value.obj m).Keyed) :
    Alike (dropEmptyOptionals v schema m path keep) (dropEmptyOptionals w schema m path keep) := by
  have hact : ∀ k raw, (k, raw) ∈ m → Alike (emptyOptional v schema k raw path keep)
      (emptyOptional w schema k raw path keep) := fun k raw he =>
    emptyOptional_alike v w schema k raw path keep (h.entry he)
  rw [dropEmptyOptionals_eq, dropEmptyOptionals_eq]
  constructor
  · exact Lib.applyEdits_fst_eq h.keysNodup (v.entries_perm ..) (w.entries_perm ..)
      fun k raw he => (hact k raw he).1
  · exact (Lib.applyEdits_perm h.keysNodup (List.Perm.refl m)
      (v.entries_perm ..) (w.entries_perm ..) hact).2
termination_by (sizeOf m, 0)
decreasing_by
  exact Prod.Lex.left _ _ (sizeOf_entry he)

theorem emptyOptional_alike (v w : Visits) (schema : Object) (key : String) (raw : Value)
    (path : List PathStep) (keep : List String) (h : raw.Keyed) :
    Alike (emptyOptional v schema key raw path keep) (emptyOptional w schema key raw path keep) := by
  rw [emptyOptional, emptyOptional]
  split
  · rename_i p hp
    split
    · have hwithin := dropEmptyOptionalsWithin_alike v w p raw (path ++ [⟨key, false⟩]) keep h
      dsimp only
      rw [hwithin.isEmpty, hwithin.1]
      split
      · exact Alike.refl _
      · exact ⟨rfl, hwithin.2⟩
    · exact Alike.refl _
  · exact Alike.refl _
termination_by (sizeOf raw, 2)

theorem dropEmptyOptionalsWithin_alike (v w : Visits) (schema : Object) (value : Value)
    (path : List PathStep) (keep : List String) (h : value.Keyed) :
    Alike (dropEmptyOptionalsWithin v schema value path keep)
      (dropEmptyOptionalsWithin w schema value path keep) := by
  match value, h with
  | .obj m, h =>
    have hdrop := dropEmptyOptionals_alike v w schema m path keep h
    rw [dropEmptyOptionalsWithin, dropEmptyOptionalsWithin]
    dsimp only
    rw [hdrop.isEmpty, hdrop.1]
    split
    · exact Alike.refl _
    · split
      · exact Alike.refl _
      · exact ⟨rfl, hdrop.2⟩
  | .arr elements, h =>
    rw [dropEmptyOptionalsWithin, dropEmptyOptionalsWithin]
    split
    · rename_i items hitems
      apply collect_alike
      rw [forall₂_map_left_iff, forall₂_map_right_iff, forall₂_same]
      rintro ⟨⟨element, hmem⟩, i⟩ -
      exact dropEmptyOptionalsWithin_alike v w items element (path ++ [⟨toString i, true⟩]) keep
        (h.element hmem)
    · exact Alike.refl _
  | .null, _ | .bool _, _ | .num _, _ | .str _, _ | .strs _, _ =>
    rw [dropEmptyOptionalsWithin, dropEmptyOptionalsWithin]
    · exact Alike.refl _
    all_goals
      intro _ heq
      cases heq
termination_by (sizeOf value, 1)

end

/-! ## Passes over the argument object -/

/-- Two outcomes that differ in the order of the entries and of the changes only. -/
def Shuffled (a b : Object × List Change) : Prop := a.1.Perm b.1 ∧ a.2.Perm b.2

theorem applyCoercions_shuffled (rt : Runtime) (v w : Visits) (params : Object)
    (hm : KeysNodup Prod.fst m) (hperm : m.Perm m') :
    Shuffled (applyCoercions rt v params m) (applyCoercions rt w params m') :=
  Lib.applyEdits_perm hm hperm (v.entries_perm ..) (w.entries_perm ..)
    fun _ _ _ => ⟨rfl, List.Perm.refl _⟩

theorem dropEmptyOptionals_shuffled (v w : Visits) (schema : Object) (path : List PathStep)
    (keep : List String) (h : (Value.obj m).Keyed) (hperm : m.Perm m') :
    Shuffled (dropEmptyOptionals v schema m path keep)
      (dropEmptyOptionals w schema m' path keep) := by
  rw [dropEmptyOptionals_eq, dropEmptyOptionals_eq]
  exact Lib.applyEdits_perm h.keysNodup hperm (v.entries_perm ..) (w.entries_perm ..)
    fun k raw he => emptyOptional_alike v w schema k raw path keep (h.entry he)

theorem dropUnknown_shuffled (v w : Visits) (params : Object) (hm : KeysNodup Prod.fst m)
    (hperm : m.Perm m') : Shuffled (dropUnknown v params m) (dropUnknown w params m') := by
  unfold dropUnknown
  split
  · let act : String → Value → Edit Value Change := fun key raw =>
      if isPropDeclared params key then (some raw, [])
      else (none, [⟨.changeDropUnknown, key, "dropped " ++ key⟩])
    exact @Lib.applyEdits_perm _ _ _ _ act act _ _ _ _ hm hperm (v.entries_perm ..)
      (w.entries_perm ..) fun _ _ _ => ⟨rfl, List.Perm.refl _⟩
  · exact ⟨hperm, List.Perm.refl _⟩

theorem dropUnknown_keysNodup (v : Visits) (params : Object) (hm : KeysNodup Prod.fst m) :
    KeysNodup Prod.fst (dropUnknown v params m).1 := by
  unfold dropUnknown
  split
  · let act : String → Value → Edit Value Change := fun key raw =>
      if isPropDeclared params key then (some raw, [])
      else (none, [⟨.changeDropUnknown, key, "dropped " ++ key⟩])
    exact @Lib.keysNodup_applyEdits _ _ _ _ act _ _ hm (v.entries_perm ..)
  · exact hm

theorem dropEmptyOptionals_keysNodup (v : Visits) (schema : Object) (path : List PathStep)
    (keep : List String) (hm : KeysNodup Prod.fst m) :
    KeysNodup Prod.fst (dropEmptyOptionals v schema m path keep).1 := by
  rw [dropEmptyOptionals_eq]
  exact @Lib.keysNodup_applyEdits _ _ _ _ (fun k raw => emptyOptional v schema k raw path keep) _ _
    hm (v.entries_perm ..)

theorem coercion_keyed (rt : Runtime) (params : Object) (key : String) {raw value : Value}
    (h : raw.Keyed) (hvalue : (coercion rt params key raw).1 = some value) : value.Keyed := by
  have hwrapped : (Value.arr [raw]).Keyed :=
    .arr fun x hx => mem_singleton.mp hx ▸ h
  unfold coercion at hvalue
  dsimp only at hvalue
  repeat' split at hvalue
  all_goals
    cases hvalue
    first | exact h | exact hwrapped | exact .bool _ | exact .num _

theorem applyCoercions_keyed (rt : Runtime) (v : Visits) (params : Object) (h : (Value.obj m).Keyed) :
    (Value.obj (applyCoercions rt v params m).1).Keyed := by
  refine .obj (Lib.keysNodup_applyEdits h.keysNodup (v.entries_perm ..)) ?_
  intro e he
  have hrun := @Lib.applyEdits_eq _ _ _ _ (coercion rt params) _ _ h.keysNodup
    (v.entries_perm .coercions [] m)
  rw [applyCoercions, hrun] at he
  obtain ⟨x, hx, hxe⟩ := mem_filterMap.mp he
  obtain ⟨value, hvalue, rfl⟩ := Option.map_eq_some_iff.mp hxe
  exact coercion_keyed rt params x.1 (h.entry hx) hvalue

end Evener.Tool.Repair
