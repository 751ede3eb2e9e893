/-
  A loop that ranges over a map and edits the entry it visits: the entries come in any order, each
  visit puts another value under its own key or drops it, and leaves notes.

  The order shows in the order of the notes only.
-/
import Evener.Lib.KeyedList

namespace Evener.Lib

open List Option

variable {κ ν δ : Type} [DecidableEq κ]

/-- What one visit does to its key, and the notes it leaves: no value drops the key. -/
abbrev Edit (ν δ : Type) := Option ν × List δ

def applyEdit (st : List (κ × ν) × List δ) (e : κ × Edit ν δ) : List (κ × ν) × List δ :=
  (match e.2.1 with
    | some value => put Prod.fst (e.1, value) st.1
    | none => erase Prod.fst e.1 st.1,
    st.2 ++ e.2.2)

/-- The loop over the edits in the order of the visits. -/
def applyEdits (edits : List (κ × Edit ν δ)) (m : List (κ × ν)) : List (κ × ν) × List δ :=
  edits.foldl applyEdit (m, [])

/-- An entry is edited once its key is in `seen`. -/
def editedOne (act : κ → ν → Edit ν δ) (seen : List κ) (e : κ × ν) : Option (κ × ν) :=
  if e.1 ∈ seen then (act e.1 e.2).1.map (e.1, ·) else some e

def editedIn (act : κ → ν → Edit ν δ) (seen : List κ) (m : List (κ × ν)) : List (κ × ν) :=
  m.filterMap (editedOne act seen)

variable {act : κ → ν → Edit ν δ}

theorem editedIn_nil (m : List (κ × ν)) : editedIn act [] m = m := by
  have hkeep : editedOne act [] = some := funext fun e => if_neg not_mem_nil
  rw [editedIn, hkeep, filterMap_some]

theorem key_of_editedOne {e x : κ × ν} {seen : List κ} (h : editedOne act seen x = some e) :
    e.1 = x.1 := by
  unfold editedOne at h
  split at h
  · obtain ⟨value, -, rfl⟩ := map_eq_some_iff.mp h
    rfl
  · cases h
    rfl

theorem editedOne_cons_of_ne {k : κ} {seen : List κ} {e : κ × ν} (h : e.1 ≠ k) :
    editedOne act (k :: seen) e = editedOne act seen e := by
  simp only [editedOne, mem_cons, h, false_or]

theorem editedIn_cons_of_notMem {k : κ} {seen : List κ} {m : List (κ × ν)}
    (h : k ∉ m.map Prod.fst) : editedIn act (k :: seen) m = editedIn act seen m :=
  filterMap_congr fun _ he =>
    editedOne_cons_of_ne fun heq => h (heq ▸ mem_map_of_mem he)

theorem key_mem_of_mem_editedIn {e : κ × ν} {seen : List κ} {m : List (κ × ν)}
    (h : e ∈ editedIn act seen m) : e.1 ∈ m.map Prod.fst := by
  obtain ⟨x, hx, hxe⟩ := mem_filterMap.mp h
  rw [key_of_editedOne hxe]
  exact mem_map_of_mem hx

/-- One visit: the edit of a key that is not seen yet. -/
theorem applyEdit_editedIn {k : κ} {raw : ν} {seen : List κ} {m : List (κ × ν)} {notes : List δ}
    (hm : KeysNodup Prod.fst m) (hmem : (k, raw) ∈ m) (hnew : k ∉ seen) :
    applyEdit (editedIn act seen m, notes) (k, act k raw) =
      (editedIn act (k :: seen) m, notes ++ (act k raw).2) := by
  refine Prod.ext ?_ rfl
  unfold applyEdit
  dsimp only
  induction m with
  | nil => cases hmem
  | cons x m ih =>
    obtain ⟨hfresh, hm⟩ := keysNodup_cons.mp hm
    by_cases hk : x.1 = k
    · have hx : (k, raw) = x := by
        rcases mem_cons.mp hmem with heq | hin
        · exact heq
        · exact absurd hk.symm (hfresh _ hin)
      subst hx
      have hkeys : k ∉ m.map Prod.fst := by
        intro hin
        obtain ⟨y, hy, hyx⟩ := mem_map.mp hin
        exact hfresh y hy hyx
      have hsame : editedIn act (k :: seen) m = editedIn act seen m := editedIn_cons_of_notMem hkeys
      have hhead : editedIn act seen ((k, raw) :: m) = (k, raw) :: editedIn act seen m := by
        simp [editedIn, editedOne, hnew]
      rw [hhead]
      cases hact : (act k raw).1 with
      | some value =>
        have hedited : editedIn act (k :: seen) ((k, raw) :: m) =
            (k, value) :: editedIn act (k :: seen) m := by
          simp [editedIn, editedOne, hact]
        rw [hedited, hsame]
        simp [put]
      | none =>
        have hedited : editedIn act (k :: seen) ((k, raw) :: m) = editedIn act (k :: seen) m := by
          simp [editedIn, editedOne, hact]
        have habsent : ∀ e ∈ editedIn act seen m, e.1 ≠ k := fun e he heq =>
          hkeys (heq ▸ key_mem_of_mem_editedIn he)
        rw [hedited, hsame, erase, filter_cons_of_neg (by simp), filter_eq_self]
        exact fun e he => decide_eq_true (habsent e he)
    · have hin : (k, raw) ∈ m := by
        rcases mem_cons.mp hmem with heq | hin
        · exact absurd (congrArg Prod.fst heq).symm hk
        · exact hin
      have hstep := ih hm hin
      unfold editedIn at hstep ⊢
      rw [filterMap_cons, filterMap_cons, editedOne_cons_of_ne hk, ← hstep]
      cases hy : editedOne act seen x with
      | none => rfl
      | some y =>
        have hne : ¬ y.1 = k := key_of_editedOne hy ▸ hk
        cases (act k raw).1 with
        | some value => simp [put, hne]
        | none => simp [erase, hne]

/-- The object after the loop, whatever the order, and the notes in that order. -/
theorem applyEdits_eq {m visits : List (κ × ν)} (hm : KeysNodup Prod.fst m)
    (hvisits : visits.Perm m) :
    applyEdits (visits.map fun e => (e.1, act e.1 e.2)) m =
      (m.filterMap (fun e => (act e.1 e.2).1.map (e.1, ·)),
        visits.flatMap fun e => (act e.1 e.2).2) := by
  suffices hrun : ∀ (rest : List (κ × ν)) (seen : List κ) (notes : List δ), (∀ e ∈ rest, e ∈ m) →
      KeysNodup Prod.fst rest → (∀ e ∈ rest, e.1 ∉ seen) →
      (rest.map fun e => (e.1, act e.1 e.2)).foldl applyEdit (editedIn act seen m, notes) =
        (editedIn act ((rest.map Prod.fst).reverse ++ seen) m,
          notes ++ rest.flatMap fun e => (act e.1 e.2).2) by
    have hall := hrun visits [] [] (fun e he => hvisits.mem_iff.mp he) (hm.perm hvisits.symm)
      (fun e _ => not_mem_nil)
    rw [editedIn_nil, append_nil, nil_append] at hall
    rw [applyEdits, hall]
    refine Prod.ext ?_ rfl
    apply filterMap_congr
    intro e he
    have hin : e.1 ∈ (visits.map Prod.fst).reverse :=
      mem_reverse.mpr (mem_map_of_mem (hvisits.mem_iff.mpr he))
    rw [editedOne, if_pos hin]
  intro rest
  induction rest with
  | nil =>
    intro seen notes _ _ _
    simp
  | cons e rest ih =>
    intro seen notes hin hnodup hnew
    obtain ⟨hfresh, hnodup⟩ := keysNodup_cons.mp hnodup
    rw [map_cons, foldl_cons,
      applyEdit_editedIn hm (hin e mem_cons_self) (hnew e mem_cons_self),
      ih (e.1 :: seen) _ (fun x hx => hin x (mem_cons_of_mem _ hx)) hnodup]
    · simp
    · intro x hx
      rw [mem_cons, not_or]
      exact ⟨hfresh x hx, hnew x (mem_cons_of_mem _ hx)⟩

/-- Loops over one map, whose visits edit alike, leave the same entries in the same places. -/
theorem applyEdits_fst_eq {act' : κ → ν → Edit ν δ} {m visits visits' : List (κ × ν)}
    (hm : KeysNodup Prod.fst m) (hvisits : visits.Perm m) (hvisits' : visits'.Perm m)
    (hact : ∀ k raw, (k, raw) ∈ m → (act k raw).1 = (act' k raw).1) :
    (applyEdits (visits.map fun e => (e.1, act e.1 e.2)) m).1 =
      (applyEdits (visits'.map fun e => (e.1, act' e.1 e.2)) m).1 := by
  rw [applyEdits_eq hm hvisits, applyEdits_eq hm hvisits']
  exact filterMap_congr fun e he => by rw [hact e.1 e.2 he]

/-- Loops over the same map, whose visits edit alike, end alike. -/
theorem applyEdits_perm {act' : κ → ν → Edit ν δ} {m m' visits visits' : List (κ × ν)}
    (hm : KeysNodup Prod.fst m) (hperm : m.Perm m') (hvisits : visits.Perm m)
    (hvisits' : visits'.Perm m')
    (hact : ∀ k raw, (k, raw) ∈ m → (act k raw).1 = (act' k raw).1 ∧
      (act k raw).2.Perm (act' k raw).2) :
    (applyEdits (visits.map fun e => (e.1, act e.1 e.2)) m).1.Perm
        (applyEdits (visits'.map fun e => (e.1, act' e.1 e.2)) m').1 ∧
      (applyEdits (visits.map fun e => (e.1, act e.1 e.2)) m).2.Perm
        (applyEdits (visits'.map fun e => (e.1, act' e.1 e.2)) m').2 := by
  rw [applyEdits_eq hm hvisits, applyEdits_eq (hm.perm hperm) hvisits']
  have hvalues : m.filterMap (fun e => (act e.1 e.2).1.map (e.1, ·)) =
      m.filterMap (fun e => (act' e.1 e.2).1.map (e.1, ·)) :=
    filterMap_congr fun e he => by rw [(hact e.1 e.2 he).1]
  constructor
  · dsimp only
    rw [hvalues]
    exact hperm.filterMap _
  · have hnotes : (m.flatMap fun e => (act e.1 e.2).2).Perm
        (m.flatMap fun e => (act' e.1 e.2).2) := by
      clear hvalues hvisits hperm hm
      induction m with
      | nil => exact List.Perm.refl _
      | cons e m ih =>
        rw [flatMap_cons, flatMap_cons]
        exact (hact e.1 e.2 mem_cons_self).2.append
          (ih fun k raw hx => hact k raw (mem_cons_of_mem _ hx))
    exact ((hvisits.flatMap_right _).trans hnotes).trans
      ((hvisits'.trans hperm.symm).flatMap_right _).symm

/-- The keys after the loop are among those before. -/
theorem keysNodup_applyEdits {m visits : List (κ × ν)} (hm : KeysNodup Prod.fst m)
    (hvisits : visits.Perm m) :
    KeysNodup Prod.fst (applyEdits (visits.map fun e => (e.1, act e.1 e.2)) m).1 := by
  rw [applyEdits_eq hm hvisits]
  dsimp only
  clear hvisits
  induction m with
  | nil => exact keysNodup_nil
  | cons e m ih =>
    obtain ⟨hfresh, hm⟩ := keysNodup_cons.mp hm
    rw [filterMap_cons]
    split
    · exact ih hm
    · rename_i x hx
      obtain ⟨value, -, rfl⟩ := map_eq_some_iff.mp hx
      refine keysNodup_cons.mpr ⟨?_, ih hm⟩
      intro y hy
      obtain ⟨z, hz, hzy⟩ := mem_filterMap.mp hy
      obtain ⟨value', -, rfl⟩ := map_eq_some_iff.mp hzy
      exact hfresh z hz

end Evener.Lib
