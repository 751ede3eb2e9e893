/-
  Lists of values that carry their own key: the model of an insertion-ordered map.

  `KeysNodup` is the well-formedness every `put` keeps, and under it `put`, `lookup` and `erase`
  are described by membership alone.
-/
import Mathlib.Data.List.Nodup
import Mathlib.Data.List.Perm.Basic

namespace Evener.Lib

open List

variable {κ ν : Type}

/-- No key is stored twice. -/
def KeysNodup (key : ν → κ) (l : List ν) : Prop := (l.map key).Nodup

section KeysNodup

variable {key : ν → κ}

theorem keysNodup_nil : KeysNodup key ([] : List ν) := nodup_nil

theorem keysNodup_cons {w : ν} {l : List ν} :
    KeysNodup key (w :: l) ↔ (∀ u ∈ l, key u ≠ key w) ∧ KeysNodup key l := by
  simp [KeysNodup, nodup_cons]

theorem KeysNodup.eq_of_key {l : List ν} (h : KeysNodup key l) {v w : ν} (hv : v ∈ l)
    (hw : w ∈ l) (hk : key v = key w) : v = w :=
  inj_on_of_nodup_map h hv hw hk

theorem KeysNodup.perm {l l' : List ν} (h : KeysNodup key l) (hp : l.Perm l') :
    KeysNodup key l' :=
  (hp.map key).nodup_iff.mp h

theorem KeysNodup.sublist {l l' : List ν} (h : KeysNodup key l) (hs : l'.Sublist l) :
    KeysNodup key l' :=
  (hs.map key).nodup h

end KeysNodup

variable [DecidableEq κ] (key : ν → κ)

/-- The first value stored under `k`. -/
def lookup (k : κ) (l : List ν) : Option ν := l.find? fun v => key v = k

/-- Store `v` under its own key: in place when the key is held, at the end otherwise. -/
@[grind] def put (v : ν) : List ν → List ν
  | [] => [v]
  | w :: l => if key w = key v then v :: l else w :: put v l

/-- Drop whatever is stored under `k`. -/
def erase (k : κ) (l : List ν) : List ν := l.filter fun v => key v ≠ k

variable {key}

@[simp] theorem lookup_nil (k : κ) : lookup key k [] = none := rfl

/-! ## Lookup -/

theorem mem_of_lookup {k : κ} {l : List ν} {v : ν} (h : lookup key k l = some v) : v ∈ l :=
  mem_of_find?_eq_some h

theorem key_of_lookup {k : κ} {l : List ν} {v : ν} (h : lookup key k l = some v) :
    key v = k := by
  have := find?_some h
  simpa using this

theorem lookup_eq_none {k : κ} {l : List ν} :
    lookup key k l = none ↔ ∀ v ∈ l, key v ≠ k := by
  simp [lookup, find?_eq_none]

theorem lookup_eq_some {l : List ν} (h : KeysNodup key l) {k : κ} {v : ν} :
    lookup key k l = some v ↔ v ∈ l ∧ key v = k := by
  refine ⟨fun hl => ⟨mem_of_lookup hl, key_of_lookup hl⟩, ?_⟩
  rintro ⟨hv, rfl⟩
  cases hl : lookup key (key v) l with
  | none => exact absurd rfl ((lookup_eq_none).mp hl v hv)
  | some w => rw [h.eq_of_key (mem_of_lookup hl) hv (key_of_lookup hl)]

theorem lookup_cons (k : κ) (v : ν) (l : List ν) :
    lookup key k (v :: l) = if key v = k then some v else lookup key k l := by
  by_cases hk : key v = k <;> simp [lookup, hk]

/-! ## Put -/

theorem map_key_put (v : ν) (l : List ν) :
    (put key v l).map key = if key v ∈ l.map key then l.map key else l.map key ++ [key v] := by
  induction l with
  | nil => simp [put]
  | cons w l ih =>
    by_cases hw : key w = key v
    · simp [put, hw]
    · have hw' : ¬ key v = key w := fun h => hw h.symm
      simp only [put, if_neg hw, map_cons, ih, mem_cons, hw', false_or]
      split <;> simp

theorem put_eq_append {v : ν} {l : List ν} (h : ∀ w ∈ l, key w ≠ key v) :
    put key v l = l ++ [v] := by
  induction l with
  | nil => rfl
  | cons w l ih =>
    rw [put, if_neg (h w mem_cons_self), ih fun u hu => h u (mem_cons_of_mem _ hu)]
    rfl

theorem keysNodup_put {l : List ν} (h : KeysNodup key l) (v : ν) : KeysNodup key (put key v l) := by
  unfold KeysNodup
  rw [map_key_put]
  split
  · exact h
  · next hv =>
    refine nodup_append.mpr ⟨h, nodup_singleton _, ?_⟩
    intro a ha b hb hab
    rw [mem_singleton.mp hb] at hab
    exact hv (hab ▸ ha)

theorem mem_put_self (v : ν) (l : List ν) : v ∈ put key v l := by
  induction l with
  | nil => simp [put]
  | cons w l ih =>
    rw [put]
    split
    · exact mem_cons_self
    · exact mem_cons_of_mem _ ih

theorem mem_of_mem_put {v w : ν} {l : List ν} (h : w ∈ put key v l) : w = v ∨ w ∈ l := by
  induction l with
  | nil => simpa [put] using h
  | cons u l ih =>
    rw [put] at h
    split at h
    · rcases mem_cons.mp h with rfl | h
      · exact Or.inl rfl
      · exact Or.inr (mem_cons_of_mem _ h)
    · rcases mem_cons.mp h with rfl | h
      · exact Or.inr mem_cons_self
      · exact (ih h).imp id (mem_cons_of_mem _)

theorem mem_put_of_ne {v w : ν} {l : List ν} (hw : w ∈ l) (hk : key w ≠ key v) :
    w ∈ put key v l := by
  induction l with
  | nil => simp at hw
  | cons u l ih =>
    rw [put]
    split
    · next hu =>
      rcases mem_cons.mp hw with rfl | hw
      · exact absurd hu hk
      · exact mem_cons_of_mem _ hw
    · rcases mem_cons.mp hw with rfl | hw
      · exact mem_cons_self
      · exact mem_cons_of_mem _ (ih hw)

/-- `put v` loses at most the first value of `v`'s key. -/
theorem mem_put_or_lookup {w : ν} {l : List ν} (hw : w ∈ l) (v : ν) :
    w ∈ put key v l ∨ lookup key (key v) l = some w := by
  induction l with
  | nil => cases hw
  | cons u l ih =>
    rw [put]
    split
    · next hu =>
      rcases mem_cons.mp hw with rfl | hw
      · exact Or.inr (by simp [lookup, hu])
      · exact Or.inl (mem_cons_of_mem _ hw)
    · next hu =>
      rcases mem_cons.mp hw with rfl | hw
      · exact Or.inl mem_cons_self
      · refine (ih hw).imp (mem_cons_of_mem _) fun hl => ?_
        simpa [lookup, hu] using hl

/-- Under distinct keys, `put v` holds `v` and every value of another key. -/
theorem mem_put {l : List ν} (h : KeysNodup key l) {v w : ν} :
    w ∈ put key v l ↔ w = v ∨ (w ∈ l ∧ key w ≠ key v) := by
  constructor
  · intro hw
    rcases mem_of_mem_put hw with rfl | hm
    · exact Or.inl rfl
    · by_cases hk : key w = key v
      · exact Or.inl ((keysNodup_put h v).eq_of_key hw (mem_put_self v l) hk)
      · exact Or.inr ⟨hm, hk⟩
  · rintro (rfl | ⟨hm, hk⟩)
    · exact mem_put_self _ _
    · exact mem_put_of_ne hm hk

theorem lookup_put (v : ν) (l : List ν) (k : κ) :
    lookup key k (put key v l) = if key v = k then some v else lookup key k l := by
  induction l with
  | nil => by_cases hk : key v = k <;> simp [put, lookup, hk]
  | cons w l ih =>
    unfold lookup at ih ⊢
    rw [put]
    split
    · next hw => by_cases hk : key v = k <;> simp [hw, hk]
    · next hw =>
      by_cases hk : key w = k
      · have hv : ¬ key v = k := fun h => hw (hk.trans h.symm)
        simp [hk, hv]
      · simp [hk, ih]

theorem put_eq_self {v : ν} {l : List ν} (h : lookup key (key v) l = some v) : put key v l = l := by
  induction l with
  | nil => simp at h
  | cons w l ih =>
    by_cases hw : key w = key v
    · obtain rfl : w = v := by simpa [lookup, hw] using h
      simp [put]
    · rw [put, if_neg hw, ih (by simpa [lookup, hw] using h)]

/-- Putting a value whose key is held keeps the list's shape: it is a pointwise replacement. -/
theorem put_eq_map {l : List ν} (h : KeysNodup key l) {v : ν} (hv : key v ∈ l.map key) :
    put key v l = l.map fun w => if key w = key v then v else w := by
  induction l with
  | nil => simp at hv
  | cons w l ih =>
    obtain ⟨hne, hnd⟩ := keysNodup_cons.mp h
    by_cases hw : key w = key v
    · have hid : l.map (fun u => if key u = key v then v else u) = l := by
        refine (map_congr_left fun u hu => ?_).trans (map_id l)
        rw [if_neg (fun hu' => hne u hu (hu'.trans hw.symm))]
        rfl
      simp [put, hw, hid]
    · have hv' : key v ∈ l.map key := by
        rcases mem_cons.mp hv with h' | h'
        · exact absurd h'.symm hw
        · exact h'
      simp only [put, if_neg hw, map_cons, ih hnd hv']

/-! ## Erase -/

theorem mem_erase {k : κ} {l : List ν} {v : ν} : v ∈ erase key k l ↔ v ∈ l ∧ key v ≠ k := by
  simp [erase]

theorem keysNodup_erase {l : List ν} (h : KeysNodup key l) (k : κ) : KeysNodup key (erase key k l) :=
  h.sublist filter_sublist

theorem lookup_erase (k k' : κ) (l : List ν) :
    lookup key k' (erase key k l) = if k' = k then none else lookup key k' l := by
  split
  · next hk =>
    subst hk
    exact lookup_eq_none.mpr fun v hv => ((mem_erase).mp hv).2
  · next hk =>
    unfold lookup erase
    rw [find?_filter]
    congr 1
    funext v
    by_cases hv : key v = k'
    · simp [hv, hk]
    · simp [hv]

/-! ## Values behind their keys -/

theorem map_put {μ : Type} {key' : μ → κ} {f : ν → μ} (hf : ∀ v, key' (f v) = key v) (v : ν)
    (l : List ν) : (put key v l).map f = put key' (f v) (l.map f) := by
  induction l with
  | nil => rfl
  | cons w l ih =>
    rw [map_cons, put, put, hf, hf]
    split
    · rfl
    · rw [map_cons, ih]

theorem lookup_map_key {μ : Type} {key' : μ → κ} {f : ν → μ} (hf : ∀ v, key' (f v) = key v) (k : κ)
    (l : List ν) : lookup key' k (l.map f) = (lookup key k l).map f := by
  unfold lookup
  rw [find?_map]
  congr 2
  funext v
  rw [Function.comp_apply, hf]

omit [DecidableEq κ] in
theorem fst_map_id {μ : Type} (f : ν → μ) (v : κ × ν) : (Prod.map id f v).fst = v.fst := rfl

theorem lookup_map {μ : Type} (f : ν → μ) (k : κ) (l : List (κ × ν)) :
    lookup Prod.fst k (l.map (Prod.map id f)) = (lookup Prod.fst k l).map (Prod.map id f) :=
  lookup_map_key (fst_map_id f) k l

/-! ## Loops of erasures and replacements -/

theorem foldl_erase (ks : List κ) (l : List ν) :
    ks.foldl (fun l k => erase key k l) l = l.filter fun v => key v ∉ ks := by
  induction ks generalizing l with
  | nil => simp
  | cons k ks ih =>
    rw [foldl_cons, ih, erase, filter_filter]
    refine filter_congr fun v _ => ?_
    by_cases hk : key v = k <;> simp [hk]

/-- Values put over the values of their keys, one after the other, replace them in place. -/
theorem foldl_put {l rows : List ν} (h : KeysNodup key l) (hrows : KeysNodup key rows)
    (hheld : ∀ v ∈ rows, key v ∈ l.map key) :
    rows.foldl (fun l v => put key v l) l = l.map fun v => (lookup key (key v) rows).getD v := by
  induction rows generalizing l with
  | nil => simp
  | cons v rows ih =>
    obtain ⟨hne, hrows'⟩ := keysNodup_cons.mp hrows
    have hv := hheld v mem_cons_self
    have hkeys : (put key v l).map key = l.map key := by rw [map_key_put, if_pos hv]
    rw [foldl_cons, ih (keysNodup_put h v) hrows'
      fun w hw => by rw [hkeys]; exact hheld w (mem_cons_of_mem _ hw), put_eq_map h hv,
      map_map]
    refine map_congr_left fun w _ => ?_
    have hcons := fun k => @lookup_cons _ _ _ key k v rows
    by_cases hw : key w = key v
    · have hnone : lookup key (key v) rows = none := lookup_eq_none.mpr hne
      simp [Function.comp_apply, hw, hnone, hcons]
    · have hw' : ¬ key v = key w := fun h => hw h.symm
      simp [Function.comp_apply, hw, hw', hcons]

omit [DecidableEq κ] in
/-- Under distinct keys, a selection of the list holds a key exactly when it holds its value. -/
theorem key_mem_selection {l rows : List ν} (h : KeysNodup key l) {p : ν → Bool}
    (hrows : ∀ v, v ∈ rows ↔ v ∈ l ∧ p v = true) {v : ν} (hv : v ∈ l) :
    key v ∈ rows.map key ↔ p v = true := by
  constructor
  · intro hmem
    obtain ⟨w, hw, hkey⟩ := mem_map.mp hmem
    obtain ⟨hwl, hwp⟩ := (hrows w).mp hw
    rwa [← h.eq_of_key hwl hv hkey]
  · intro hp
    exact mem_map.mpr ⟨v, (hrows v).mpr ⟨hv, hp⟩, rfl⟩

/-- Keeping the values whose keys a selection does not hold is dropping the selection. -/
theorem filter_key_not_mem {l rows : List ν} (h : KeysNodup key l) {p : ν → Bool}
    (hrows : ∀ v, v ∈ rows ↔ v ∈ l ∧ p v = true) :
    l.filter (fun v => key v ∉ rows.map key) = l.filter fun v => !p v := by
  refine filter_congr fun v hv => ?_
  have hiff := key_mem_selection h hrows hv
  by_cases hp : p v = true <;> simp [hiff, hp]

/-- Rewriting the values whose keys a selection holds is rewriting the selection. -/
theorem map_key_mem {l rows : List ν} (h : KeysNodup key l) {p : ν → Bool}
    (hrows : ∀ v, v ∈ rows ↔ v ∈ l ∧ p v = true) (f : ν → ν) :
    l.map (fun v => if key v ∈ rows.map key then f v else v) =
      l.map fun v => if p v then f v else v := by
  refine map_congr_left fun v hv => ?_
  have hiff := key_mem_selection h hrows hv
  by_cases hp : p v = true <;> simp [hiff, hp]

end Evener.Lib
