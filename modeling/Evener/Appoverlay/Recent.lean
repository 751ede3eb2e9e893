/-
  The overlay's bounded memory: a map that forgets its oldest keys.

  The map is a keyed list. Deleted keys leave dead entries in the order list; an entry is live
  when its key is held under the entry's own number.
-/
import Evener.Lib.KeyedList

namespace Evener.Appoverlay

open Evener.Lib
open List hiding lookup

variable {κ V : Type} [DecidableEq κ]

structure RecentValue (κ V : Type) where
  key : κ
  value : V
  seq : Nat

structure RecentKey (κ : Type) where
  key : κ
  seq : Nat
deriving DecidableEq

structure RecentSet (κ V : Type) where
  capacity : Nat
  values : List (RecentValue κ V)
  order : List (RecentKey κ)
  nextSeq : Nat

/-! ## The recent set -/

def newRecentSet (capacity : Nat) : RecentSet κ V := ⟨capacity, [], [], 0⟩

def RecentSet.get (s : RecentSet κ V) (key : κ) : Option V :=
  (lookup RecentValue.key key s.values).map RecentValue.value

def live (values : List (RecentValue κ V)) (k : RecentKey κ) : Bool :=
  (lookup RecentValue.key k.key values).any fun v => v.seq = k.seq

/-- The loop that forgets the oldest keys; `none` when it reads from an empty order. -/
def evict (capacity : Nat) : List (RecentKey κ) → List (RecentValue κ V) →
    Option (List (RecentKey κ) × List (RecentValue κ V))
  | [], values => if values.length ≤ capacity then some ([], values) else none
  | oldest :: order, values =>
    if values.length ≤ capacity then some (oldest :: order, values)
    else
      evict capacity order
        (if live values oldest then erase RecentValue.key oldest.key values else values)

/-- A new key is added at the end. -/
def RecentSet.added (s : RecentSet κ V) (key : κ) (v : V) : RecentSet κ V :=
  { s with
    values := put RecentValue.key ⟨key, v, s.nextSeq⟩ s.values
    order := s.order ++ [⟨key, s.nextSeq⟩]
    nextSeq := s.nextSeq + 1 }

def RecentSet.put (s : RecentSet κ V) (key : κ) (v : V) : Option (RecentSet κ V) :=
  match lookup RecentValue.key key s.values with
  | some current =>
    some { s with values := Lib.put RecentValue.key ⟨key, v, current.seq⟩ s.values }
  | none =>
    match evict s.capacity (s.added key v).order (s.added key v).values with
    | none => none
    | some (order, values) =>
      some { s.added key v with
        values
        order := if 2 * s.capacity < order.length then order.filter (live values) else order }

def RecentSet.delete (s : RecentSet κ V) (key : κ) : RecentSet κ V :=
  { s with values := erase RecentValue.key key s.values }

def RecentSet.deleteFunc (s : RecentSet κ V) (drop : κ → V → Bool) : RecentSet κ V :=
  { s with values := s.values.filter fun v => !drop v.key v.value }

def RecentSet.clear (s : RecentSet κ V) : RecentSet κ V := { s with values := [], order := [] }

inductive Op (κ V : Type) where
  | put (key : κ) (v : V)
  | delete (key : κ)
  | deleteFunc (drop : κ → V → Bool)
  | clear

def RecentSet.step (s : RecentSet κ V) : Op κ V → Option (RecentSet κ V)
  | .put key v => s.put key v
  | .delete key => some (s.delete key)
  | .deleteFunc drop => some (s.deleteFunc drop)
  | .clear => some s.clear

/-! ## The plain map -/

/-- The keys in the order they were added, with their values; the oldest goes when there are too
many. -/
def plainStep (capacity : Nat) (l : List (κ × V)) : Op κ V → List (κ × V)
  | .put key v =>
    if key ∈ l.map Prod.fst then l.map fun p => if p.1 = key then (key, v) else p
    else if l.length < capacity then l ++ [(key, v)]
    else (l ++ [(key, v)]).tail
  | .delete key => l.filter fun p => p.1 ≠ key
  | .deleteFunc drop => l.filter fun p => !drop p.1 p.2
  | .clear => []

def plainGet (l : List (κ × V)) (key : κ) : Option V := (lookup Prod.fst key l).map Prod.snd

/-! ## Order and values -/

def RecentValue.place (v : RecentValue κ V) : RecentKey κ := ⟨v.key, v.seq⟩

def RecentValue.pair (v : RecentValue κ V) : κ × V := (v.key, v.value)

/-- The held keys stand in the order list in the order they were added. -/
structure Ordered (order : List (RecentKey κ)) (values : List (RecentValue κ V)) : Prop where
  keys : KeysNodup RecentValue.key values
  places : (values.map RecentValue.place).Sublist order
  seqs : order.Pairwise fun a b => a.seq < b.seq

structure RecentSet.WellKept (s : RecentSet κ V) : Prop where
  ordered : Ordered s.order s.values
  fresh : ∀ k ∈ s.order, k.seq < s.nextSeq
  held : s.values.length ≤ s.capacity
  bound : s.order.length ≤ 2 * s.capacity

omit [DecidableEq κ] in
theorem Ordered.nodup {order : List (RecentKey κ)} {values : List (RecentValue κ V)}
    (h : Ordered order values) : order.Nodup := by
  refine h.seqs.imp ?_
  rintro a b hlt rfl
  exact Nat.lt_irrefl _ hlt

theorem filter_mem_of_sublist {α : Type} [DecidableEq α] {s l : List α} (hs : s.Sublist l)
    (hl : l.Nodup) : l.filter (· ∈ s) = s := by
  induction hs with
  | slnil => rfl
  | cons a hs ih =>
    obtain ⟨ha, hl⟩ := nodup_cons.mp hl
    rw [filter_cons_of_neg (by simpa using fun h => ha (hs.subset h)), ih hl]
  | @cons_cons s l a hs ih =>
    obtain ⟨ha, hl⟩ := nodup_cons.mp hl
    rw [filter_cons_of_pos (by simp)]
    have hrest : l.filter (· ∈ a :: s) = l.filter (· ∈ s) := by
      refine filter_congr fun b hb => ?_
      have hne : b ≠ a := by
        rintro rfl
        exact ha hb
      simp [hne]
    rw [hrest, ih hl]

theorem live_iff {values : List (RecentValue κ V)} (h : KeysNodup RecentValue.key values)
    (k : RecentKey κ) : live values k = true ↔ k ∈ values.map RecentValue.place := by
  unfold live
  rw [Option.any_eq_true, mem_map]
  constructor
  · rintro ⟨v, hv, hseq⟩
    refine ⟨v, mem_of_lookup hv, ?_⟩
    have hkey : v.key = k.key := key_of_lookup hv
    have hseq : v.seq = k.seq := of_decide_eq_true hseq
    unfold RecentValue.place
    rw [hkey, hseq]
  · rintro ⟨v, hv, rfl⟩
    exact ⟨v, (lookup_eq_some h).mpr ⟨hv, rfl⟩, decide_eq_true rfl⟩

theorem filter_live {order : List (RecentKey κ)} {values : List (RecentValue κ V)}
    (h : Ordered order values) : order.filter (live values) = values.map RecentValue.place := by
  have hfilter : order.filter (live values) =
      order.filter fun k => k ∈ values.map RecentValue.place := by
    refine filter_congr fun k _ => ?_
    rw [Bool.eq_iff_iff, live_iff h.keys, decide_eq_true_iff]
  rw [hfilter]
  exact filter_mem_of_sublist h.places h.nodup

omit [DecidableEq κ] in
/-- A sublist of the held values stays in order. -/
theorem Ordered.sublist {order : List (RecentKey κ)} {values values' : List (RecentValue κ V)}
    (h : Ordered order values) (hs : values'.Sublist values) : Ordered order values' :=
  ⟨h.keys.sublist hs, (hs.map _).trans h.places, h.seqs⟩

omit [DecidableEq κ] in
/-- The front of the order list is dead, or it is the place of the oldest value. -/
theorem Ordered.front {oldest : RecentKey κ} {order : List (RecentKey κ)}
    {values : List (RecentValue κ V)} (h : Ordered (oldest :: order) values) :
    (oldest ∉ values.map RecentValue.place ∧ Ordered order values) ∨
      ∃ v rest, values = v :: rest ∧ v.place = oldest ∧ Ordered order rest := by
  have hnot : oldest ∉ order := (nodup_cons.mp h.nodup).1
  rcases sublist_cons_iff.mp h.places with hrest | ⟨places, hplaces, hrest⟩
  · exact .inl ⟨fun hmem => hnot (hrest.subset hmem), h.keys, hrest, h.seqs.of_cons⟩
  · obtain ⟨v, rest, rfl, hv, rfl⟩ := map_eq_cons_iff.mp hplaces
    exact .inr ⟨v, rest, rfl, hv, (keysNodup_cons.mp h.keys).2, hrest, h.seqs.of_cons⟩

/-- The loop never runs out of order entries, and forgets the oldest values. -/
theorem evict_spec (capacity : Nat) {order : List (RecentKey κ)}
    {values : List (RecentValue κ V)} (h : Ordered order values) :
    ∃ order', evict capacity order values =
        some (order', values.drop (values.length - capacity)) ∧
      order'.Sublist order ∧ Ordered order' (values.drop (values.length - capacity)) := by
  induction order generalizing values with
  | nil =>
    have hvalues : values = [] := map_eq_nil_iff.mp (sublist_nil.mp h.places)
    subst hvalues
    rw [drop_nil]
    exact ⟨[], rfl, List.Sublist.refl _, h⟩
  | cons oldest order ih =>
    unfold evict
    by_cases hroom : values.length ≤ capacity
    · rw [if_pos hroom, Nat.sub_eq_zero_of_le hroom]
      exact ⟨oldest :: order, rfl, List.Sublist.refl _, h⟩
    · rw [if_neg hroom]
      rcases h.front with ⟨hdead, hrest⟩ | ⟨v, rest, rfl, rfl, hrest⟩
      · rw [if_neg fun hlive => hdead ((live_iff h.keys oldest).mp hlive)]
        obtain ⟨order', heq, hsub, hordered⟩ := ih hrest
        exact ⟨order', heq, hsub.trans (sublist_cons_self _ _), hordered⟩
      · have herase : erase RecentValue.key v.place.key (v :: rest) = rest := by
          unfold erase
          rw [filter_cons_of_neg (by simp [RecentValue.place])]
          refine filter_eq_self.mpr fun w hw => ?_
          exact decide_eq_true ((keysNodup_cons.mp h.keys).1 w hw)
        rw [if_pos ((live_iff h.keys _).mpr (by simp)), herase]
        obtain ⟨order', heq, hsub, hordered⟩ := ih hrest
        have hlength : (v :: rest).length - capacity = rest.length - capacity + 1 := by
          rw [length_cons] at hroom ⊢
          omega
        rw [hlength, drop_succ_cons]
        exact ⟨order', heq, hsub.trans (sublist_cons_self _ _), hordered⟩

/-! ## Operations -/

omit [DecidableEq κ] in
theorem wellKept_new (capacity : Nat) : (newRecentSet capacity : RecentSet κ V).WellKept :=
  ⟨⟨keysNodup_nil, List.Sublist.refl _, .nil⟩, fun _ h => absurd h not_mem_nil,
    Nat.zero_le _, Nat.zero_le _⟩

omit [DecidableEq κ] in
theorem RecentSet.WellKept.sublist {s : RecentSet κ V} (h : s.WellKept)
    {values : List (RecentValue κ V)} (hs : values.Sublist s.values) :
    ({ s with values } : RecentSet κ V).WellKept :=
  ⟨h.ordered.sublist hs, h.fresh, Nat.le_trans hs.length_le h.held, h.bound⟩

/-- A key already held keeps its place. -/
theorem put_held {s : RecentSet κ V} (h : s.WellKept) {key : κ} {current : RecentValue κ V}
    (hcurrent : lookup RecentValue.key key s.values = some current) (v : V) :
    ∃ s', s.put key v = some s' ∧ s'.WellKept ∧ s'.capacity = s.capacity ∧
      s'.values.map RecentValue.pair =
        (s.values.map RecentValue.pair).map fun p => if p.1 = key then (key, v) else p := by
  obtain ⟨hmem, rfl⟩ := (lookup_eq_some h.ordered.keys).mp hcurrent
  have hkey : current.key ∈ s.values.map RecentValue.key := mem_map_of_mem hmem
  have hput := @put_eq_map _ _ _ RecentValue.key _ h.ordered.keys ⟨current.key, v, current.seq⟩ hkey
  unfold RecentSet.put
  rw [hcurrent]
  have hplaces : (Lib.put RecentValue.key ⟨current.key, v, current.seq⟩ s.values).map
      RecentValue.place = s.values.map RecentValue.place := by
    rw [hput, map_map]
    refine map_congr_left fun w hw => ?_
    rw [Function.comp_apply]
    split
    · next hkey => rw [h.ordered.keys.eq_of_key hw hmem hkey]
                   rfl
    · rfl
  refine ⟨_, rfl, ⟨⟨keysNodup_put h.ordered.keys _, ?_, h.ordered.seqs⟩, h.fresh, ?_, h.bound⟩,
    rfl, ?_⟩
  · exact hplaces ▸ h.ordered.places
  · dsimp only
    rw [hput, length_map]
    exact h.held
  · dsimp only
    rw [hput, map_map, map_map]
    refine map_congr_left fun w _ => ?_
    rw [Function.comp_apply, Function.comp_apply]
    unfold RecentValue.pair
    split
    · rfl
    · rfl

theorem added_ordered {s : RecentSet κ V} (h : s.WellKept) {key : κ}
    (hnone : lookup RecentValue.key key s.values = none) (v : V) :
    (s.added key v).values = s.values ++ [⟨key, v, s.nextSeq⟩] ∧
      Ordered (s.added key v).order (s.added key v).values := by
  have happend : (s.added key v).values = s.values ++ [⟨key, v, s.nextSeq⟩] :=
    put_eq_append (lookup_eq_none.mp hnone)
  refine ⟨happend, keysNodup_put h.ordered.keys _, ?_, ?_⟩
  · rw [happend, map_append]
    exact h.ordered.places.append (List.Sublist.refl _)
  · refine pairwise_append.mpr ⟨h.ordered.seqs, pairwise_singleton _ _, ?_⟩
    intro a ha b hb
    obtain rfl := mem_singleton.mp hb
    exact h.fresh a ha

/-- A new key is the newest, and the oldest one goes when there are too many. -/
theorem put_new {s : RecentSet κ V} (h : s.WellKept) {key : κ}
    (hnone : lookup RecentValue.key key s.values = none) (v : V) :
    ∃ s', s.put key v = some s' ∧ s'.WellKept ∧ s'.capacity = s.capacity ∧
      s'.values.map RecentValue.pair =
        (s.values.map RecentValue.pair ++ [(key, v)]).drop (s.values.length + 1 - s.capacity) := by
  obtain ⟨happend, hordered⟩ := added_ordered h hnone v
  obtain ⟨order, hevict, hsub, hkept⟩ := evict_spec s.capacity hordered
  have hlength : (s.added key v).values.length = s.values.length + 1 := by
    rw [happend, length_append]
    rfl
  have hvalues : ((s.added key v).values.drop
      ((s.added key v).values.length - s.capacity)).length ≤ s.capacity := by
    rw [length_drop]
    omega
  have hfresh : ∀ k ∈ order, k.seq < s.nextSeq + 1 := by
    intro k hk
    rcases mem_append.mp (hsub.subset hk) with hold | hnew
    · exact Nat.lt_succ_of_lt (h.fresh k hold)
    · obtain rfl := mem_singleton.mp hnew
      exact Nat.lt_succ_self _
  unfold RecentSet.put
  rw [hnone]
  rw [hevict]
  refine ⟨_, rfl, ⟨⟨hkept.keys, ?_, ?_⟩, ?_, hvalues, ?_⟩, rfl, ?_⟩
  · dsimp only
    split
    · rw [filter_live hkept]
    · exact hkept.places
  · dsimp only
    split
    · exact hkept.seqs.filter _
    · exact hkept.seqs
  · intro k hk
    split at hk
    · exact hfresh k (mem_filter.mp hk).1
    · exact hfresh k hk
  · dsimp only
    split
    · rw [filter_live hkept, length_map]
      exact Nat.le_trans hvalues (Nat.le_mul_of_pos_left _ (by decide))
    · next hsmall => exact Nat.not_lt.mp hsmall
  · dsimp only
    rw [hlength, happend, map_drop, map_append]
    rfl

/-! ## Runs -/

theorem step_plain {s : RecentSet κ V} (h : s.WellKept) (op : Op κ V) :
    ∃ s', s.step op = some s' ∧ s'.WellKept ∧ s'.capacity = s.capacity ∧
      s'.values.map RecentValue.pair =
        plainStep s.capacity (s.values.map RecentValue.pair) op := by
  cases op with
  | put key v =>
    have hkeys : (s.values.map RecentValue.pair).map Prod.fst = s.values.map RecentValue.key := by
      rw [map_map]
      rfl
    unfold RecentSet.step plainStep
    dsimp only
    rw [hkeys, length_map]
    cases hlookup : lookup RecentValue.key key s.values with
    | some current =>
      obtain ⟨hmem, hkey⟩ := (lookup_eq_some h.ordered.keys).mp hlookup
      rw [if_pos (hkey ▸ mem_map_of_mem hmem)]
      exact put_held h hlookup v
    | none =>
      have habsent : key ∉ s.values.map RecentValue.key := by
        intro hmem
        obtain ⟨w, hw, hkey⟩ := mem_map.mp hmem
        exact lookup_eq_none.mp hlookup w hw hkey
      rw [if_neg habsent]
      obtain ⟨s', hput, hkept, hcapacity, hvalues⟩ := put_new h hlookup v
      refine ⟨s', hput, hkept, hcapacity, ?_⟩
      rw [hvalues]
      have hheld := h.held
      split
      · rw [show s.values.length + 1 - s.capacity = 0 by omega]
        rfl
      · rw [show s.values.length + 1 - s.capacity = 1 by omega]
        exact drop_one
  | delete key =>
    refine ⟨s.delete key, rfl, h.sublist filter_sublist, rfl, ?_⟩
    exact (filter_map (p := fun p : κ × V => decide (p.1 ≠ key))).symm
  | deleteFunc drop =>
    refine ⟨s.deleteFunc drop, rfl, h.sublist filter_sublist, rfl, ?_⟩
    exact (filter_map (p := fun p : κ × V => !drop p.1 p.2)).symm
  | clear =>
    exact ⟨s.clear, rfl, ⟨⟨keysNodup_nil, List.Sublist.refl _, .nil⟩,
      fun _ h => absurd h not_mem_nil, Nat.zero_le _, Nat.zero_le _⟩, rfl, rfl⟩

theorem run_plain {s : RecentSet κ V} (h : s.WellKept) (ops : List (Op κ V)) :
    ∃ s', ops.foldlM RecentSet.step s = some s' ∧ s'.WellKept ∧ s'.capacity = s.capacity ∧
      s'.values.map RecentValue.pair =
        ops.foldl (plainStep s.capacity) (s.values.map RecentValue.pair) := by
  induction ops generalizing s with
  | nil => exact ⟨s, rfl, h, rfl, rfl⟩
  | cons op ops ih =>
    obtain ⟨m, hstep, hkept, hcapacity, hvalues⟩ := step_plain h op
    obtain ⟨s', hrun, hkept', hcapacity', hvalues'⟩ := ih hkept
    refine ⟨s', ?_, hkept', hcapacity'.trans hcapacity, ?_⟩
    · rw [foldlM_cons, hstep]
      exact hrun
    · rw [hvalues', hvalues, hcapacity]
      rfl

/-- A recent set answers as the plain map does; its loop finds what it looks for, and its order
list stays short, also while a key is being added. -/
theorem recentSet_plain (capacity : Nat) (ops : List (Op κ V)) :
    ∃ s, ops.foldlM RecentSet.step (newRecentSet capacity) = some s ∧
      (∀ key, s.get key = plainGet (ops.foldl (plainStep capacity) []) key) ∧
      s.order.length ≤ 2 * capacity ∧
      ∀ key v, (s.added key v).order.length ≤ 2 * capacity + 1 := by
  obtain ⟨s, hrun, hkept, hcapacity, hvalues⟩ :=
    run_plain (wellKept_new capacity) ops
  have hbound : s.order.length ≤ 2 * capacity := by
    rw [show capacity = s.capacity from hcapacity.symm]
    exact hkept.bound
  refine ⟨s, hrun, ?_, hbound, ?_⟩
  · intro key
    have hpairs : s.values.map RecentValue.pair = ops.foldl (plainStep capacity) [] := hvalues
    unfold RecentSet.get plainGet
    rw [← hpairs, @lookup_map_key _ _ _ RecentValue.key _ Prod.fst RecentValue.pair (fun _ => rfl),
      Option.map_map]
    rfl
  · intro key v
    show (s.order ++ [_]).length ≤ _
    rw [length_append]
    exact Nat.succ_le_succ hbound

end Evener.Appoverlay
