/-
  Stores that forget the least recently used key.

  `Holds`: the store holds the last keys of a log of uses, with the values of a store that never
  forgets, for as long as no key is used again after it went (`put_holds`).
-/
import Mathlib.Data.List.Dedup
import Mathlib.Data.List.Lattice
import Mathlib.Logic.Function.Basic

namespace Evener.Lib

open List Function

variable {κ ν : Type} [DecidableEq κ]

/-- The last `n` values of a list. -/
def lastOf (n : Nat) (l : List κ) : List κ := l.drop (l.length - n)

structure Recency (κ ν : Type) where
  entries : κ → Option ν
  order : List κ

namespace Recency

def empty : Recency κ ν := ⟨fun _ => none, []⟩

/-- `key` becomes the last one used; past the bound, the first of the order is forgotten. -/
def touch (bound : Nat) (s : Recency κ ν) (key : κ) : Recency κ ν :=
  let order := s.order.erase key ++ [key]
  if order.length ≤ bound then { s with order := order }
  else
    match order with
    | [] => { s with order := order }
    | oldest :: order => ⟨Function.update s.entries oldest none, order⟩

def put (bound : Nat) (s : Recency κ ν) (key : κ) (value : ν) : Recency κ ν :=
  touch bound { s with entries := Function.update s.entries key (some value) } key

/-- The order holds the keys of the store, each once, and no more than the bound. -/
structure WellKept (bound : Nat) (s : Recency κ ν) : Prop where
  nodup : s.order.Nodup
  keys : ∀ k, k ∈ s.order ↔ s.entries k ≠ none
  bounded : s.order.length ≤ bound

/-- The store holds the last keys used, with their values under `value`. -/
structure Holds (bound : Nat) (s : Recency κ ν) (log : List κ) (value : κ → ν) : Prop where
  order : s.order = lastOf bound log.dedup
  entries : ∀ k, s.entries k = if k ∈ s.order then some (value k) else none

omit [DecidableEq κ] in
theorem wellKept_empty (bound : Nat) : (empty : Recency κ ν).WellKept bound :=
  ⟨nodup_nil, fun _ => by simp [empty], Nat.zero_le _⟩

theorem holds_empty (bound : Nat) (value : κ → ν) :
    (empty : Recency κ ν).Holds bound [] value :=
  ⟨by simp [empty, lastOf], fun _ => by simp [empty]⟩

/-! ## The order -/

theorem nodup_erase_append {l : List κ} (h : l.Nodup) (k : κ) : (l.erase k ++ [k]).Nodup := by
  rw [nodup_append]
  refine ⟨h.erase k, nodup_singleton k, fun a ha b hb => ?_⟩
  rw [mem_singleton.mp hb]
  rintro rfl
  exact h.not_mem_erase ha

theorem mem_erase_append {l : List κ} {k j : κ} : j ∈ l.erase k ++ [k] ↔ j ∈ l ∨ j = k := by
  rw [mem_append, mem_singleton]
  by_cases hj : j = k
  · simp [hj]
  · rw [mem_erase_of_ne hj]

/-- A used key moves behind the others in the order of last uses. -/
theorem dedup_append_singleton (log : List κ) (k : κ) :
    (log ++ [k]).dedup = log.dedup.erase k ++ [k] := by
  induction log with
  | nil => simp
  | cons a log ih =>
    rw [cons_append]
    by_cases ha : a ∈ log
    · rw [dedup_cons_of_mem (mem_append_left _ ha), dedup_cons_of_mem ha, ih]
    · by_cases hk : a = k
      · subst hk
        rw [dedup_cons_of_mem (by simp), dedup_cons_of_notMem ha, erase_cons_head,
          ih, erase_of_not_mem (by simpa using ha)]
      · rw [dedup_cons_of_notMem (by simp [ha, hk]), dedup_cons_of_notMem ha, ih,
          erase_cons_tail (by simpa using hk), cons_append]

/-- A key stays among the last `n` while fewer than `n` others are used behind it. -/
theorem mem_lastOf_dedup {n : Nat} {log : List κ} {k : κ} (hk : k ∈ log)
    (hnear : (log.reverse.takeWhile (· ≠ k)).dedup.length < n) : k ∈ lastOf n log.dedup := by
  obtain ⟨behind, ahead, hlog, hbehind⟩ := eq_append_cons_of_mem (mem_reverse.mpr hk)
  have htake : log.reverse.takeWhile (· ≠ k) = behind := by
    rw [hlog, takeWhile_append_of_pos fun a ha => by
      rw [decide_eq_true_eq]; exact fun heq => hbehind (heq ▸ ha)]
    simp
  rw [htake] at hnear
  have hlog' : log = (ahead.reverse ++ [k]) ++ behind.reverse := by
    rw [← reverse_reverse log, hlog]
    simp
  have hsuffix : k :: behind.reverse.dedup <:+ log.dedup := by
    rw [hlog', append_assoc, dedup_append, singleton_append,
      dedup_cons_of_notMem (by simpa using hbehind)]
    exact suffix_union_right _ _
  have hlength : behind.reverse.dedup.length = behind.dedup.length :=
    List.Perm.length_eq (List.Perm.dedup (reverse_perm behind))
  obtain ⟨front, hfront⟩ := hsuffix
  unfold lastOf
  rw [← hfront, length_append, length_cons, hlength]
  rw [drop_append_of_le_length (by omega)]
  simp

omit [DecidableEq κ] in
theorem length_lastOf (n : Nat) (l : List κ) : (lastOf n l).length = min n l.length := by
  unfold lastOf
  rw [length_drop]
  omega

/-- Moving a key behind the last `n` values of a list gives the last `n` after the move. -/
theorem lastOf_move {n : Nat} (hn : 0 < n) {l : List κ} (hl : l.Nodup) {k : κ}
    (hk : k ∈ l → k ∈ lastOf n l) :
    lastOf n (l.erase k ++ [k]) =
      (if ((lastOf n l).erase k ++ [k]).length ≤ n then (lastOf n l).erase k ++ [k]
        else ((lastOf n l).erase k ++ [k]).tail) := by
  have hsplit : l = l.take (l.length - n) ++ lastOf n l := (take_append_drop _ _).symm
  have hlen := length_lastOf n l
  by_cases hmem : k ∈ l
  · have hfront : k ∉ l.take (l.length - n) := by
      intro hin
      rw [hsplit] at hl
      exact disjoint_of_nodup_append hl hin (hk hmem)
    have hpos : 0 < (lastOf n l).length := length_pos_of_mem (hk hmem)
    have hlength : ((lastOf n l).erase k ++ [k]).length = (lastOf n l).length := by
      rw [length_append, length_erase_of_mem (hk hmem), length_singleton]
      omega
    rw [if_pos (by omega)]
    have herase : l.erase k = l.take (l.length - n) ++ (lastOf n l).erase k := by
      conv_lhs => rw [hsplit]
      exact erase_append_right _ hfront
    have hsum : (l.erase k ++ [k]).length = l.length := by
      have hpos := length_pos_of_mem hmem
      rw [length_append, length_erase_of_mem hmem, length_singleton]
      omega
    unfold lastOf at *
    rw [hsum, herase, append_assoc]
    exact drop_left' (by rw [length_take]; omega)
  · have hnot : k ∉ lastOf n l := fun hin => hmem (mem_of_mem_drop hin)
    rw [erase_of_not_mem hmem, erase_of_not_mem hnot]
    by_cases hroom : l.length < n
    · have hall : lastOf n l = l := by
        unfold lastOf
        rw [Nat.sub_eq_zero_of_le (Nat.le_of_lt hroom), drop_zero]
      rw [hall, if_pos (by rw [length_append, length_singleton]; omega)]
      unfold lastOf
      rw [length_append, length_singleton, Nat.sub_eq_zero_of_le (by omega),
        drop_zero]
    · rw [if_neg (by rw [length_append, length_singleton]; omega)]
      unfold lastOf
      rw [length_append, length_singleton,
        show l.length + 1 - n = (l.length - n) + 1 by omega, ← tail_drop,
        drop_append_of_le_length (by omega)]

/-! ## Writing a key -/

variable {bound : Nat} {s : Recency κ ν}

/-- What a touch leaves: the moved order, or the moved order without its first key. -/
theorem touch_cases (key : κ) :
    ((s.order.erase key ++ [key]).length ≤ bound ∧
      s.touch bound key = { s with order := s.order.erase key ++ [key] }) ∨
    (bound < (s.order.erase key ++ [key]).length ∧ ∃ oldest rest,
      s.order.erase key ++ [key] = oldest :: rest ∧
      s.touch bound key = ⟨Function.update s.entries oldest none, rest⟩) := by
  unfold touch
  by_cases hroom : (s.order.erase key ++ [key]).length ≤ bound
  · rw [if_pos hroom]
    exact Or.inl ⟨hroom, rfl⟩
  · rw [if_neg hroom]
    refine Or.inr ⟨Nat.lt_of_not_le hroom, ?_⟩
    cases horder : s.order.erase key ++ [key] with
    | nil => simp at horder
    | cons oldest rest => exact ⟨oldest, rest, rfl, rfl⟩

theorem WellKept.put (h : s.WellKept bound) (hbound : 0 < bound) (key : κ) (value : ν) :
    (s.put bound key value).WellKept bound := by
  have hnodup := nodup_erase_append h.nodup key
  have hkeys : ∀ k, k ∈ s.order.erase key ++ [key] ↔
      Function.update s.entries key (some value) k ≠ none := by
    intro k
    rw [mem_erase_append, h.keys]
    by_cases hk : k = key
    · simp [hk]
    · rw [update_of_ne hk]
      simp [hk]
  unfold Recency.put
  rcases touch_cases (s := { s with entries := Function.update s.entries key (some value) }) key
    with ⟨hroom, heq⟩ | ⟨hfull, oldest, rest, horder, heq⟩
  · rw [heq]
    exact ⟨hnodup, hkeys, hroom⟩
  · rw [heq]
    dsimp only at horder hfull
    rw [horder] at hnodup hkeys hfull
    refine ⟨hnodup.of_cons, fun k => ?_, ?_⟩
    · by_cases hk : k = oldest
      · subst hk
        simp [(nodup_cons.mp hnodup).1]
      · dsimp only
        rw [update_of_ne hk, ← hkeys, mem_cons]
        simp [hk]
    · have hlength : s.order.length ≤ bound := h.bounded
      have hle : (s.order.erase key).length ≤ s.order.length := length_erase_le
      have heq' := congrArg List.length horder
      rw [length_append, length_singleton, length_cons] at heq'
      dsimp only
      omega

/-- A key that was used stays known while it is among the last ones. -/
theorem Holds.put {log : List κ} {value : κ → ν} (h : s.Holds bound log value)
    (hbound : 0 < bound) {key : κ} (hkey : key ∈ log → key ∈ s.order) (v : ν) :
    (s.put bound key v).Holds bound (log ++ [key]) (Function.update value key v) := by
  have hmove := lastOf_move hbound (nodup_dedup log) (k := key)
    (fun hmem => h.order ▸ hkey (mem_dedup.mp hmem))
  rw [← h.order] at hmove
  have hnodup := nodup_erase_append (h.order ▸ (nodup_dedup log).sublist
    (drop_sublist _ _) : s.order.Nodup) key
  have hentries : ∀ k, Function.update s.entries key (some v) k =
      if k ∈ s.order.erase key ++ [key] then some (Function.update value key v k) else none := by
    intro k
    by_cases hk : k = key
    · subst hk
      simp
    · rw [update_of_ne hk, update_of_ne hk, h.entries]
      by_cases hmem : k ∈ s.order
      · rw [if_pos hmem, if_pos (mem_erase_append.mpr (Or.inl hmem))]
      · rw [if_neg hmem, if_neg fun hin => (mem_erase_append.mp hin).elim hmem hk]
  unfold Recency.put
  rcases touch_cases (s := { s with entries := Function.update s.entries key (some v) }) key
    with ⟨hroom, heq⟩ | ⟨hfull, oldest, rest, horder, heq⟩
  · dsimp only at hroom
    rw [if_pos hroom] at hmove
    rw [heq]
    exact ⟨by rw [dedup_append_singleton, hmove], hentries⟩
  · dsimp only at horder hfull
    rw [if_neg (Nat.not_le_of_lt hfull), horder] at hmove
    rw [horder] at hentries hnodup
    rw [heq]
    refine ⟨by rw [dedup_append_singleton, hmove, tail_cons], fun k => ?_⟩
    by_cases hk : k = oldest
    · subst hk
      simp [(nodup_cons.mp hnodup).1]
    · dsimp only
      rw [update_of_ne hk, hentries k]
      simp [hk]

/-- A key whose last use has fewer than `bound` others behind it is still there. -/
theorem Holds.mem_order {log : List κ} {value : κ → ν} (h : s.Holds bound log value) {key : κ}
    (hnear : (log.reverse.takeWhile (· ≠ key)).dedup.length < bound) (hkey : key ∈ log) :
    key ∈ s.order := h.order ▸ mem_lastOf_dedup hkey hnear

theorem Holds.mem_log {log : List κ} {value : κ → ν} (h : s.Holds bound log value) {key : κ}
    (hkey : key ∈ s.order) : key ∈ log := by
  rw [h.order] at hkey
  exact mem_dedup.mp (mem_of_mem_drop hkey)

/-- A touch writes the value that is there. -/
theorem touch_known {key : κ} {value : ν} (h : s.entries key = some value) (bound : Nat) :
    s.touch bound key = s.put bound key value := by
  have hsame : Function.update s.entries key (some value) = s.entries := by
    rw [← h, update_eq_self]
  unfold put
  rw [hsame]

/-- Values of keys that were never used do not count. -/
theorem Holds.congr {log : List κ} {value value' : κ → ν} (h : s.Holds bound log value)
    (hvalue : ∀ k ∈ log, value k = value' k) : s.Holds bound log value' := by
  refine ⟨h.order, fun k => ?_⟩
  rw [h.entries]
  by_cases hk : k ∈ s.order
  · rw [if_pos hk, if_pos hk, hvalue k (h.mem_log hk)]
  · rw [if_neg hk, if_neg hk]

/-- A key that is there puts no other out. -/
theorem WellKept.put_known (h : s.WellKept bound) {key : κ} (hkey : key ∈ s.order) (value : ν) :
    (s.put bound key value).entries = Function.update s.entries key (some value) := by
  have hlength : (s.order.erase key ++ [key]).length = s.order.length := by
    have hpos := length_pos_of_mem hkey
    rw [length_append, length_erase_of_mem hkey, length_singleton]
    omega
  unfold Recency.put
  rcases touch_cases (s := { s with entries := Function.update s.entries key (some value) }) key
    with ⟨-, heq⟩ | ⟨hfull, -⟩
  · rw [heq]
  · exact absurd h.bounded (by dsimp only at hfull; omega)

end Recency

end Evener.Lib
