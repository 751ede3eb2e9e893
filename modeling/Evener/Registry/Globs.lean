/-
  The glob rows of the model registry: matching an id against a pattern, and the order in which
  the matching rows apply.

  Patterns and ids are bytes.
-/
import Mathlib.Data.List.Induction
import Mathlib.Data.List.Lex
import Mathlib.Data.Prod.Lex
import Evener.Lib.Lines
import Evener.Lib.StableSort

namespace Evener.Registry

open Evener.Lib List Option

def star : UInt8 := 42

/-! ## Matching -/

/-- `strings.Index`. -/
def indexOf (part : Bytes) : Bytes → Option Nat
  | [] => if part = [] then some 0 else none
  | b :: text => if part.isPrefixOf (b :: text) then some 0 else (indexOf part text).map (· + 1)

/-- What is left of the id behind the first occurrence of each part in turn. -/
def matchMiddle : List Bytes → Bytes → Option Bytes
  | [], id => some id
  | part :: parts, id =>
    match indexOf part id with
    | none => none
    | some idx => matchMiddle parts (id.drop (idx + part.length))

def matchGlob (pattern id : Bytes) : Bool :=
  let parts := pattern.splitOn star
  if parts.length = 1 then pattern = id
  else if !(parts.headD []).isPrefixOf id then false
  else
    match matchMiddle parts.tail.dropLast (id.drop (parts.headD []).length) with
    | none => false
    | some rest => (parts.getLastD []).isSuffixOf rest

/-- Shorter patterns first, then in the order of their bytes. -/
def globKey (pattern : Bytes) : ℕ ×ₗ List ℕ := toLex (pattern.length, pattern.map UInt8.toNat)

def sortGlobs (patterns : List Bytes) : List Bytes := sortBy globKey patterns

def isGlob (key : Bytes) : Bool := star ∈ key

def applyOrder (globs : List Bytes) (out : List Bytes) (id : Bytes) : List Bytes :=
  if id = [] then out
  else globs.foldl (fun out g => if g ∉ out ∧ matchGlob g id then out ++ [g] else out) out

/-- The glob rows in the order they apply, of the keys of the rows. -/
def orderedGlobKeys (rows : List Bytes) (ref altID : Bytes) : List Bytes :=
  [altID, ref].foldl (applyOrder (sortGlobs (rows.filter isGlob))) []

/-! ## The language of a pattern -/

/-- The id is the pattern with each star replaced by some string. -/
inductive Fills : Bytes → Bytes → Prop where
  | done : Fills [] []
  | literal {b : UInt8} {pattern id : Bytes} (hb : b ≠ star) (h : Fills pattern id) :
      Fills (b :: pattern) (b :: id)
  | star {pattern id : Bytes} (filling : Bytes) (h : Fills pattern id) :
      Fills (star :: pattern) (filling ++ id)

/-- The id is the parts in order, with some string between each and the next. -/
def Placed : List Bytes → Bytes → Prop
  | [], _ => False
  | [part], id => id = part
  | part :: next :: parts, id =>
    ∃ filling rest, id = part ++ (filling ++ rest) ∧ Placed (next :: parts) rest

/-- The parts are placed behind some string. -/
def PlacedBehind (parts : List Bytes) (id : Bytes) : Prop :=
  ∃ filling rest, id = filling ++ rest ∧ Placed parts rest

theorem splitOn_ne_nil (pattern : Bytes) : pattern.splitOn star ≠ [] := by
  rw [splitOn_eq_splitOnP]
  exact splitOnP_ne_nil _ _

theorem placed_cons (b : UInt8) {parts : List Bytes} (hparts : parts ≠ []) (id : Bytes) :
    Placed (parts.modifyHead (b :: ·)) id ↔ ∃ rest, id = b :: rest ∧ Placed parts rest := by
  obtain ⟨part, parts, rfl⟩ := exists_cons_of_ne_nil hparts
  cases parts with
  | nil =>
    constructor
    · rintro rfl
      exact ⟨part, rfl, rfl⟩
    · rintro ⟨rest, rfl, rfl⟩
      rfl
  | cons next parts =>
    constructor
    · rintro ⟨filling, rest, rfl, h⟩
      exact ⟨_, rfl, filling, rest, rfl, h⟩
    · rintro ⟨_, rfl, filling, rest, rfl, h⟩
      exact ⟨filling, rest, rfl, h⟩

theorem fills_iff_placed (pattern id : Bytes) :
    Fills pattern id ↔ Placed (pattern.splitOn star) id := by
  induction pattern generalizing id with
  | nil =>
    rw [splitOn_nil]
    constructor
    · intro h
      cases h
      rfl
    · rintro rfl
      exact .done
  | cons b pattern ih =>
    rw [splitOn_eq_splitOnP, splitOnP_cons_eq_if_modifyHead, ← splitOn_eq_splitOnP]
    by_cases hb : b = star
    · subst hb
      rw [if_pos (by simp)]
      obtain ⟨part, parts, hparts⟩ := exists_cons_of_ne_nil (splitOn_ne_nil pattern)
      rw [hparts]
      constructor
      · intro h
        cases h with
        | literal hb _ => exact absurd rfl hb
        | star filling h => exact ⟨filling, _, rfl, hparts ▸ (ih _).mp h⟩
      · rintro ⟨filling, rest, rfl, h⟩
        exact .star filling ((ih rest).mpr (hparts ▸ h))
    · rw [if_neg (by simpa using hb), placed_cons b (splitOn_ne_nil pattern)]
      constructor
      · intro h
        cases h with
        | literal _ h => exact ⟨_, rfl, (ih _).mp h⟩
        | star _ _ => exact absurd rfl hb
      · rintro ⟨rest, rfl, h⟩
        exact .literal hb ((ih rest).mpr h)

/-! ## Greedy placement -/

theorem indexOf_some {part text : Bytes} {i : Nat} (h : indexOf part text = some i) :
    ∃ before after, text = before ++ (part ++ after) ∧ before.length = i := by
  induction text generalizing i with
  | nil =>
    unfold indexOf at h
    split at h
    · next hpart =>
      obtain rfl := some.inj h
      exact ⟨[], [], by rw [hpart]; rfl, rfl⟩
    · cases h
  | cons b text ih =>
    unfold indexOf at h
    split at h
    · next hpart =>
      obtain rfl := some.inj h
      obtain ⟨after, hafter⟩ := isPrefixOf_iff_prefix.mp hpart
      exact ⟨[], after, hafter.symm, rfl⟩
    · obtain ⟨j, hj, rfl⟩ := map_eq_some_iff.mp h
      obtain ⟨before, after, rfl, rfl⟩ := ih hj
      exact ⟨b :: before, after, rfl, rfl⟩

/-- No occurrence starts before the first one. -/
theorem indexOf_first (part before after : Bytes) :
    ∃ i, indexOf part (before ++ (part ++ after)) = some i ∧ i ≤ before.length := by
  induction before with
  | nil =>
    rw [nil_append]
    cases htext : part ++ after with
    | nil =>
      unfold indexOf
      exact ⟨0, if_pos (append_eq_nil_iff.mp htext).1, Nat.le_refl 0⟩
    | cons b text =>
      unfold indexOf
      rw [← htext]
      exact ⟨0, if_pos ( isPrefixOf_iff_prefix.mpr (prefix_append part after)),
        Nat.le_refl 0⟩
  | cons b before ih =>
    obtain ⟨i, hi, hle⟩ := ih
    rw [cons_append]
    unfold indexOf
    split
    · exact ⟨0, rfl, Nat.zero_le _⟩
    · exact ⟨i + 1, by rw [hi]; rfl, Nat.succ_le_succ hle⟩

/-- What can be placed in a string can be placed in a longer one that ends like it. -/
theorem PlacedBehind.mono {parts : List Bytes} {id : Bytes} (h : PlacedBehind parts id)
    (before : Bytes) : PlacedBehind parts (before ++ id) := by
  obtain ⟨filling, rest, rfl, h⟩ := h
  exact ⟨before ++ filling, rest, (append_assoc _ _ _).symm, h⟩

/-- The first occurrence of a part serves as well as any later one. -/
theorem placedBehind_first (part next : Bytes) (parts : List Bytes) (id : Bytes) :
    PlacedBehind (part :: next :: parts) id ↔
      ∃ i, indexOf part id = some i ∧
        PlacedBehind (next :: parts) (id.drop (i + part.length)) := by
  constructor
  · rintro ⟨filling, _, rfl, filling', rest, rfl, h⟩
    obtain ⟨i, hi, hle⟩ := indexOf_first part filling (filling' ++ rest)
    refine ⟨i, hi, ?_⟩
    have hbehind : PlacedBehind (next :: parts) (filling' ++ rest) := ⟨filling', rest, rfl, h⟩
    have hdrop : (filling ++ (part ++ (filling' ++ rest))).drop (i + part.length) =
        (filling ++ part).drop (i + part.length) ++ (filling' ++ rest) := by
      rw [← append_assoc, drop_append_of_le_length (by rw [length_append]; omega)]
    rw [hdrop]
    exact hbehind.mono _
  · rintro ⟨i, hi, filling, rest, hrest, h⟩
    obtain ⟨before, after, rfl, rfl⟩ := indexOf_some hi
    rw [← append_assoc, drop_append_of_le_length (by rw [length_append]),
      drop_of_length_le (by rw [length_append]), nil_append] at hrest
    exact ⟨before, _, rfl, filling, rest, by rw [hrest], h⟩

theorem placedBehind_last (part id : Bytes) : PlacedBehind [part] id ↔ part <:+ id := by
  constructor
  · rintro ⟨filling, _, rfl, rfl⟩
    exact suffix_append filling _
  · rintro ⟨filling, rfl⟩
    exact ⟨filling, part, rfl, rfl⟩

theorem matchMiddle_iff (middle : List Bytes) (last id : Bytes) :
    (∃ rest, matchMiddle middle id = some rest ∧ last <:+ rest) ↔
      PlacedBehind (middle ++ [last]) id := by
  induction middle generalizing id with
  | nil =>
    rw [nil_append, placedBehind_last]
    constructor
    · rintro ⟨_, hrest, h⟩
      obtain rfl := some.inj hrest
      exact h
    · intro h
      exact ⟨id, rfl, h⟩
  | cons part middle ih =>
    obtain ⟨next, parts, hparts⟩ :=
      exists_cons_of_ne_nil (append_ne_nil_of_right_ne_nil middle (cons_ne_nil last []))
    rw [cons_append, hparts, placedBehind_first, ← hparts]
    unfold matchMiddle
    cases hindex : indexOf part id with
    | none =>
      constructor
      · rintro ⟨_, hrest, _⟩
        cases hrest
      · rintro ⟨_, hi, _⟩
        cases hi
    | some i =>
      constructor
      · intro h
        exact ⟨i, rfl, (ih _).mp h⟩
      · rintro ⟨_, hi, h⟩
        obtain rfl := some.inj hi
        exact (ih _).mpr h

theorem placed_front (first : Bytes) {rest : List Bytes} (hrest : rest ≠ []) (id : Bytes) :
    Placed (first :: rest) id ↔ first <+: id ∧ PlacedBehind rest (id.drop first.length) := by
  obtain ⟨next, parts, rfl⟩ := exists_cons_of_ne_nil hrest
  constructor
  · rintro ⟨filling, rest, rfl, h⟩
    rw [drop_left]
    exact ⟨prefix_append _ _, filling, rest, rfl, h⟩
  · rintro ⟨⟨after, rfl⟩, filling, rest, hafter, h⟩
    rw [drop_left] at hafter
    exact ⟨filling, rest, by rw [hafter], h⟩

theorem matchGlob_iff (pattern id : Bytes) : matchGlob pattern id = true ↔ Fills pattern id := by
  rw [fills_iff_placed]
  unfold matchGlob
  dsimp only
  obtain ⟨first, rest, hparts⟩ := exists_cons_of_ne_nil (splitOn_ne_nil pattern)
  rw [hparts]
  cases rest using List.reverseRecOn with
  | nil =>
    have hpattern : first = pattern := by
      have hjoin : [star].intercalate (pattern.splitOn star) = pattern :=
        intercalate_splitOn star
      rw [hparts] at hjoin
      simpa using hjoin
    rw [if_pos (by rfl), decide_eq_true_eq, hpattern]
    exact eq_comm
  | append_singleton middle last =>
    rw [placed_front first (by simp), ← matchMiddle_iff, if_neg (by simp)]
    simp only [headD_cons, tail_cons, dropLast_concat, getLastD_cons,
      getLastD_concat]
    by_cases hfirst : first <+: id
    · rw [if_neg (by simpa using hfirst)]
      cases matchMiddle middle (id.drop first.length) with
      | none => simp
      | some rest => simp [hfirst]
    · have hno : first.isPrefixOf id = false :=
        Bool.eq_false_iff.mpr fun h => hfirst ( isPrefixOf_iff_prefix.mp h)
      rw [if_pos (by rw [hno]; rfl)]
      simp [hfirst]

/-! ## The order of the rows -/

theorem globKey_injective : Function.Injective globKey := by
  intro a b h
  have hbytes : a.map UInt8.toNat = b.map UInt8.toNat := congrArg (fun key => (ofLex key).2) h
  exact map_injective_iff.mpr (fun x y hxy => UInt8.toNat_inj.mp hxy) hbytes

theorem sortGlobs_perm {l l' : List Bytes} (hp : l.Perm l') : sortGlobs l = sortGlobs l' := by
  refine List.Perm.eq_of_pairwise ?_ (sortBy_pairwise l) (sortBy_pairwise l')
    ((sortBy_perm l).trans (hp.trans (sortBy_perm l').symm))
  intro a b _ _ hab hba
  exact globKey_injective (le_antisymm hab hba)

/-- A pattern matches the ids of its language, and the rows apply in one order, however they were
loaded. -/
theorem globs_exact :
    (∀ pattern id, matchGlob pattern id = true ↔ Fills pattern id) ∧
      ∀ l l' : List Bytes, l.Perm l' → sortGlobs l = sortGlobs l' ∧
        ∀ ref altID, orderedGlobKeys l ref altID = orderedGlobKeys l' ref altID := by
  refine ⟨matchGlob_iff, ?_⟩
  intro l l' hp
  refine ⟨sortGlobs_perm hp, ?_⟩
  intro ref altID
  unfold orderedGlobKeys
  rw [sortGlobs_perm (hp.filter isGlob)]

theorem globs_exact_swapped :
    sortGlobs [[42, 97], [42]] = sortGlobs [[42], [42, 97]] ∧
      ∀ ref altID, orderedGlobKeys [[42, 97], [42]] ref altID =
        orderedGlobKeys [[42], [42, 97]] ref altID :=
  globs_exact.2 _ _ (List.Perm.swap _ _ _)

end Evener.Registry
