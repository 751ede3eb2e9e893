/-
  Item keys: a turn id and a position, joined without escapes, and read back from the right. A key
  leaves out where a notice stands among those of its place (`sub`).
-/
import Evener.Lib.ByteText
import Evener.Lib.Numerals

namespace Evener.TranscriptIndex

open Evener.Lib List

structure ThreadItemPosition where
  entry : UInt64
  item : UInt32
  sub : UInt32 := 0
deriving DecidableEq

/-- `malformed item key %q`. -/
inductive KeyError where
  | malformed (key : Bytes)
deriving DecidableEq

def keyVersion : Nat := 2

def keyPrefix : Bytes := utf8 "apptranscript-item-v" ++ decimal keyVersion ++ utf8 ":"

def headerKeyPrefix : Bytes := utf8 "prelude:header:"

def colon : UInt8 := 58

def itemKey (turnID : Bytes) (position : ThreadItemPosition) : Bytes :=
  if position.entry = 0 then keyPrefix ++ headerKeyPrefix ++ decimal position.item.toNat
  else keyPrefix ++ turnID ++ [colon] ++ decimal (position.entry - 1).toNat ++ [colon] ++
    decimal position.item.toNat

/-- `strings.CutPrefix`. -/
def cutStart (s start : Bytes) : Option Bytes :=
  if start.isPrefixOf s then some (s.drop start.length) else none

/-- `strings.LastIndex` of one byte. -/
def lastIndex (c : UInt8) : Bytes → Option Nat
  | [] => none
  | b :: s =>
    match lastIndex c s with
    | some i => some (i + 1)
    | none => if b = c then some 0 else none

/-- A numeral that `itemKey` writes. -/
def parseCanonicalUint (s : Bytes) (bitSize : Nat) : Option Nat :=
  if 1 < s.length ∧ s.head? = some 48 then none else parseUint s bitSize

def parseItemKey (key : Bytes) : Except KeyError (Bytes × ThreadItemPosition) :=
  match cutStart key keyPrefix with
  | none => .error (.malformed key)
  | some rest =>
    match cutStart rest headerKeyPrefix with
    | some headerRest =>
      match parseCanonicalUint headerRest 32 with
      | none => .error (.malformed key)
      | some part => .ok ([], { entry := 0, item := UInt32.ofNat part })
    | none =>
      match lastIndex colon rest with
      | none => .error (.malformed key)
      | some partIdx =>
        let turnAndOrdinal := rest.take partIdx
        let partStr := rest.drop (partIdx + 1)
        match lastIndex colon turnAndOrdinal with
        | none => .error (.malformed key)
        | some ordinalIdx =>
          let turnID := turnAndOrdinal.take ordinalIdx
          let ordinalStr := turnAndOrdinal.drop (ordinalIdx + 1)
          if turnID = [] then .error (.malformed key)
          else
            -- 63 bits, so that the entry after the ordinal is never 0
            match parseCanonicalUint ordinalStr 63 with
            | none => .error (.malformed key)
            | some ordinal =>
              match parseCanonicalUint partStr 32 with
              | none => .error (.malformed key)
              | some part =>
                .ok (turnID, { entry := UInt64.ofNat ordinal + 1, item := UInt32.ofNat part })

/-! ## Cuts -/

variable {s t : Bytes} {c : UInt8} {n : Nat} {position : ThreadItemPosition}

theorem cutStart_eq_some {start rest : Bytes} :
    cutStart s start = some rest ↔ s = start ++ rest := by
  unfold cutStart
  constructor
  · intro h
    split at h
    · next hstart =>
      cases h
      obtain ⟨rest, rfl⟩ := isPrefixOf_iff_prefix.mp hstart
      rw [drop_left]
    · cases h
  · rintro rfl
    rw [if_pos ( isPrefixOf_iff_prefix.mpr (prefix_append _ _)), drop_left]

theorem cutStart_eq_none {start : Bytes} : cutStart s start = none ↔ ¬ start <+: s := by
  unfold cutStart
  rw [← isPrefixOf_iff_prefix]
  split <;> simp_all

theorem lastIndex_eq_none : lastIndex c s = none ↔ c ∉ s := by
  induction s with
  | nil => exact iff_of_true rfl not_mem_nil
  | cons b s ih =>
    rw [lastIndex, mem_cons, not_or, ← ih]
    cases lastIndex c s with
    | some i => exact iff_of_false (fun h => nomatch h) (fun h => nomatch h.2)
    | none =>
      by_cases hb : b = c
      · rw [if_pos hb]
        exact iff_of_false (fun h => nomatch h) (fun h => h.1 hb.symm)
      · rw [if_neg hb]
        exact iff_of_true rfl ⟨Ne.symm hb, rfl⟩

/-- The last occurrence is the one behind which there is none. -/
theorem lastIndex_append (before : Bytes) {after : Bytes} (h : c ∉ after) :
    lastIndex c (before ++ c :: after) = some before.length := by
  induction before with
  | nil =>
    rw [nil_append, lastIndex, lastIndex_eq_none.mpr h]
    rw [if_pos rfl]
    rfl
  | cons b before ih =>
    rw [cons_append, lastIndex, ih]
    rfl

theorem lastIndex_some {i : Nat} (h : lastIndex c s = some i) :
    s = s.take i ++ c :: s.drop (i + 1) ∧ c ∉ s.drop (i + 1) := by
  induction s generalizing i with
  | nil => cases h
  | cons b s ih =>
    rw [lastIndex] at h
    cases hlast : lastIndex c s with
    | some j =>
      rw [hlast] at h
      cases h
      obtain ⟨hsplit, hnot⟩ := ih hlast
      refine ⟨?_, hnot⟩
      rw [take_succ_cons, drop_succ_cons, cons_append, ← hsplit]
    | none =>
      rw [hlast] at h
      dsimp only at h
      split at h
      · next hb =>
        cases h
        subst hb
        exact ⟨rfl, lastIndex_eq_none.mp hlast⟩
      · cases h

/-! ## Numerals -/

theorem parseCanonicalUint_decimal {bitSize : Nat} (h : n < 2 ^ bitSize) :
    parseCanonicalUint (decimal n) bitSize = some n := by
  unfold parseCanonicalUint
  rw [if_neg (fun hzero => (canonical_decimal n).2.2 hzero.1 hzero.2), parseUint_decimal h]

theorem parseCanonicalUint_some {bitSize : Nat} (h : parseCanonicalUint s bitSize = some n) :
    s = decimal n ∧ n < 2 ^ bitSize := by
  unfold parseCanonicalUint at h
  split at h
  · cases h
  · next hlead =>
    obtain ⟨hne, hdigits, rfl, hsmall⟩ := parseUint_some h
    refine ⟨(decimal_numeralValue ⟨hne, hdigits, fun hlong hzero => hlead ⟨hlong, hzero⟩⟩).symm, hsmall⟩

theorem colon_not_mem (n : Nat) : colon ∉ decimal n := not_mem_decimal (by decide) n

/-! ## Two segments from the right -/

/-- What an entry key holds behind the lead-in. -/
def entryKey (turnID : Bytes) (ordinal part : Nat) : Bytes :=
  (turnID ++ colon :: decimal ordinal) ++ colon :: decimal part

/-- What is behind the last separator, and what is in front of it. -/
theorem last_segment_inj {x x' a a' : Bytes} (ha : c ∉ a) (ha' : c ∉ a')
    (h : x ++ c :: a = x' ++ c :: a') : x = x' ∧ a = a' := by
  have hindex := lastIndex_append x ha
  rw [h, lastIndex_append x' ha'] at hindex
  obtain ⟨hx, hrest⟩ := append_inj h (Option.some.inj hindex).symm
  exact ⟨hx, (List.cons.inj hrest).2⟩

theorem decimal_inj {n' : Nat} (h : decimal n = decimal n') : n = n' := by
  rw [← numeralValue_decimal n, ← numeralValue_decimal n', h]

/-- The last two segments are numerals, so the turn id is what is in front of them. -/
theorem entryKey_inj {t' : Bytes} {o o' p p' : Nat} (h : entryKey t o p = entryKey t' o' p') :
    t = t' ∧ o = o' ∧ p = p' := by
  obtain ⟨houter, hp⟩ := last_segment_inj (colon_not_mem p) (colon_not_mem p') h
  obtain ⟨ht, ho⟩ := last_segment_inj (colon_not_mem o) (colon_not_mem o') houter
  exact ⟨ht, decimal_inj ho, decimal_inj hp⟩

theorem headerKeyPrefix_split :
    headerKeyPrefix = utf8 "prelude" ++ colon :: (utf8 "header" ++ [colon]) ∧
      headerKeyPrefix = utf8 "prelude:header" ++ [colon] := by decide

/-- A numeral does not begin like a word. -/
theorem word_not_decimal (n : Nat) (rest : Bytes) {more : Bytes} :
    utf8 "header" ++ more ≠ decimal n ++ rest := by
  intro h
  have hhead := congrArg List.head? h
  rw [head?_append_of_ne_nil _ (decimal_ne_nil n),
    head?_append_of_ne_nil _ (by decide)] at hhead
  have hmem : (104 : UInt8) ∈ decimal n := mem_of_mem_head? (hhead.symm.trans (by decide))
  exact absurd (decimal_digits n _ hmem) (by decide)

/-- An entry key looks like a header key only when its turn id does. -/
theorem header_of_entryKey {o p : Nat} (h : headerKeyPrefix <+: entryKey t o p) :
    t = utf8 "prelude:header" ∨ headerKeyPrefix <+: t := by
  unfold entryKey at h
  rw [append_assoc] at h
  rcases prefix_append_cases h with hturn | ⟨more, hsplit, hmore⟩
  · exact Or.inr hturn
  -- the turn id is a part of the lead-in, which goes on with a colon
  have hturn : t = headerKeyPrefix.take t.length := by rw [hsplit, take_left]
  have hrest : more = headerKeyPrefix.drop t.length := by rw [hsplit, drop_left]
  have hlength : t.length ≤ 15 := by
    have hsize : headerKeyPrefix.length = 15 := by decide
    rw [← hsize, hsplit, length_append]
    omega
  cases more with
  | nil =>
    rw [append_nil] at hsplit
    rw [hsplit]
    exact Or.inr (prefix_refl t)
  | cons b more =>
    rw [cons_append, cons_prefix_cons] at hmore
    obtain ⟨rfl, hdigits⟩ := hmore
    have hcolons : ∀ k ≤ 15, (headerKeyPrefix.drop k).head? = some colon → k = 7 ∨ k = 14 := by
      decide
    rcases hcolons _ hlength (by rw [← hrest]; rfl) with hseven | hfourteen
    · rw [hseven] at hrest
      have hword : more = utf8 "header" ++ [colon] := by
        have hdrop : headerKeyPrefix.drop 7 = colon :: (utf8 "header" ++ [colon]) := by decide
        exact (List.cons.inj (hrest.trans hdrop)).2
      obtain ⟨rest, hnumeral⟩ := hdigits
      rw [hword, append_assoc] at hnumeral
      exact absurd hnumeral (word_not_decimal o _)
    · left
      rw [hturn, hfourteen]
      decide

/-- A header key ends in a word and a numeral, not in two numerals. -/
theorem header_ne_entryKey (t : Bytes) (o p n : Nat) :
    headerKeyPrefix ++ decimal n ≠ entryKey t o p := by
  intro h
  have hheader : headerKeyPrefix ++ decimal n = utf8 "prelude:header" ++ colon :: decimal n := by
    rw [headerKeyPrefix_split.2, append_assoc]
    rfl
  obtain ⟨hword, _⟩ := last_segment_inj (colon_not_mem n) (colon_not_mem p) (hheader.symm.trans h)
  have hsplit : utf8 "prelude:header" = utf8 "prelude" ++ colon :: utf8 "header" := by decide
  obtain ⟨_, hnumeral⟩ :=
    last_segment_inj (by decide) (colon_not_mem o) (hsplit.symm.trans hword)
  have hword := @word_not_decimal o [] []
  rw [append_nil, append_nil] at hword
  exact hword hnumeral

/-! ## Keys -/

theorem itemKey_header (h : position.entry = 0) (turnID : Bytes) :
    itemKey turnID position = keyPrefix ++ (headerKeyPrefix ++ decimal position.item.toNat) := by
  unfold itemKey
  rw [if_pos h, append_assoc]

theorem itemKey_entry (h : position.entry ≠ 0) (turnID : Bytes) :
    itemKey turnID position =
      keyPrefix ++ entryKey turnID (position.entry - 1).toNat position.item.toNat := by
  unfold itemKey entryKey
  rw [if_neg h]
  simp

theorem itemKey_inj {t' : Bytes} {p p' : ThreadItemPosition} (h : itemKey t p = itemKey t' p') :
    (t = t' ∧ p.entry = p'.entry ∧ p.item = p'.item) ∨
      (p.entry = 0 ∧ p'.entry = 0 ∧ p.item = p'.item) := by
  by_cases hzero : p.entry = 0 <;> by_cases hzero' : p'.entry = 0
  · rw [itemKey_header hzero, itemKey_header hzero'] at h
    have hitem := decimal_inj (append_cancel_left (append_cancel_left h))
    exact Or.inr ⟨hzero, hzero', UInt32.toNat_inj.mp hitem⟩
  · rw [itemKey_header hzero, itemKey_entry hzero'] at h
    exact (header_ne_entryKey _ _ _ _ (append_cancel_left h)).elim
  · rw [itemKey_entry hzero, itemKey_header hzero'] at h
    exact (header_ne_entryKey _ _ _ _ (append_cancel_left h).symm).elim
  · rw [itemKey_entry hzero, itemKey_entry hzero'] at h
    obtain ⟨ht, hentry, hitem⟩ := entryKey_inj (append_cancel_left h)
    exact Or.inl ⟨ht, by simpa using UInt64.toNat_inj.mp hentry, UInt32.toNat_inj.mp hitem⟩

theorem parse_header (position : ThreadItemPosition) (h : position.entry = 0) (turnID : Bytes) :
    parseItemKey (itemKey turnID position) = .ok ([], { position with sub := 0 }) := by
  unfold parseItemKey
  rw [itemKey_header h, cutStart_eq_some.mpr rfl]
  dsimp only
  rw [cutStart_eq_some.mpr rfl]
  dsimp only
  rw [parseCanonicalUint_decimal position.item.toNat_lt]
  dsimp only
  rw [h, UInt32.ofNat_toNat]

theorem segments (c : UInt8) (x a : Bytes) :
    (x ++ c :: a).take x.length = x ∧ (x ++ c :: a).drop (x.length + 1) = a := by
  refine ⟨take_left, ?_⟩
  rw [← drop_drop, drop_left]
  rfl

theorem parse_entry {turnID : Bytes} (hne : turnID ≠ []) (hword : turnID ≠ utf8 "prelude:header")
    (hstart : ¬ headerKeyPrefix <+: turnID) (hlow : 1 ≤ position.entry.toNat)
    (hhigh : position.entry.toNat ≤ 2 ^ 63) :
    parseItemKey (itemKey turnID position) = .ok (turnID, { position with sub := 0 }) := by
  have hentry : position.entry ≠ 0 := by
    intro hzero
    rw [hzero] at hlow
    exact absurd hlow (by decide)
  have hordinal : (position.entry - 1).toNat = position.entry.toNat - 1 :=
    UInt64.toNat_sub_of_le _ _ (UInt64.le_iff_toNat_le.mpr hlow)
  have hnot : cutStart (entryKey turnID (position.entry - 1).toNat position.item.toNat)
      headerKeyPrefix = none := by
    refine cutStart_eq_none.mpr fun hheader => ?_
    rcases header_of_entryKey hheader with hturn | hturn
    · exact hword hturn
    · exact hstart hturn
  unfold parseItemKey
  rw [itemKey_entry hentry, cutStart_eq_some.mpr rfl]
  dsimp only
  rw [hnot]
  unfold entryKey
  rw [lastIndex_append _ (colon_not_mem _)]
  dsimp only
  rw [(segments colon _ _).1, (segments colon _ _).2, lastIndex_append _ (colon_not_mem _)]
  dsimp only
  rw [(segments colon _ _).1, (segments colon _ _).2, if_neg hne,
    parseCanonicalUint_decimal (by omega)]
  rw [parseCanonicalUint_decimal position.item.toNat_lt]
  dsimp only
  rw [UInt64.ofNat_toNat, UInt64.sub_add_cancel, UInt32.ofNat_toNat]

/-- A numeral as a number of its width, and back. -/
theorem ofNat_ordinal (h : n < 2 ^ 63) :
    UInt64.ofNat n + 1 ≠ 0 ∧ (UInt64.ofNat n + 1 - 1).toNat = n := by
  have hn : (UInt64.ofNat n).toNat = n := by
    rw [UInt64.toNat_ofNat']
    omega
  constructor
  · intro hzero
    have hsum := congrArg UInt64.toNat hzero
    rw [UInt64.toNat_add, hn] at hsum
    have hone : (1 : UInt64).toNat = 1 := rfl
    rw [hone] at hsum
    simp at hsum
    omega
  · rw [UInt64.add_sub_cancel, hn]

theorem itemKey_parse {key turnID : Bytes} (h : parseItemKey key = .ok (turnID, position)) :
    itemKey turnID position = key ∧ position.sub = 0 := by
  unfold parseItemKey at h
  cases hkey : cutStart key keyPrefix with
  | none =>
    rw [hkey] at h
    cases h
  | some rest =>
    rw [hkey] at h
    rw [cutStart_eq_some.mp hkey]
    dsimp only at h
    cases hheader : cutStart rest headerKeyPrefix with
    | some headerRest =>
      rw [hheader] at h
      rw [cutStart_eq_some.mp hheader]
      dsimp only at h
      cases hpart : parseCanonicalUint headerRest 32 with
      | none =>
        rw [hpart] at h
        cases h
      | some part =>
        rw [hpart] at h
        cases h
        obtain ⟨hnumeral, hsmall⟩ := parseCanonicalUint_some hpart
        refine ⟨?_, rfl⟩
        rw [itemKey_header rfl, hnumeral, UInt32.toNat_ofNat_of_lt' hsmall]
    | none =>
      rw [hheader] at h
      cases hlast : lastIndex colon rest with
      | none =>
        rw [hlast] at h
        cases h
      | some partIdx =>
        rw [hlast] at h
        dsimp only at h
        cases hfirst : lastIndex colon (rest.take partIdx) with
        | none =>
          rw [hfirst] at h
          cases h
        | some ordinalIdx =>
          rw [hfirst] at h
          dsimp only at h
          split at h
          · cases h
          cases hordinal : parseCanonicalUint ((rest.take partIdx).drop (ordinalIdx + 1)) 63 with
          | none =>
            rw [hordinal] at h
            cases h
          | some ordinal =>
            rw [hordinal] at h
            cases hpart : parseCanonicalUint (rest.drop (partIdx + 1)) 32 with
            | none =>
              rw [hpart] at h
              cases h
            | some part =>
              rw [hpart] at h
              cases h
              obtain ⟨hsplit, _⟩ := lastIndex_some hlast
              obtain ⟨hsplit', _⟩ := lastIndex_some hfirst
              obtain ⟨hnumeral, hsmall⟩ := parseCanonicalUint_some hordinal
              obtain ⟨hnumeral', hsmall'⟩ := parseCanonicalUint_some hpart
              obtain ⟨hentry, hback⟩ := ofNat_ordinal hsmall
              refine ⟨?_, rfl⟩
              rw [itemKey_entry hentry, hback, UInt32.toNat_ofNat_of_lt' hsmall']
              unfold entryKey
              rw [← hnumeral, ← hnumeral', ← hsplit', ← hsplit]

/-- Keys and positions determine each other, but for the `sub` that no key carries. -/
theorem keys_determine_positions :
    (∀ (turnID : Bytes) (position : ThreadItemPosition), turnID ≠ [] →
      turnID ≠ utf8 "prelude:header" → ¬ headerKeyPrefix <+: turnID →
      1 ≤ position.entry.toNat → position.entry.toNat ≤ 2 ^ 63 →
      parseItemKey (itemKey turnID position) = .ok (turnID, { position with sub := 0 })) ∧
    (∀ (turnID : Bytes) (position : ThreadItemPosition), position.entry = 0 →
      parseItemKey (itemKey turnID position) = .ok ([], { position with sub := 0 })) ∧
    (∀ (key turnID : Bytes) (position : ThreadItemPosition),
      parseItemKey key = .ok (turnID, position) →
      itemKey turnID position = key ∧ position.sub = 0) ∧
    (∀ (key key' turnID : Bytes) (position : ThreadItemPosition),
      parseItemKey key = .ok (turnID, position) → parseItemKey key' = .ok (turnID, position) →
      key = key') ∧
    (∀ (turnID turnID' : Bytes) (position position' : ThreadItemPosition),
      itemKey turnID position = itemKey turnID' position' →
      (turnID = turnID' ∧ position.entry = position'.entry ∧ position.item = position'.item) ∨
        (position.entry = 0 ∧ position'.entry = 0 ∧ position.item = position'.item)) := by
  refine ⟨fun turnID position hne hword hstart hlow hhigh => parse_entry hne hword hstart hlow hhigh,
    fun turnID position hzero => parse_header position hzero turnID,
    fun key turnID position h => itemKey_parse h, fun key key' turnID position h h' => ?_,
    fun turnID turnID' position position' h => itemKey_inj h⟩
  exact (itemKey_parse h).1.symm.trans (itemKey_parse h').1

/-- A turn id that itself ends like a key, and a header position. -/
theorem keys_determine_positions_colons :
    parseItemKey (itemKey (utf8 "t:1:2") { entry := 8, item := 3 }) =
        .ok (utf8 "t:1:2", { entry := 8, item := 3 }) ∧
      parseItemKey (itemKey (utf8 "t:1:2") { entry := 0, item := 3 }) =
        .ok ([], { entry := 0, item := 3 }) ∧
      itemKey [] { entry := 0, item := 3 } = itemKey (utf8 "t:1:2") { entry := 0, item := 3 } := by
  obtain ⟨hentry, hheader, hparse, _, _⟩ := keys_determine_positions
  have hback := hheader (utf8 "t:1:2") { entry := 0, item := 3 } rfl
  exact ⟨hentry (utf8 "t:1:2") { entry := 8, item := 3 } (by decide) (by decide) (by decide)
    (by decide) (by decide), hback, (hparse _ _ _ hback).1⟩

/-- The second of two notices at one place comes back as the first. -/
theorem sub_not_in_key :
    parseItemKey (itemKey (utf8 "t") { entry := 5, item := 2, sub := 1 }) =
        .ok (utf8 "t", { entry := 5, item := 2 }) ∧
      itemKey (utf8 "t") { entry := 5, item := 2, sub := 1 } =
        itemKey (utf8 "t") { entry := 5, item := 2 } :=
  ⟨rfl, rfl⟩

end Evener.TranscriptIndex
