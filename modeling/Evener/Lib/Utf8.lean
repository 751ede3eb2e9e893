/-
  Characters in UTF-8 as bytes, and a text cut at any byte.

  The two trims take away just the parts of characters that a cut leaves of a valid text, and from
  any other no more than one last sequence and three first bytes.
-/
import Evener.Lib.RuneCut
import Mathlib.Data.List.Induction

namespace Evener.Lib

open List

/-- The ranges of the bytes that follow a first byte. -/
def follow (b : UInt8) : Option (List (UInt8 × UInt8)) :=
  if b < 0x80 then some []
  else if b < 0xC2 then none
  else if b ≤ 0xDF then some [(0x80, 0xBF)]
  else if b = 0xE0 then some [(0xA0, 0xBF), (0x80, 0xBF)]
  else if b = 0xED then some [(0x80, 0x9F), (0x80, 0xBF)]
  else if b ≤ 0xEF then some [(0x80, 0xBF), (0x80, 0xBF)]
  else if b = 0xF0 then some [(0x90, 0xBF), (0x80, 0xBF), (0x80, 0xBF)]
  else if b ≤ 0xF3 then some [(0x80, 0xBF), (0x80, 0xBF), (0x80, 0xBF)]
  else if b = 0xF4 then some [(0x80, 0x8F), (0x80, 0xBF), (0x80, 0xBF)]
  else none

def accepts : List (UInt8 × UInt8) → Bytes → Bool
  | [], _ => true
  | _ :: _, [] => false
  | (lo, hi) :: more, b :: rest => lo ≤ b && b ≤ hi && accepts more rest

/-- The size `utf8.DecodeRune` answers; `none` is its `RuneError` of size 1. -/
def runeSize : Bytes → Option Nat
  | [] => none
  | b :: rest =>
    match follow b with
    | none => none
    | some ranges => if accepts ranges rest then some (ranges.length + 1) else none

/-- One whole character. -/
def IsRune (r : Bytes) : Prop := runeSize r = some r.length

inductive ValidUtf8 : Bytes → Prop where
  | nil : ValidUtf8 []
  | cons {r rest : Bytes} (h : IsRune r) (hrest : ValidUtf8 rest) : ValidUtf8 (r ++ rest)

/-- A byte that may begin a character, and the bytes behind it that begin none. -/
def Sequence (s : Bytes) : Prop :=
  ∃ b rest, s = b :: rest ∧ runeStart b = true ∧ ∀ c ∈ rest, runeStart c = false

/-- The beginning of a character that is not all of it. -/
def Incomplete (part : Bytes) : Prop := part ≠ [] ∧ ∃ more, more ≠ [] ∧ IsRune (part ++ more)

/-- The index of the last byte below `n` that may begin a character. -/
def lastStart (b : Bytes) : Nat → Option Nat
  | 0 => none
  | n + 1 =>
    match b[n]? with
    | some c => if runeStart c then some n else lastStart b n
    | none => none

def trimTrailingPartial (b : Bytes) : Bytes :=
  match lastStart b b.length with
  | none => b
  | some i => if runeSize (b.drop i) = none then b.take i else b

/-! ## The ranges -/

set_option maxRecDepth 2000 in
theorem runeStart_eq_false_iff (b : UInt8) : runeStart b = false ↔ 0x80 ≤ b ∧ b ≤ 0xBF := by
  have hall : ∀ n < 256, runeStart (UInt8.ofNat n) = false ↔
      0x80 ≤ UInt8.ofNat n ∧ UInt8.ofNat n ≤ 0xBF := by decide
  have hb := hall b.toNat b.toNat_lt
  rwa [UInt8.ofNat_toNat] at hb

variable {b : UInt8} {ranges : List (UInt8 × UInt8)} {l part front : Bytes}

theorem runeStart_of_follow (h : follow b = some ranges) : runeStart b = true := by
  by_contra hstart
  obtain ⟨hlo, hhi⟩ := (runeStart_eq_false_iff b).mp (Bool.not_eq_true _ ▸ hstart)
  have hnone : follow b = none := by
    unfold follow
    rw [if_neg (UInt8.not_lt.mpr hlo), if_pos (UInt8.lt_of_le_of_lt hhi (by decide))]
  rw [hnone] at h
  exact nomatch h

theorem follow_ranges (h : follow b = some ranges) :
    ranges.length ≤ 3 ∧ ∀ r ∈ ranges, 0x80 ≤ r.1 ∧ r.2 ≤ 0xBF := by
  unfold follow at h
  split_ifs at h <;> cases h <;> simp

theorem accepts_length (h : accepts ranges l = true) : ranges.length ≤ l.length := by
  induction ranges generalizing l with
  | nil => exact Nat.zero_le _
  | cons r more ih =>
    cases l with
    | nil => exact nomatch h
    | cons b rest =>
      rw [accepts, Bool.and_eq_true] at h
      exact Nat.succ_le_succ (ih h.2)

theorem accepts_append (h : accepts ranges l = true) (more : Bytes) :
    accepts ranges (l ++ more) = true := by
  induction ranges generalizing l with
  | nil => rfl
  | cons r others ih =>
    cases l with
    | nil => exact nomatch h
    | cons b rest =>
      rw [accepts, Bool.and_eq_true] at h
      rw [cons_append, accepts, Bool.and_eq_true]
      exact ⟨h.1, ih h.2⟩

theorem accepts_tail (h : accepts ranges l = true) (hlength : ranges.length = l.length)
    (htail : ∀ r ∈ ranges, 0x80 ≤ r.1 ∧ r.2 ≤ 0xBF) : ∀ b ∈ l, runeStart b = false := by
  induction ranges generalizing l with
  | nil =>
    rw [eq_nil_of_length_eq_zero hlength.symm]
    exact forall_mem_nil _
  | cons r others ih =>
    cases l with
    | nil => exact nomatch h
    | cons b rest =>
      rw [accepts, Bool.and_eq_true, Bool.and_eq_true, decide_eq_true_eq, decide_eq_true_eq] at h
      obtain ⟨⟨hlo, hhi⟩, hrest⟩ := h
      obtain ⟨hfirst, hlast⟩ := htail r mem_cons_self
      intro c hc
      rcases mem_cons.mp hc with rfl | hc
      · exact (runeStart_eq_false_iff c).mpr ⟨UInt8.le_trans hfirst hlo, UInt8.le_trans hhi hlast⟩
      · exact ih hrest (Nat.succ.inj hlength)
          (fun r hr => htail r (mem_cons_of_mem _ hr)) c hc

/-! ## Characters -/

/-- A character is its first byte and at most three that begin none. -/
theorem IsRune.shape {r : Bytes} (h : IsRune r) :
    ∃ b rest, r = b :: rest ∧ runeStart b = true ∧ rest.length ≤ 3 ∧
      ∀ c ∈ rest, runeStart c = false := by
  unfold IsRune at h
  cases r with
  | nil => cases h
  | cons b rest =>
    rw [runeSize] at h
    split at h
    · cases h
    · next ranges hfollow =>
      split at h
      · next haccepts =>
        have hlength : ranges.length = rest.length := Nat.succ.inj (Option.some.inj h)
        obtain ⟨hfew, htail⟩ := follow_ranges hfollow
        exact ⟨b, rest, rfl, runeStart_of_follow hfollow, by omega,
          accepts_tail haccepts hlength htail⟩
      · cases h

theorem isRune_ascii (h : b < 0x80) : IsRune [b] := by
  have hfollow : follow b = some [] := if_pos h
  unfold IsRune
  rw [runeSize, hfollow]
  rfl

/-- The beginning of a character does not decode. -/
theorem Incomplete.runeSize_eq_none (h : Incomplete part) : runeSize part = none := by
  obtain ⟨hne, more, hmore, hrune⟩ := h
  unfold IsRune at hrune
  cases part with
  | nil => exact absurd rfl hne
  | cons b rest =>
    rw [cons_append, runeSize] at hrune
    rw [runeSize]
    cases hfollow : follow b with
    | none => rfl
    | some ranges =>
      rw [hfollow] at hrune
      dsimp only at hrune ⊢
      refine if_neg fun haccepts => hmore ?_
      rw [if_pos (accepts_append haccepts more)] at hrune
      have hwhole := Option.some.inj hrune
      have hlength := accepts_length haccepts
      rw [length_cons, length_append] at hwhole
      exact eq_nil_of_length_eq_zero (by omega)

theorem IsRune.sequence {r : Bytes} (h : IsRune r) : Sequence r := by
  obtain ⟨b, rest, heq, hstart, _, htail⟩ := h.shape
  exact ⟨b, rest, heq, hstart, htail⟩

theorem Incomplete.sequence (h : Incomplete part) : Sequence part := by
  obtain ⟨hne, more, _, hrune⟩ := h
  obtain ⟨b, rest, hshape, hstart, _, htail⟩ := hrune.shape
  cases part with
  | nil => exact absurd rfl hne
  | cons a front =>
    rw [cons_append] at hshape
    obtain ⟨rfl, rfl⟩ := List.cons.inj hshape
    exact ⟨a, front, rfl, hstart, fun c hc => htail c (mem_append_left _ hc)⟩

/-! ## Texts -/

theorem validUtf8_ascii (h : ∀ b ∈ l, b < 0x80) : ValidUtf8 l := by
  induction l with
  | nil => exact .nil
  | cons b rest ih =>
    exact .cons (isRune_ascii (h b mem_cons_self))
      (ih fun c hc => h c (mem_cons_of_mem _ hc))

theorem ValidUtf8.append {more : Bytes} (h : ValidUtf8 l) (hmore : ValidUtf8 more) :
    ValidUtf8 (l ++ more) := by
  induction h with
  | nil => exact hmore
  | cons hrune _ ih =>
    rw [append_assoc]
    exact .cons hrune ih

theorem ValidUtf8.head (h : ValidUtf8 l) : ∀ b ∈ l.head?, runeStart b = true := by
  cases h with
  | nil => exact fun b hb => nomatch hb
  | cons hrune _ =>
    obtain ⟨a, rest, rfl, hstart, _⟩ := hrune.shape
    intro b hb
    cases hb
    exact hstart

theorem ValidUtf8.last (h : ValidUtf8 l) : l = [] ∨ ∃ front r, l = front ++ r ∧ IsRune r := by
  induction h with
  | nil => exact .inl rfl
  | @cons r rest hrune _ ih =>
    rcases ih with rfl | ⟨front, last, rfl, hlast⟩
    · exact .inr ⟨[], r, append_nil r, hrune⟩
    · exact .inr ⟨r ++ front, last, (append_assoc ..).symm, hlast⟩

theorem ValidUtf8.take (h : ValidUtf8 l) (n : Nat) :
    ∃ front part, l.take n = front ++ part ∧ ValidUtf8 front ∧ (part = [] ∨ Incomplete part) := by
  induction h generalizing n with
  | nil => exact ⟨[], [], take_nil, .nil, .inl rfl⟩
  | @cons r rest hrune hrest ih =>
    by_cases hshort : n < r.length
    · rw [take_append_of_le_length (Nat.le_of_lt hshort)]
      refine ⟨[], r.take n, rfl, .nil, ?_⟩
      by_cases hnone : r.take n = []
      · exact .inl hnone
      · have hmore : r.drop n ≠ [] := by
          rw [Ne, drop_eq_nil_iff]
          omega
        refine .inr ⟨hnone, r.drop n, hmore, ?_⟩
        rwa [take_append_drop]
    · obtain ⟨front, part, heq, hfront, hpart⟩ := ih (n - r.length)
      refine ⟨r ++ front, part, ?_, .cons hrune hfront, hpart⟩
      rw [take_append, take_of_length_le (by omega), heq, append_assoc]

theorem ValidUtf8.drop (h : ValidUtf8 l) (n : Nat) :
    ∃ orphans back, l.drop n = orphans ++ back ∧ orphans.length ≤ 3 ∧
      (∀ b ∈ orphans, runeStart b = false) ∧ ValidUtf8 back := by
  induction h generalizing n with
  | nil => exact ⟨[], [], drop_nil, by decide, forall_mem_nil _, .nil⟩
  | @cons r rest hrune hrest ih =>
    by_cases hshort : n < r.length
    · obtain ⟨b, tail, rfl, _, hfew, htail⟩ := hrune.shape
      rw [drop_append_of_le_length (Nat.le_of_lt hshort)]
      cases n with
      | zero =>
        exact ⟨[], b :: tail ++ rest, rfl, by decide, forall_mem_nil _, .cons hrune hrest⟩
      | succ n =>
        refine ⟨tail.drop n, rest, rfl, ?_, fun c hc => htail c (mem_of_mem_drop hc), hrest⟩
        rw [length_drop]
        omega
    · rw [drop_append, drop_of_length_le (by omega), nil_append]
      exact ih (n - r.length)

/-! ## The end of a front -/

theorem lastStart_append {n : Nat} (h : n ≤ l.length) (more : Bytes) :
    lastStart (l ++ more) n = lastStart l n := by
  induction n with
  | zero => rfl
  | succ n ih =>
    rw [lastStart, lastStart, getElem?_append_left h, ih (Nat.le_of_succ_le h)]

theorem lastStart_concat (l : Bytes) (c : UInt8) :
    lastStart (l ++ [c]) (l ++ [c]).length =
      if runeStart c then some l.length else lastStart l l.length := by
  rw [length_append, length_singleton, lastStart, getElem?_concat_length,
    lastStart_append (Nat.le_refl _)]

theorem lastStart_eq_none (h : ∀ c ∈ l, runeStart c = false) : lastStart l l.length = none := by
  induction l using List.reverseRecOn with
  | nil => rfl
  | append_singleton l c ih =>
    rw [lastStart_concat, h c mem_concat_self, ih fun d hd => h d (mem_append_left _ hd)]
    rfl

theorem lastStart_sequence {s : Bytes} (h : Sequence s) :
    lastStart (front ++ s) (front ++ s).length = some front.length := by
  obtain ⟨b, rest, rfl, hstart, htail⟩ := h
  induction rest using List.reverseRecOn with
  | nil => rw [lastStart_concat, if_pos hstart]
  | append_singleton rest c ih =>
    have hc := htail c mem_concat_self
    rw [show front ++ b :: (rest ++ [c]) = (front ++ b :: rest) ++ [c] by simp, lastStart_concat,
      hc]
    exact ih fun d hd => htail d (mem_append_left _ hd)

theorem sequence_or_none (l : Bytes) :
    (∀ c ∈ l, runeStart c = false) ∨ ∃ front s, l = front ++ s ∧ Sequence s := by
  induction l using List.reverseRecOn with
  | nil => exact .inl (forall_mem_nil _)
  | append_singleton l c ih =>
    cases hc : runeStart c with
    | true => exact .inr ⟨l, [c], rfl, c, [], rfl, hc, forall_mem_nil _⟩
    | false =>
      rcases ih with hnone | ⟨front, s, rfl, b, rest, rfl, hstart, htail⟩
      · refine .inl fun d hd => ?_
        rcases mem_append.mp hd with hd | hd
        · exact hnone d hd
        · rwa [mem_singleton.mp hd]
      · refine .inr ⟨front, b :: (rest ++ [c]), by simp, b, rest ++ [c], rfl, hstart, ?_⟩
        intro d hd
        rcases mem_append.mp hd with hd | hd
        · exact htail d hd
        · rwa [mem_singleton.mp hd]

theorem trimTrailingPartial_sequence {s : Bytes} (h : Sequence s) :
    trimTrailingPartial (front ++ s) = if runeSize s = none then front else front ++ s := by
  unfold trimTrailingPartial
  rw [lastStart_sequence h]
  dsimp only
  rw [drop_left, take_left]

/-- All that goes is the last sequence, when it does not decode. -/
theorem trimTrailingPartial_lost (l : Bytes) :
    ∃ lost, l = trimTrailingPartial l ++ lost ∧
      (lost = [] ∨ Sequence lost ∧ runeSize lost = none) := by
  rcases sequence_or_none l with hnone | ⟨front, s, rfl, hs⟩
  · refine ⟨[], ?_, .inl rfl⟩
    unfold trimTrailingPartial
    rw [lastStart_eq_none hnone, append_nil]
  · rw [trimTrailingPartial_sequence hs]
    split
    · next hsize => exact ⟨s, rfl, .inr ⟨hs, hsize⟩⟩
    · exact ⟨[], (append_nil _).symm, .inl rfl⟩

theorem trimTrailingPartial_valid (h : ValidUtf8 front) (hpart : part = [] ∨ Incomplete part) :
    trimTrailingPartial (front ++ part) = front := by
  rcases hpart with rfl | hpart
  · rw [append_nil]
    rcases h.last with rfl | ⟨before, r, rfl, hr⟩
    · rfl
    · have hsize : runeSize r ≠ none := by
        rw [hr]
        exact Option.some_ne_none _
      rw [trimTrailingPartial_sequence hr.sequence, if_neg hsize]
  · rw [trimTrailingPartial_sequence hpart.sequence, if_pos hpart.runeSize_eq_none]

/-! ## The beginning of a back -/

theorem trimLeadingFrom_lost (n : Nat) (l : Bytes) :
    ∃ orphans, l = orphans ++ trimLeadingFrom n l ∧ orphans.length ≤ n ∧
      ∀ c ∈ orphans, runeStart c = false := by
  induction n generalizing l with
  | zero => exact ⟨[], rfl, Nat.le_refl 0, forall_mem_nil _⟩
  | succ n ih =>
    cases l with
    | nil => exact ⟨[], rfl, Nat.zero_le _, forall_mem_nil _⟩
    | cons b rest =>
      rw [trimLeadingFrom]
      split
      · exact ⟨[], rfl, Nat.zero_le _, forall_mem_nil _⟩
      · next hb =>
        obtain ⟨orphans, heq, hfew, htail⟩ := ih rest
        refine ⟨b :: orphans, by rw [cons_append, ← heq], Nat.succ_le_succ hfew, ?_⟩
        exact forall_mem_cons.mpr ⟨Bool.eq_false_iff.mpr hb, htail⟩

theorem trimLeadingFrom_orphans {n : Nat} {orphans back : Bytes} (hfew : orphans.length ≤ n)
    (htail : ∀ c ∈ orphans, runeStart c = false) (hback : ∀ b ∈ back.head?, runeStart b = true) :
    trimLeadingFrom n (orphans ++ back) = back := by
  induction orphans generalizing n with
  | nil =>
    cases n with
    | zero => rfl
    | succ n =>
      cases back with
      | nil => rfl
      | cons b rest => exact if_pos (hback b rfl)
  | cons c orphans ih =>
    obtain ⟨hc, htail⟩ := forall_mem_cons.mp htail
    cases n with
    | zero => exact absurd hfew (Nat.not_succ_le_zero _)
    | succ n =>
      rw [cons_append, trimLeadingFrom, hc]
      exact ih (Nat.le_of_succ_le_succ hfew) htail

end Evener.Lib
