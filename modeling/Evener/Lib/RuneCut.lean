/-
  Cutting a text in UTF-8 at a byte offset without splitting a character.

  Both cuts only ever shorten: a prefix or a suffix of the text, of at most as many bytes as were
  asked for. What is kept grows with that number (`cutText_mono`, `tailText_mono`).
-/
import Evener.Lib.Trim

namespace Evener.Lib

open List

/-- `utf8.RuneStart`. -/
def runeStart (b : UInt8) : Bool := b &&& 0xC0 != 0x80

/-- The last offset up to `n` that begins a character. -/
def cutBack (s : Bytes) : Nat → Nat
  | 0 => 0
  | n + 1 =>
    match s[n + 1]? with
    | some b => if runeStart b then n + 1 else cutBack s n
    | none => n + 1

/-- At most `n` bytes of the front. -/
def cutText (s : Bytes) (n : Nat) : Bytes := if s.length ≤ n then s else s.take (cutBack s n)

/-- Without up to `n` bytes at the front that begin no character. -/
def trimLeadingFrom : Nat → Bytes → Bytes
  | 0, l => l
  | _ + 1, [] => []
  | n + 1, b :: rest => if runeStart b then b :: rest else trimLeadingFrom n rest

def trimLeadingPartial (l : Bytes) : Bytes := trimLeadingFrom 3 l

/-- At most `n` bytes of the end. -/
def tailText (s : Bytes) (n : Nat) : Bytes := trimLeadingPartial (s.drop (s.length - n))

/-! ## The front -/

theorem cutBack_le (s : Bytes) (n : Nat) : cutBack s n ≤ n := by
  induction n with
  | zero => exact Nat.le_refl 0
  | succ n ih =>
    rw [cutBack]
    split
    · split
      · exact Nat.le_refl _
      · omega
    · exact Nat.le_refl _

theorem cutBack_mono (s : Bytes) {a b : Nat} (h : a ≤ b) : cutBack s a ≤ cutBack s b := by
  induction b with
  | zero => exact Nat.le_of_eq (by rw [Nat.le_zero.mp h])
  | succ b ih =>
    by_cases hlast : a = b + 1
    · exact Nat.le_of_eq (by rw [hlast])
    · have hrest := ih (by omega)
      have hle := cutBack_le s b
      rw [cutBack]
      split
      · split
        · omega
        · exact hrest
      · omega

theorem prefix_cutText (s : Bytes) (n : Nat) : cutText s n <+: s := by
  unfold cutText
  split
  · exact prefix_refl s
  · exact take_prefix _ s

theorem length_cutText_le (s : Bytes) (n : Nat) : (cutText s n).length ≤ n := by
  unfold cutText
  split
  · assumption
  · rw [length_take]
    exact Nat.le_trans (Nat.min_le_left _ _) (cutBack_le s n)

theorem cutText_mono (s : Bytes) {a b : Nat} (h : a ≤ b) : cutText s a <+: cutText s b := by
  refine prefix_of_prefix_length_le (prefix_cutText s a) (prefix_cutText s b) ?_
  have hmono := cutBack_mono s h
  unfold cutText
  split
  · exact Nat.le_of_eq (by rw [if_pos (by omega)])
  · split
    · exact length_take_le' _ _
    · rw [length_take, length_take]
      omega

theorem cutText_of_start {s : Bytes} {n : Nat} {b : UInt8} (h : s[n]? = some b)
    (hb : runeStart b = true) : cutText s n = s.take n := by
  obtain ⟨hn, _⟩ := List.getElem?_eq_some_iff.mp h
  have hback : cutBack s n = n := by
    cases n with
    | zero => rfl
    | succ n =>
      rw [cutBack, h]
      exact if_pos hb
  unfold cutText
  rw [if_neg (by omega), hback]

/-! ## The end -/

theorem trimLeadingFrom_suffix (n : Nat) (l : Bytes) : trimLeadingFrom n l <:+ l := by
  induction n generalizing l with
  | zero => exact suffix_refl l
  | succ n ih =>
    cases l with
    | nil => exact suffix_refl []
    | cons b rest =>
      rw [trimLeadingFrom]
      split
      · exact suffix_refl _
      · exact (ih rest).trans (suffix_cons b rest)

theorem le_length_trimLeadingFrom (n : Nat) (l : Bytes) :
    l.length ≤ (trimLeadingFrom n l).length + n := by
  induction n generalizing l with
  | zero => exact Nat.le_refl _
  | succ n ih =>
    cases l with
    | nil => exact Nat.zero_le _
    | cons b rest =>
      rw [trimLeadingFrom]
      have := ih rest
      split
      · omega
      · rw [length_cons]
        omega

theorem length_trimLeadingFrom_succ (n : Nat) (l : Bytes) :
    (trimLeadingFrom (n + 1) l).length ≤ (trimLeadingFrom n l).length := by
  induction n generalizing l with
  | zero => exact (trimLeadingFrom_suffix 1 l).length_le
  | succ n ih =>
    cases l with
    | nil => exact Nat.le_refl _
    | cons b rest =>
      rw [trimLeadingFrom, trimLeadingFrom]
      split
      · exact Nat.le_refl _
      · exact ih rest

theorem length_trimLeadingFrom_cons (n : Nat) (b : UInt8) (l : Bytes) :
    (trimLeadingFrom n l).length ≤ (trimLeadingFrom n (b :: l)).length := by
  cases n with
  | zero => exact Nat.le_succ _
  | succ n =>
    rw [trimLeadingFrom.eq_3]
    split
    · exact Nat.le_trans (trimLeadingFrom_suffix _ l).length_le (Nat.le_succ _)
    · exact length_trimLeadingFrom_succ n l

theorem tailText_suffix (s : Bytes) (n : Nat) : tailText s n <:+ s :=
  (trimLeadingFrom_suffix 3 _).trans (drop_suffix _ s)

theorem length_tailText_le (s : Bytes) (n : Nat) : (tailText s n).length ≤ n := by
  have hle := (trimLeadingFrom_suffix 3 (s.drop (s.length - n))).length_le
  rw [length_drop] at hle
  unfold tailText trimLeadingPartial
  omega

theorem le_length_tailText {s : Bytes} {n : Nat} (h : n ≤ s.length) :
    n ≤ (tailText s n).length + 3 := by
  have hle := le_length_trimLeadingFrom 3 (s.drop (s.length - n))
  rw [length_drop] at hle
  unfold tailText trimLeadingPartial
  omega

theorem tailText_of_start {s : Bytes} {n : Nat} {b : UInt8} (h : s[s.length - n]? = some b)
    (hb : runeStart b = true) : tailText s n = s.drop (s.length - n) := by
  obtain ⟨hn, hget⟩ := List.getElem?_eq_some_iff.mp h
  unfold tailText trimLeadingPartial
  rw [drop_eq_getElem_cons hn, trimLeadingFrom, hget, if_pos hb]

theorem tailText_mono {s : Bytes} {a b : Nat} (h : a ≤ b) (hb : b ≤ s.length) :
    tailText s a <:+ tailText s b := by
  refine suffix_of_suffix_length_le (tailText_suffix s a) (tailText_suffix s b) ?_
  induction b with
  | zero => exact Nat.le_of_eq (by rw [Nat.le_zero.mp h])
  | succ b ih =>
    by_cases hlast : a = b + 1
    · exact Nat.le_of_eq (by rw [hlast])
    · refine Nat.le_trans (ih (by omega) (by omega)) ?_
      unfold tailText trimLeadingPartial
      have hat : s.length - (b + 1) < s.length := by omega
      rw [drop_eq_getElem_cons hat, show s.length - (b + 1) + 1 = s.length - b by omega]
      exact length_trimLeadingFrom_cons 3 _ _

end Evener.Lib
