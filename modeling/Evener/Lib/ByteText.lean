/-
  Texts as bytes: literals, lines, and the first place of a separator.
-/
import Evener.Lib.Trim

namespace Evener.Lib

open List

/-- The bytes of a literal. -/
def utf8 (s : String) : Bytes := s.toList.flatMap String.utf8EncodeChar

/-- `strings.Split(text, "\n")`. -/
def splitBytes (text : Bytes) : List Bytes := (splitLines text).1 ++ [(splitLines text).2]

/-- `strings.SplitAfter(text, "\n")`. -/
def splitAfter (text : Bytes) : List Bytes :=
  (splitLines text).1.map (· ++ [newline]) ++ [(splitLines text).2]

/-- `strings.Join(lines, "\n")`. -/
def joinBytes (lines : List Bytes) : Bytes := [newline].intercalate lines

/-- `strings.TrimSuffix(line, "\n")`. -/
def trimNewline (line : Bytes) : Bytes := if line.getLast? = some newline then line.dropLast else line

/-- `strings.Cut`: what is in front of the first separator and what is behind it. -/
def cutBytes (sep : Bytes) : Bytes → Option (Bytes × Bytes)
  | [] => if sep = [] then some ([], []) else none
  | b :: rest =>
    if sep.isPrefixOf (b :: rest) then some ([], (b :: rest).drop sep.length)
    else (cutBytes sep rest).map fun (before, after) => (b :: before, after)

theorem cutBytes_none {c : UInt8} {sep text : Bytes} (h : c ∉ text) :
    cutBytes (c :: sep) text = none := by
  induction text with
  | nil => rfl
  | cons b rest ih =>
    rw [mem_cons, not_or] at h
    have hpre : ¬ (c :: sep).isPrefixOf (b :: rest) = true := by
      rw [ isPrefixOf_iff_prefix, cons_prefix_cons]
      exact fun hpre => h.1 hpre.1
    rw [cutBytes, if_neg hpre, ih h.2]
    rfl

theorem cutBytes_first {c : UInt8} {before after : Bytes} (h : c ∉ before) :
    cutBytes [c] (before ++ c :: after) = some (before, after) := by
  induction before with
  | nil =>
    rw [nil_append, cutBytes, if_pos (by simp)]
    rfl
  | cons b rest ih =>
    rw [mem_cons, not_or] at h
    have hpre : ¬ [c].isPrefixOf (b :: (rest ++ c :: after)) = true := by
      rw [ isPrefixOf_iff_prefix, cons_prefix_cons]
      exact fun hpre => h.1 hpre.1
    rw [cons_append, cutBytes, if_neg hpre, ih h.2]
    rfl

/-! ## Lines -/

/-- No newline in any of the lines. -/
def Unbroken (lines : List Bytes) : Prop := ∀ line ∈ lines, newline ∉ line

theorem Unbroken.append {lines lines' : List Bytes} (h : Unbroken lines) (h' : Unbroken lines') :
    Unbroken (lines ++ lines') := by
  intro line hline
  rcases mem_append.mp hline with hline | hline
  · exact h line hline
  · exact h' line hline

@[simp] theorem joinLines_append (lines lines' : List Bytes) :
    joinLines (lines ++ lines') = joinLines lines ++ joinLines lines' := by
  simp [joinLines]

@[simp] theorem joinLines_cons (line : Bytes) (lines : List Bytes) :
    joinLines (line :: lines) = line ++ newline :: joinLines lines := by
  simp [joinLines]

@[simp] theorem joinLines_nil : joinLines [] = [] := rfl

theorem joinLines_flatten (chunks : List (List Bytes)) :
    joinLines chunks.flatten = (chunks.map joinLines).flatten := by
  induction chunks with
  | nil => rfl
  | cons chunk chunks ih =>
    rw [flatten_cons, joinLines_append, ih, map_cons, flatten_cons]

theorem joinLines_ends (lines : List Bytes) :
    joinLines lines = [] ∨ ∃ rest, joinLines lines = rest ++ [newline] := by
  rcases eq_nil_or_concat lines with rfl | ⟨first, last, rfl⟩
  · exact Or.inl rfl
  · refine Or.inr ⟨joinLines first ++ last, ?_⟩
    rw [concat_eq_append, joinLines_append, joinLines_cons]
    simp [joinLines]

theorem splitLines_lines {lines : List Bytes} (h : Unbroken lines) {tail : Bytes}
    (htail : newline ∉ tail) : splitLines (joinLines lines ++ tail) = (lines, tail) := by
  have hjoin := splitLines_join h
  rw [splitLines_append (congrArg Prod.snd hjoin), hjoin, splitLines_of_not_mem htail,
    append_nil]

theorem splitBytes_lines {lines : List Bytes} (h : Unbroken lines) {tail : Bytes}
    (htail : newline ∉ tail) : splitBytes (joinLines lines ++ tail) = lines ++ [tail] := by
  unfold splitBytes
  rw [splitLines_lines h htail]

theorem splitAfter_lines {lines : List Bytes} (h : Unbroken lines) {tail : Bytes}
    (htail : newline ∉ tail) :
    splitAfter (joinLines lines ++ tail) = lines.map (· ++ [newline]) ++ [tail] := by
  unfold splitAfter
  rw [splitLines_lines h htail]

@[simp] theorem trimNewline_line (line : Bytes) : trimNewline (line ++ [newline]) = line := by
  unfold trimNewline
  rw [if_pos (by simp), dropLast_concat]

theorem joinBytes_lines {lines : List Bytes} (h : lines ≠ []) :
    joinBytes lines ++ [newline] = joinLines lines := by
  induction lines with
  | nil => exact absurd rfl h
  | cons line lines ih =>
    cases lines with
    | nil => simp [joinBytes, joinLines]
    | cons second lines =>
      have hrest := ih (cons_ne_nil _ _)
      rw [joinLines_cons, ← hrest]
      simp [joinBytes, List.intercalate]

/-! ## The lines of a text that a newline is put behind unless it has one -/

def contentLines (text : Bytes) : List Bytes :=
  (splitLines (if text.getLast? = some newline then text else text ++ [newline])).1

theorem contentLines_unbroken (text : Bytes) : Unbroken (contentLines text) :=
  newline_not_mem_line _

theorem joinLines_contentLines (text : Bytes) :
    joinLines (contentLines text) =
      if text.getLast? = some newline then text else text ++ [newline] := by
  unfold contentLines
  generalize hended : (if text.getLast? = some newline then text else text ++ [newline]) = ended
  have hlast : ended.getLast? = some newline := by
    rw [← hended]
    split
    · assumption
    · simp
  have hjoin := join_splitLines ended
  rwa [tail_of_getLast hlast, append_nil] at hjoin

theorem contentLines_ne_nil (text : Bytes) : contentLines text ≠ [] := by
  intro hnil
  have hjoin := joinLines_contentLines text
  rw [hnil] at hjoin
  split at hjoin
  · next hlast =>
    rw [← hjoin] at hlast
    exact nomatch hlast
  · exact absurd hjoin (by simp [joinLines])

theorem trimBytes_contentLines (text : Bytes) :
    trimBytes (joinBytes (contentLines text)) = trimBytes text := by
  rw [← trimBytes_newline, joinBytes_lines (contentLines_ne_nil text), joinLines_contentLines]
  split
  · rfl
  · exact trimBytes_newline text

end Evener.Lib
