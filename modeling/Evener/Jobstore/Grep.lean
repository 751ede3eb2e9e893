/-
  Searching the retained output line by line through a buffered reader.

  A regexp is a predicate on the bytes of a line. The callers refuse a negative budget, so it is a
  natural number.
-/
import Evener.Lib.Fragments

namespace Evener.Jobstore.Grep

open Evener.Lib List

def carriageReturn : UInt8 := 13

structure Match where
  byteOffset : Nat
  line : Bytes
deriving DecidableEq

/-! ## The search -/

def logicalLineContentLen (line frag : Bytes) : Nat :=
  if frag = [] then line.length + frag.length
  else if frag.getLast? ≠ some newline then
    if frag.getLast? = some carriageReturn then line.length + frag.length - 1
    else line.length + frag.length
  else if frag.length > 1 ∧ frag.dropLast.getLast? = some carriageReturn then
    line.length + frag.length - 1 - 1
  else if frag.length = 1 ∧ line.getLast? = some carriageReturn then
    line.length + frag.length - 1 - 1
  else line.length + frag.length - 1

/-- The line without its newline and a carriage return before it. -/
def contentOf (raw : Bytes) : Bytes :=
  if raw.getLast? = some newline then
    if raw.dropLast.getLast? = some carriageReturn then raw.dropLast.dropLast else raw.dropLast
  else raw

/-- The matches, what is left of the budget, and whether the search is over. -/
def appendGrepLine (re : Bytes → Bool) (maxMatches : Int) (found : List Match) (offset : Nat)
    (raw : Bytes) (budget : Nat) (overlong : Bool) : List Match × Nat × Bool :=
  if overlong then (found, budget, false)
  else if !re (contentOf raw) then (found, budget, false)
  else if (contentOf raw).length > budget then (found, budget, true)
  else
    let found := found ++ [⟨offset, contentOf raw⟩]
    if maxMatches > 0 ∧ (found.length : Int) ≥ maxMatches then (found, budget, true)
    else (found, budget - (contentOf raw).length, budget - (contentOf raw).length = 0)

structure GrepState where
  found : List Match := []
  offset : Nat := 0
  lineAt : Nat := 0
  budget : Nat
  line : Bytes := []
  overlong : Bool := false

def GrepState.take (s : GrepState) (maxLineBytes : Nat) (frag : Bytes) : GrepState :=
  let s :=
    if s.overlong then s
    else if logicalLineContentLen s.line frag > maxLineBytes then
      { s with overlong := true, line := [] }
    else { s with line := s.line ++ frag }
  { s with offset := s.offset + frag.length }

/-- Behind a line, with the matches and the budget it left. -/
def GrepState.next (s : GrepState) (found : List Match) (budget : Nat) : GrepState :=
  { s with found, budget, lineAt := s.offset, line := [], overlong := false }

/-- The loop, over the answers of the reader; `none` when a read fails. -/
def grepLoop (re : Bytes → Bool) (maxMatches : Int) (maxLineBytes : Nat) :
    GrepState → List Answer → Option (List Match)
  | _, [] => none
  | s, a :: answers =>
    let s := if a.frag ≠ [] then s.take maxLineBytes a.frag else s
    let ended := appendGrepLine re maxMatches s.found s.lineAt s.line s.budget s.overlong
    if a.frag.getLast? = some newline ∧ ended.2.2 then some ended.1
    else
      let s := if a.frag.getLast? = some newline then s.next ended.1 ended.2.1 else s
      match a.stop with
      | .delimiter => grepLoop re maxMatches maxLineBytes s answers
      | .bufferFull => grepLoop re maxMatches maxLineBytes s answers
      | .failed => none
      | .eof =>
        if s.line ≠ [] ∨ s.overlong then
          let overlong := s.overlong || s.line.length > maxLineBytes
          some (appendGrepLine re maxMatches s.found s.lineAt s.line s.budget overlong).1
        else some s.found

def lineLimit (limitBytes : Nat) (maxLineBytes : Int) : Nat :=
  if maxLineBytes ≤ 0 ∨ maxLineBytes > limitBytes then limitBytes else maxLineBytes.toNat

def grepReaderLimit (answers : List Answer) (re : Bytes → Bool) (limitBytes : Nat)
    (maxMatches maxLineBytes : Int) : Option (List Match) :=
  grepLoop re maxMatches (lineLimit limitBytes maxLineBytes) { budget := limitBytes } answers

/-! ## The lines of the stream -/

/-- The contents of the lines, each with the offset of its line. -/
def locatedLines : Nat → List Bytes → List Match
  | _, [] => []
  | offset, raw :: raws => ⟨offset, contentOf raw⟩ :: locatedLines (offset + raw.length) raws

/-- The matches that are taken before the budget or the count is exhausted. -/
def takeMatches (maxMatches : Int) : Nat → Nat → List Match → List Match
  | _, _, [] => []
  | budget, count, m :: rest =>
    if m.line.length > budget then []
    else if maxMatches > 0 ∧ (count + 1 : Int) ≥ maxMatches then [m]
    else if budget - m.line.length = 0 then [m]
    else m :: takeMatches maxMatches (budget - m.line.length) (count + 1) rest

theorem takeMatches_cons (maxMatches : Int) (budget count : Nat) (m : Match) (rest : List Match) :
    takeMatches maxMatches budget count (m :: rest) =
      if m.line.length > budget then []
      else if maxMatches > 0 ∧ (count + 1 : Int) ≥ maxMatches then [m]
      else if budget - m.line.length = 0 then [m]
      else m :: takeMatches maxMatches (budget - m.line.length) (count + 1) rest := rfl

/-- The lines that are short enough and match. -/
def matchingLines (re : Bytes → Bool) (maxLineBytes offset : Nat) (stream : Bytes) : List Match :=
  (locatedLines offset (rawLines stream)).filter fun m =>
    m.line.length ≤ maxLineBytes && re m.line

/-! ## One line -/

/-- No line that begins so has less content. -/
def leastContent (p : Bytes) : Nat :=
  if p.getLast? = some carriageReturn then p.length - 1 else p.length

/-- The state holds the beginning of a line, or knows that the line is too long. -/
structure GrepState.Holds (maxLineBytes : Nat) (p : Bytes) (s : GrepState) : Prop where
  offset : s.offset = s.lineAt + p.length
  line : s.line = if s.overlong then [] else p
  overlong : s.overlong = true ↔ maxLineBytes < leastContent p

theorem leastContent_le (p : Bytes) : leastContent p ≤ p.length := by
  unfold leastContent
  split
  · exact Nat.sub_le _ _
  · exact Nat.le_refl _

theorem length_le_leastContent (p : Bytes) : p.length - 1 ≤ leastContent p := by
  unfold leastContent
  split
  · exact Nat.le_refl _
  · exact Nat.sub_le _ _

theorem leastContent_append (p frag : Bytes) : leastContent p ≤ leastContent (p ++ frag) := by
  by_cases hfrag : frag = []
  · exact Nat.le_of_eq (by rw [hfrag, append_nil])
  · have hp := leastContent_le p
    have happend := length_le_leastContent (p ++ frag)
    have hpos := length_pos_of_ne_nil hfrag
    rw [length_append] at happend
    omega

theorem contentOf_line (q : Bytes) : (contentOf (q ++ [newline])).length = leastContent q := by
  unfold contentOf leastContent
  rw [getLast?_concat, if_pos rfl, dropLast_concat]
  split
  · exact length_dropLast
  · rfl

variable {frag p : Bytes} {s : GrepState}

theorem getLast?_ne_newline (h : newline ∉ frag) : frag.getLast? ≠ some newline :=
  fun hlast => h (mem_of_getLast? hlast)

theorem contentLen_part (p : Bytes) (hne : frag ≠ []) (h : newline ∉ frag) :
    logicalLineContentLen p frag = leastContent (p ++ frag) := by
  unfold logicalLineContentLen leastContent
  rw [if_neg hne, if_pos (getLast?_ne_newline h), getLast?_append_of_ne_nil p hne,
    length_append]

theorem contentLen_line (p payload : Bytes) :
    logicalLineContentLen p (payload ++ [newline]) = leastContent (p ++ payload) := by
  unfold logicalLineContentLen leastContent
  rw [if_neg (by simp), if_neg (by simp), dropLast_concat, length_append,
    length_append, length_singleton]
  by_cases hpayload : payload = []
  · subst hpayload
    rw [append_nil]
    simp
  · have hpos := length_pos_of_ne_nil hpayload
    rw [getLast?_append_of_ne_nil p hpayload]
    by_cases hcr : payload.getLast? = some carriageReturn
    · rw [if_pos ⟨by omega, hcr⟩, if_pos hcr]
      omega
    · rw [if_neg fun h => hcr h.2, if_neg fun h => by omega, if_neg hcr]
      omega

/-- Taking a fragment, when the line can only have grown. -/
theorem take_spec {maxLineBytes : Nat} (h : s.Holds maxLineBytes p)
    (hle : leastContent p ≤ logicalLineContentLen p frag) :
    (s.take maxLineBytes frag).offset = s.lineAt + (p ++ frag).length ∧
      (s.take maxLineBytes frag).line =
        (if (s.take maxLineBytes frag).overlong then [] else p ++ frag) ∧
      ((s.take maxLineBytes frag).overlong = true ↔
        maxLineBytes < logicalLineContentLen p frag) := by
  obtain ⟨hoffset, hline, hoverlong⟩ := h
  unfold GrepState.take
  rw [length_append, ← Nat.add_assoc, ← hoffset]
  cases hs : s.overlong with
  | true =>
    rw [hs] at hline hoverlong
    refine ⟨by simp, by simpa [hs] using hline, ?_⟩
    simpa [hs] using Nat.lt_of_lt_of_le (hoverlong.mp rfl) hle
  | false =>
    have hline : s.line = p := by simpa [hs] using hline
    rw [hline]
    by_cases hlong : logicalLineContentLen p frag > maxLineBytes
    · simp [hlong]
    · simp [hlong]

theorem take_kept (s : GrepState) (maxLineBytes : Nat) (frag : Bytes) :
    (s.take maxLineBytes frag).found = s.found ∧ (s.take maxLineBytes frag).lineAt = s.lineAt ∧
      (s.take maxLineBytes frag).budget = s.budget := by
  unfold GrepState.take
  split
  · exact ⟨rfl, rfl, rfl⟩
  · split
    · exact ⟨rfl, rfl, rfl⟩
    · exact ⟨rfl, rfl, rfl⟩

/-- A further part of a line. -/
theorem Holds.take {maxLineBytes : Nat} (h : s.Holds maxLineBytes p) (hne : frag ≠ [])
    (hfrag : newline ∉ frag) : (s.take maxLineBytes frag).Holds maxLineBytes (p ++ frag) := by
  have hlen := contentLen_part p hne hfrag
  obtain ⟨hoffset, hline, hoverlong⟩ := take_spec h (hlen ▸ leastContent_append p frag)
  exact ⟨by rw [hoffset, (take_kept s maxLineBytes frag).2.1], hline, hlen ▸ hoverlong⟩

/-! ## The whole stream -/

section Loop

variable (re : Bytes → Bool) (maxMatches : Int) (maxLineBytes : Nat)

/-- A finished line is taken as the line of the stream is. -/
theorem append_spec {overlong : Bool} {raw : Bytes}
    (hoverlong : overlong = true ↔ maxLineBytes < (contentOf raw).length) (found : List Match)
    (offset budget : Nat) (line : Bytes) (hline : overlong = false → line = raw)
    (rest : List Match) :
    found ++ takeMatches maxMatches budget found.length
        ((⟨offset, contentOf raw⟩ :: rest).filter fun m =>
          m.line.length ≤ maxLineBytes && re m.line) =
      if (appendGrepLine re maxMatches found offset line budget overlong).2.2 then
        (appendGrepLine re maxMatches found offset line budget overlong).1
      else
        (appendGrepLine re maxMatches found offset line budget overlong).1 ++
          takeMatches maxMatches (appendGrepLine re maxMatches found offset line budget overlong).2.1
            (appendGrepLine re maxMatches found offset line budget overlong).1.length
            (rest.filter fun m => m.line.length ≤ maxLineBytes && re m.line) := by
  cases overlong with
  | true =>
    have hlong : ¬(contentOf raw).length ≤ maxLineBytes := Nat.not_le.mpr (hoverlong.mp rfl)
    rw [filter_cons_of_neg (by simp [hlong])]
    simp [appendGrepLine]
  | false =>
    rw [hline rfl]
    have hshort : (contentOf raw).length ≤ maxLineBytes := by
      by_contra hlong
      exact Bool.noConfusion (hoverlong.mpr (Nat.not_le.mp hlong))
    cases hre : re (contentOf raw) with
    | false =>
      rw [filter_cons_of_neg (by simp [hre])]
      simp [appendGrepLine, hre]
    | true =>
      rw [filter_cons_of_pos (by simp [hre, hshort])]
      rw [takeMatches_cons]
      unfold appendGrepLine
      by_cases hbudget : (contentOf raw).length > budget
      · simp [hre, hbudget]
      · by_cases hcount : maxMatches > 0 ∧ (found.length + 1 : Int) ≥ maxMatches
        · simp [hre, hbudget, hcount]
        · by_cases hspent : budget - (contentOf raw).length = 0
          · simp [hre, hbudget, hcount, hspent]
          · simp [hre, hbudget, hcount, hspent]

theorem matchingLines_cons {line : Bytes} (h : newline ∉ line) (offset : Nat) (rest : Bytes) :
    matchingLines re maxLineBytes offset (line ++ newline :: rest) =
      (⟨offset, contentOf (line ++ [newline])⟩ ::
        locatedLines (offset + (line ++ [newline]).length) (rawLines rest)).filter fun m =>
          m.line.length ≤ maxLineBytes && re m.line := by
  unfold matchingLines
  rw [rawLines_cons h]
  rfl

/-- A last line without a newline. -/
theorem last_spec (hp : newline ∉ p) (hs : s.Holds maxLineBytes p) :
    (if s.line ≠ [] ∨ s.overlong = true then
      some (appendGrepLine re maxMatches s.found s.lineAt s.line s.budget
        (s.overlong || s.line.length > maxLineBytes)).1
    else some s.found) =
      some (s.found ++ takeMatches maxMatches s.budget s.found.length
        (matchingLines re maxLineBytes s.lineAt p)) := by
  have hcontent : contentOf p = p := if_neg (getLast?_ne_newline hp)
  obtain ⟨_, hline, hoverlong⟩ := hs
  have hlong : (s.overlong || decide (s.line.length > maxLineBytes)) = true ↔
      maxLineBytes < (contentOf p).length := by
    rw [hcontent]
    cases hs : s.overlong with
    | true => simpa using Nat.lt_of_lt_of_le (hoverlong.mp hs) (leastContent_le p)
    | false =>
      rw [hs] at hline
      simp [hline]
  have hheld : (s.overlong || decide (s.line.length > maxLineBytes)) = false → s.line = p := by
    intro hshort
    rw [hline, (Bool.or_eq_false_iff.mp hshort).1]
    rfl
  have htaken := append_spec re maxMatches maxLineBytes hlong s.found s.lineAt s.budget s.line
    hheld []
  unfold matchingLines
  rw [rawLines_tail hp]
  by_cases hnil : p = []
  · subst hnil
    have hshort : s.overlong = false := by
      rw [Bool.eq_false_iff]
      intro hbad
      exact absurd (hoverlong.mp hbad) (Nat.not_lt_zero _)
    simp [hline, hshort, locatedLines, takeMatches]
  · have hsome : s.line ≠ [] ∨ s.overlong = true := by
      cases hs : s.overlong with
      | true => exact .inr rfl
      | false =>
        rw [hline, hs]
        exact .inl hnil
    rw [if_pos hsome, if_neg hnil]
    refine congrArg some ?_
    have hone : locatedLines s.lineAt [p] = [⟨s.lineAt, contentOf p⟩] := rfl
    rw [hone, htaken]
    split
    · rfl
    · exact (append_nil _).symm

theorem grepLoop_spec {stream : Bytes} {answers : List Answer} (h : Fragmented stream answers)
    (hp : newline ∉ p) (hs : s.Holds maxLineBytes p) :
    grepLoop re maxMatches maxLineBytes s answers =
      some (s.found ++ takeMatches maxMatches s.budget s.found.length
        (matchingLines re maxLineBytes s.lineAt (p ++ stream))) := by
  induction h generalizing p s with
  | @line payload rest answers hline _ ih =>
    have hraw : newline ∉ p ++ payload := by simp [hp, hline]
    have hlen : logicalLineContentLen p (payload ++ [newline]) =
        (contentOf (p ++ payload ++ [newline])).length :=
      (contentLen_line p payload).trans (contentOf_line _).symm
    obtain ⟨hoffset, hheld, hoverlong⟩ := take_spec hs
      ((contentLen_line p payload).symm ▸ leastContent_append p payload)
    obtain ⟨hfound, hlineAt, hbudget⟩ := take_kept s maxLineBytes (payload ++ [newline])
    unfold grepLoop
    rw [if_pos (by simp : payload ++ [newline] ≠ [])]
    simp only [getLast?_concat, true_and, if_true]
    generalize s.take maxLineBytes (payload ++ [newline]) = taken at *
    rw [hlen] at hoverlong
    have hheld' : taken.overlong = false → taken.line = p ++ payload ++ [newline] := by
      intro hshort
      rw [hheld, hshort, append_assoc]
      rfl
    have hline := append_spec re maxMatches maxLineBytes hoverlong taken.found taken.lineAt
      taken.budget taken.line hheld'
      (locatedLines (taken.lineAt + (p ++ payload ++ [newline]).length) (rawLines rest))
    rw [← append_assoc, matchingLines_cons re maxLineBytes hraw, ← hfound, ← hbudget,
      ← hlineAt, hline]
    split
    · rfl
    · have hbegun (found : List Match) (budget : Nat) :
          GrepState.Holds maxLineBytes [] (taken.next found budget) :=
        ⟨rfl, rfl, ⟨fun h => Bool.noConfusion h, fun h => absurd h (Nat.not_lt_zero _)⟩⟩
      rw [ih not_mem_nil (hbegun _ _)]
      unfold GrepState.next
      rw [hoffset, hlineAt, ← append_assoc]
      rfl
  | @full payload rest answers hline _ ih =>
    unfold grepLoop
    have hnewline := getLast?_ne_newline hline
    by_cases hne : payload = []
    · subst hne
      simpa using ih hp hs
    · obtain ⟨hfound, hlineAt, hbudget⟩ := take_kept s maxLineBytes payload
      have hrest := ih (by simp [hp, hline]) (Holds.take hs hne hline)
      rw [hfound, hlineAt, hbudget, append_assoc] at hrest
      simpa [hne, hnewline] using hrest
  | @eof payload hline =>
    unfold grepLoop
    have hnewline := getLast?_ne_newline hline
    by_cases hne : payload = []
    · subst hne
      simpa using last_spec re maxMatches maxLineBytes hp hs
    · obtain ⟨hfound, hlineAt, hbudget⟩ := take_kept s maxLineBytes payload
      have hrest := last_spec re maxMatches maxLineBytes (by simp [hp, hline]) (Holds.take hs hne hline)
      rw [hfound, hlineAt, hbudget] at hrest
      simpa [hne, hnewline, hfound, hlineAt, hbudget] using hrest

end Loop

/-- The search finds the matching lines of the stream, however the reader cuts it. -/
theorem grep_lines {stream : Bytes} {answers : List Answer} (h : Fragmented stream answers)
    (re : Bytes → Bool) (limitBytes : Nat) (maxMatches maxLineBytes : Int) :
    grepReaderLimit answers re limitBytes maxMatches maxLineBytes =
      some (takeMatches maxMatches limitBytes 0
        (matchingLines re (lineLimit limitBytes maxLineBytes) 0 stream)) :=
  grepLoop_spec re maxMatches _ h not_mem_nil
    ⟨rfl, rfl, ⟨fun h => Bool.noConfusion h, fun h => absurd h (Nat.not_lt_zero _)⟩⟩

/-- The carriage return ends one fragment and the newline is the next one. -/
theorem grep_lines_cut :
    grepReaderLimit [⟨[97, 13], .bufferFull⟩, ⟨[10], .delimiter⟩, ⟨[], .eof⟩] (fun _ => true) 8 0 1 =
      some (takeMatches 0 8 0 (matchingLines (fun _ => true) (lineLimit 8 1) 0 [97, 13, 10])) :=
  grep_lines (.full (by decide) (@Fragmented.line [] [] _ (by decide) (.eof (by decide)))) _ 8 0 1

end Evener.Jobstore.Grep
