/-
  Pages of a growing journal: every terminated line once, with the offset of its end.

  A cursor is where it says when its pending bytes are the tail of what it has read (`At`). A page
  goes on from there (`Advances`), whatever it stops at.
-/
import Evener.Linecap.Page
import Evener.Lib.CheckedFold

namespace Evener.Linecap

open Evener.Lib List

/-! ## Lines of a file -/

/-- Terminated lines after `start` bytes. -/
def numberLines : Nat → List Bytes → List JournalLine
  | _, [] => []
  | start, line :: lines =>
    ⟨line, true, start + line.length + 1⟩ :: numberLines (start + line.length + 1) lines

/-- The terminated lines, each with the offset of its end. -/
def endedLines (content : Bytes) : List JournalLine := numberLines 0 (splitLines content).1

theorem numberLines_append (start : Nat) (lines : List Bytes) (line : Bytes) :
    numberLines start (lines ++ [line]) =
      numberLines start lines ++ [⟨line, true, start + (joinLines lines ++ line).length + 1⟩] := by
  induction lines generalizing start with
  | nil => simp [numberLines, joinLines]
  | cons first lines ih =>
    rw [cons_append, numberLines, numberLines, ih]
    have hlength : start + first.length + 1 + (joinLines lines ++ line).length =
        start + (joinLines (first :: lines) ++ line).length := by
      simp [joinLines]
      omega
    rw [hlength]
    rfl

/-- A newline after `line` ends the line that the tail began. -/
theorem splitLines_ended (read : Bytes) {line : Bytes} (h : newline ∉ line) :
    splitLines (read ++ (line ++ [newline])) =
      ((splitLines read).1 ++ [(splitLines read).2 ++ line], []) := by
  rw [← append_assoc, splitLines_newline, splitLines_append_tail read h]

theorem endedLines_line (read : Bytes) {line : Bytes} (h : newline ∉ line) :
    endedLines (read ++ (line ++ [newline])) =
      endedLines read ++ [⟨(splitLines read).2 ++ line, true, read.length + line.length + 1⟩] := by
  unfold endedLines
  rw [splitLines_ended read h, numberLines_append, ← append_assoc, join_splitLines]
  simp

variable {more : Bytes} {n : Nat} {cursor : JournalCursor} {ctx : Context}

theorem endedLines_tail (read : Bytes) (h : newline ∉ more) :
    endedLines (read ++ more) = endedLines read := by
  unfold endedLines
  rw [splitLines_append_tail read h]

/-- No line is above the cap, nor what there is of the last one. -/
def Capped (cap : Int) (content : Bytes) : Prop :=
  (∀ line ∈ (splitLines content).1, line.length ≤ cap) ∧ (splitLines content).2.length ≤ cap

theorem firstLine_cases (input : Bytes) :
    (newline ∉ input ∧ firstLine input = input) ∨
    ∃ line rest, input = line ++ newline :: rest ∧ newline ∉ line ∧ firstLine input = line := by
  by_cases hmem : newline ∈ input
  · obtain ⟨line, rest, rfl, hline⟩ := eq_append_cons_of_mem hmem
    exact Or.inr ⟨line, rest, rfl, hline, firstLine_line hline rest⟩
  · exact Or.inl ⟨hmem, firstLine_of_not_mem hmem⟩

theorem firstLine_take (input : Bytes) (n : Nat) :
    (firstLine (input.take n)).length ≤ (firstLine input).length := by
  conv_rhs => rw [← take_append_drop n input]
  rcases firstLine_cases (input.take n) with ⟨hnot, hfirst⟩ | ⟨line, rest, hinput, hline, hfirst⟩
  · rw [hfirst, firstLine_append hnot, length_append]
    omega
  · refine Nat.le_of_eq ?_
    rw [hfirst, hinput, append_assoc, cons_append, firstLine_line hline]

/-- The line that a read begins in is under the cap as a whole. -/
theorem Capped.first {cap : Int} {read rest : Bytes} (h : Capped cap (read ++ rest)) :
    ((splitLines read).2 ++ firstLine rest).length ≤ cap := by
  rcases firstLine_cases rest with ⟨hnot, hfirst⟩ | ⟨line, more, hrest, hline, hfirst⟩
  · rw [hfirst]
    have hcap := h.2
    rwa [splitLines_append_tail read hnot] at hcap
  · rw [hfirst]
    refine h.1 _ ?_
    have hsplit : read ++ rest = (read ++ (line ++ [newline])) ++ more := by simp [hrest]
    have hended : (splitLines (read ++ (line ++ [newline]))).2 = [] := by
      rw [splitLines_ended read hline]
    rw [hsplit, splitLines_append hended, splitLines_ended read hline]
    simp

theorem Capped.of_append {cap : Int} {lines : List Bytes} {content rest : Bytes}
    (h : Capped cap content)
    (hsplit : splitLines content = (lines ++ (splitLines rest).1, (splitLines rest).2)) :
    Capped cap rest := by
  obtain ⟨hlines, htail⟩ := h
  rw [hsplit] at hlines htail
  exact ⟨fun line hline => hlines line (mem_append_right _ hline), htail⟩

theorem Capped.first_le {cap : Int} {content : Bytes} (h : Capped cap content) :
    (firstLine content).length ≤ cap := by
  have hfirst := @Capped.first _ [] _ h
  simpa [splitLines] using hfirst

/-! ## One page -/

/-- The cursor's pending bytes are the tail of what it has read. -/
structure At (content : Bytes) (cursor : JournalCursor) : Prop where
  offset : cursor.offset ≤ content.length
  pending : cursor.pending = (splitLines (content.take cursor.offset)).2

/-- The terminated lines of `lines` are those that end between the two offsets. -/
structure Advances (content : Bytes) (start : Nat) (lines : List JournalLine)
    (cursor : JournalCursor) : Prop where
  reached : At content (putBack lines cursor)
  later : start ≤ cursor.offset
  lines : endedLines (content.take cursor.offset) =
    endedLines (content.take start) ++ lines.filter (·.terminated)

theorem putBack_offset (lines : List JournalLine) (cursor : JournalCursor) :
    (putBack lines cursor).offset = cursor.offset := by
  induction lines generalizing cursor with
  | nil => rfl
  | cons line lines ih =>
    refine (ih _).trans ?_
    dsimp only
    split <;> rfl

/-- A part read from `offset` on, and what is left of the limit after it. -/
theorem take_read {content : Bytes} {offset : Nat} (h : offset ≤ content.length) {part rest : Bytes}
    (hpart : (content.drop offset).take n = part ++ rest) :
    content.take (offset + part.length) = content.take offset ++ part ∧
      offset + part.length ≤ content.length ∧
      rest = (content.drop (offset + part.length)).take (n - part.length) := by
  have hprefix : part <+: content.drop offset :=
    (prefix_append part rest).trans (hpart ▸ take_prefix _ _)
  obtain ⟨more, hmore⟩ := hprefix
  have hlength := congrArg List.length hmore
  rw [length_append, length_drop] at hlength
  refine ⟨?_, by omega, ?_⟩
  · rw [take_add, ← hmore, take_left]
  · rw [← drop_drop, ← drop_take, hpart, drop_left]

/-- What the loop of a page can come to, from a cursor at `start` and with `lines` already read. -/
inductive Pages (content : Bytes) (cap : Int) (ctx : Context) (start : Nat)
    (lines : List JournalLine) (moves : Prop) : Except PageErr PageRead → Prop where
  | canceled (hctx : ctx ≠ none) : Pages content cap ctx start lines moves (.error .canceled)
  | tooLong (hcap : ¬ Capped cap content) : Pages content cap ctx start lines moves (.error .tooLong)
  | ok (read : PageRead) (more : List JournalLine) (hlines : read.lines = lines ++ more)
      (hadvances : Advances content start more read.next) (hctx : ctx = none → read.ctx = none)
      (hmoves : moves → start < read.next.offset) :
      Pages content cap ctx start lines moves (.ok read)

section Loop

variable {content : Bytes} {byteLimit cap : Int}

theorem Advances.refl (h : At content cursor) : Advances content cursor.offset [] cursor :=
  ⟨h, Nat.le_refl _, by rw [filter_nil, append_nil]⟩

/-- A terminated line and then the rest of the page. -/
theorem Advances.after_line {start : Nat} {line : JournalLine} {more : List JournalLine}
    {next : JournalCursor} (hline : line.terminated = true) (hlater : start ≤ next.offset)
    (hended : endedLines (content.take next.offset) = endedLines (content.take start) ++ [line])
    (h : Advances content next.offset more cursor) :
    Advances content start (line :: more) cursor := by
  refine ⟨?_, Nat.le_trans hlater h.later, ?_⟩
  · have hback : putBack (line :: more) cursor = putBack more cursor := by
      unfold putBack
      rw [foldl_cons, if_pos hline]
    rw [hback]
    exact h.reached
  · rw [h.lines, hended, filter_cons_of_pos hline, append_assoc]
    rfl

/-- A line is too long for what the pending bytes leave of the cap. -/
theorem not_capped (h : At content cursor)
    (hlong : cap - cursor.pending.length < (firstLine ((content.drop cursor.offset).take n)).length) :
    ¬ Capped cap content := by
  intro hcap
  rw [← take_append_drop cursor.offset content] at hcap
  have hfirst := hcap.first
  rw [length_append, ← h.pending] at hfirst
  have := firstLine_take (content.drop cursor.offset) n
  omega

/-- Bytes without a newline go to the pending ones. -/
theorem At.tail (h : At content cursor) (hmore : (content.drop cursor.offset).take n = more)
    (hline : newline ∉ more) :
    At content ⟨cursor.offset + more.length, cursor.pending ++ more⟩ ∧
      endedLines (content.take (cursor.offset + more.length)) =
        endedLines (content.take cursor.offset) := by
  rw [← append_nil more] at hmore
  obtain ⟨htake, hbound, _⟩ := take_read h.offset hmore
  refine ⟨⟨hbound, ?_⟩, ?_⟩
  · rw [htake, splitLines_append_tail _ hline, h.pending]
  · rw [htake, endedLines_tail _ hline]

theorem At.pending_le (h : At content cursor) (hcap : Capped cap content) :
    cursor.pending.length ≤ cap := by
  rw [← take_append_drop cursor.offset content] at hcap
  have hfirst := hcap.first
  rw [length_append, ← h.pending] at hfirst
  omega

/-- A page that ends in a line goes on from there, whether it keeps the bytes or returns them. -/
theorem Advances.tail (h : At content cursor) (hmore : (content.drop cursor.offset).take n = more)
    (hline : newline ∉ more) :
    Advances content cursor.offset [] ⟨cursor.offset + more.length, cursor.pending ++ more⟩ ∧
      Advances content cursor.offset
        [⟨cursor.pending ++ more, false, cursor.offset + more.length⟩]
        ⟨cursor.offset + more.length, []⟩ := by
  obtain ⟨hat, hended⟩ := h.tail hmore hline
  have hlater : cursor.offset ≤ cursor.offset + more.length := Nat.le_add_right _ _
  have hsame := hended.trans (append_nil (endedLines (content.take cursor.offset))).symm
  exact ⟨⟨hat, hlater, hsame⟩, ⟨hat, hlater, hsame⟩⟩

/-- A newline ends the pending line, and the cursor is between two lines. -/
theorem At.line (h : At content cursor) {line rest : Bytes}
    (hinput : (content.drop cursor.offset).take n = line ++ newline :: rest)
    (hline : newline ∉ line) :
    At content ⟨cursor.offset + (line.length + 1), []⟩ ∧
      endedLines (content.take (cursor.offset + (line.length + 1))) =
        endedLines (content.take cursor.offset) ++
          [⟨cursor.pending ++ line, true, cursor.offset + (line.length + 1)⟩] ∧
      rest = (content.drop (cursor.offset + (line.length + 1))).take (n - (line.length + 1)) := by
  have hpart : (content.drop cursor.offset).take n = (line ++ [newline]) ++ rest := by
    simpa using hinput
  obtain ⟨htake, hbound, hrest⟩ := take_read h.offset hpart
  rw [length_append, length_singleton] at htake hbound hrest
  have hread : (content.take cursor.offset).length = cursor.offset := by
    rw [length_take]
    exact Nat.min_eq_left h.offset
  refine ⟨⟨hbound, ?_⟩, ?_, hrest⟩
  · rw [htake, splitLines_ended _ hline]
  · rw [htake, endedLines_line _ hline, h.pending, hread, Nat.add_assoc]

/-- What a round of the loop does with a line that no newline ends. -/
theorem pages_of_tail (h : At content cursor) (hmore : (content.drop cursor.offset).take n = more)
    (hline : newline ∉ more) {after : Context} (hctx : ctx = none → after = none)
    {lines : List JournalLine} {moves : Prop}
    (hmoves : moves → cursor.offset < cursor.offset + more.length)
    (goesOn : Except PageErr PageRead) :
    Pages content cap ctx cursor.offset lines moves
      (if cap < (cursor.pending ++ more).length then .error .tooLong
      else if ¬ (false = true) ∧ ¬ (content.length ≤ cursor.offset + more.length) then
        .ok ⟨lines, ⟨cursor.offset + more.length, cursor.pending ++ more⟩, after⟩
      else if cursor.pending ++ more ≠ [] ∨ false = true then
        if content.length ≤ cursor.offset + more.length then
          .ok ⟨lines ++ [⟨cursor.pending ++ more, false, cursor.offset + more.length⟩],
            ⟨cursor.offset + more.length, []⟩, after⟩
        else goesOn
      else .ok ⟨lines, ⟨cursor.offset + more.length, cursor.pending ++ more⟩, after⟩) := by
  obtain ⟨hkept, hback⟩ := Advances.tail h hmore hline
  by_cases hlong : cap < (cursor.pending ++ more).length
  · rw [if_pos hlong]
    refine .tooLong fun hcap => ?_
    have := (h.tail hmore hline).1.pending_le hcap
    dsimp only at this
    omega
  rw [if_neg hlong]
  by_cases hend : content.length ≤ cursor.offset + more.length
  · rw [if_neg (fun hstop => hstop.2 hend), if_pos hend]
    split
    · exact .ok _ [_] rfl hback hctx hmoves
    · exact .ok _ [] (append_nil _).symm hkept hctx hmoves
  · rw [if_pos ⟨Bool.false_ne_true, hend⟩]
    exact .ok _ [] (append_nil _).symm hkept hctx hmoves

theorem pageLines_spec (left : Nat) : ∀ (ctx : Context) (input : Bytes) (used : Nat)
    (next : JournalCursor) (lines : List JournalLine), At content next →
    input = (content.drop next.offset).take (byteLimit.toNat - used) →
    Pages content cap ctx next.offset lines
      (0 < left ∧ used < byteLimit ∧ next.offset < content.length)
      (pageLines content.length byteLimit cap left ctx input used next lines) := by
  induction left with
  | zero =>
    intro ctx input used next lines hat hinput
    exact .ok _ [] (append_nil _).symm (.refl hat) id (fun h => absurd h.1 (Nat.lt_irrefl 0))
  | succ left ih =>
    intro ctx input used next lines hat hinput
    unfold pageLines
    by_cases hused : byteLimit ≤ used
    · rw [if_pos hused]
      exact .ok _ [] (append_nil _).symm (.refl hat) id (fun h => by omega)
    rw [if_neg hused]
    generalize readLine ctx input (cap - next.pending.length) = read,
      readLine_spec ctx input (cap - next.pending.length) = hread
    cases hread with
    | canceled consumed rest after hctx => exact .canceled hctx
    | tooLong consumed rest after hlong => exact .tooLong (not_capped hat (hinput ▸ hlong))
    | eof after hctx hempty =>
      refine pages_of_tail hat (hinput.symm.trans hempty) not_mem_nil hctx ?_ _
      intro ⟨_, hbytes, hmore⟩
      have hlength := congrArg List.length (hinput.symm.trans hempty)
      rw [length_take, length_drop, length_nil] at hlength
      omega
    | tail after hctx hne hnot hcap =>
      refine pages_of_tail hat hinput.symm hnot hctx ?_ _
      intro _
      have := length_pos_iff.mpr hne
      omega
    | line line rest after hctx hline hnot hcap =>
      obtain ⟨hat', hended, hrest⟩ := hat.line (hinput.symm.trans hline) hnot
      have hlater : next.offset ≤ next.offset + (line.length + 1) := Nat.le_add_right _ _
      have hshort : ¬ cap < (next.pending ++ line).length := by
        rw [length_append]
        omega
      dsimp only
      rw [if_neg hshort, if_neg (fun hstop => hstop.1 rfl), if_pos (Or.inr rfl)]
      split
      · exact .ok _ [_] rfl (.after_line rfl hlater hended (.refl hat')) hctx (fun _ => by simp)
      · have hpage := ih after rest (used + (line.length + 1)) _
          (lines ++ [⟨next.pending ++ line, true, next.offset + (line.length + 1)⟩]) hat' ?_
        · generalize pageLines content.length byteLimit cap left after rest
            (used + (line.length + 1)) _ _ = result at hpage
          cases hpage with
          | canceled hafter => exact .canceled fun h => hafter (hctx h)
          | tooLong hcap => exact .tooLong hcap
          | ok read more hlines hadvances hafter =>
            refine .ok read (⟨next.pending ++ line, true, next.offset + (line.length + 1)⟩ :: more)
              ?_ (.after_line rfl hlater hended hadvances) (fun h => hafter (hctx h)) fun _ => ?_
            · rw [hlines, append_assoc]
              rfl
            · have hreached := hadvances.later
              dsimp only at hreached
              omega
        · rw [hrest, Nat.sub_sub]

/-- What a call with positive limits can come to. -/
theorem readJournalPage_spec {ctx : Context} {cursor : JournalCursor} {lineLimit : Int}
    (hat : At content cursor) (hbytes : 0 < byteLimit) (hlines : 0 < lineLimit) (hcap : 0 < cap) :
    match readJournalPage ctx (some content) cursor byteLimit lineLimit cap with
    | .error err => (err = .canceled ∧ ctx ≠ none) ∨ (err = .tooLong ∧ ¬ Capped cap content)
    | .ok page => Advances content cursor.offset page.lines page.cursor ∧
        (page.complete = true → page.cursor.offset = content.length) ∧
        (cursor.offset < content.length → cursor.offset < page.cursor.offset) := by
  unfold readJournalPage
  cases hcheck : ctx.check with
  | none =>
    refine Or.inl ⟨rfl, fun hnone => ?_⟩
    rw [hnone] at hcheck
    cases hcheck
  | some after =>
    have hpositive : ¬ (byteLimit ≤ 0 ∨ lineLimit ≤ 0 ∨ cap ≤ 0) := by omega
    dsimp only
    rw [if_neg hpositive]
    have hloop := @pageLines_spec content byteLimit cap lineLimit.toNat after
      ((content.drop cursor.offset).take byteLimit.toNat) 0 cursor [] hat (by rw [Nat.sub_zero])
    generalize pageLines content.length byteLimit cap lineLimit.toNat after
      ((content.drop cursor.offset).take byteLimit.toNat) 0 cursor [] = result at hloop
    cases hloop with
    | canceled hafter => exact Or.inl ⟨rfl, fun h => hafter (ctx.check_some hcheck h)⟩
    | tooLong hlong => exact Or.inr ⟨rfl, hlong⟩
    | ok read more hmore hadvances hafter hmoves =>
      rw [nil_append] at hmore
      subst hmore
      dsimp only [bind, Except.bind]
      cases hlast : read.ctx.check with
      | none =>
        refine Or.inl ⟨rfl, fun h => ?_⟩
        rw [hafter (ctx.check_some hcheck h)] at hlast
        cases hlast
      | some _ =>
        refine ⟨hadvances, fun hcomplete => ?_, fun hunread => hmoves ⟨?_, hbytes, hunread⟩⟩
        · have hend : content.length ≤ read.next.offset := (of_decide_eq_true hcomplete).1
          have hbound := hadvances.reached.offset
          rw [putBack_offset] at hbound
          exact Nat.le_antisymm hbound hend
        · omega

end Loop

/-! ## Runs of pages -/

/-- The file, the cursor and the terminated lines returned so far. A failed call changes nothing. -/
inductive Paging : Option Bytes → JournalCursor → List JournalLine → Prop where
  | start : Paging none {} []
  | append (file : Option Bytes) (cursor : JournalCursor) (read : List JournalLine) (bytes : Bytes)
      (h : Paging file cursor read) : Paging (some (file.getD [] ++ bytes)) cursor read
  | page (file : Option Bytes) (cursor : JournalCursor) (read : List JournalLine) (ctx : Context)
      (byteLimit lineLimit maxLineBytes : Int) (page : Page) (h : Paging file cursor read)
      (hpage : readJournalPage ctx file cursor byteLimit lineLimit maxLineBytes = .ok page) :
      Paging file (putBack page.lines page.cursor) (read ++ page.lines.filter (·.terminated))

theorem At.append {content : Bytes} (h : At content cursor) (bytes : Bytes) :
    At (content ++ bytes) cursor ∧
      (content ++ bytes).take cursor.offset = content.take cursor.offset := by
  have htake : (content ++ bytes).take cursor.offset = content.take cursor.offset :=
    take_append_of_le_length h.offset
  refine ⟨⟨?_, by rw [htake, h.pending]⟩, htake⟩
  have := h.offset
  rw [length_append]
  omega

theorem readJournalPage_positive {file : Option Bytes} {byteLimit lineLimit maxLineBytes : Int}
    {page : Page} (h : readJournalPage ctx file cursor byteLimit lineLimit maxLineBytes = .ok page) :
    0 < byteLimit ∧ 0 < lineLimit ∧ 0 < maxLineBytes := by
  unfold readJournalPage at h
  cases hcheck : ctx.check with
  | none =>
    rw [hcheck] at h
    cases h
  | some after =>
    rw [hcheck] at h
    dsimp only at h
    by_cases hlimits : byteLimit ≤ 0 ∨ lineLimit ≤ 0 ∨ maxLineBytes ≤ 0
    · rw [if_pos hlimits] at h
      cases h
    · omega

theorem readJournalPage_missing {byteLimit lineLimit maxLineBytes : Int} {page : Page}
    (h : readJournalPage ctx none cursor byteLimit lineLimit maxLineBytes = .ok page) :
    page = ⟨[], true, cursor⟩ := by
  obtain ⟨hbytes, hlines, hcap⟩ := readJournalPage_positive h
  have hpositive : ¬ (byteLimit ≤ 0 ∨ lineLimit ≤ 0 ∨ maxLineBytes ≤ 0) := by omega
  unfold readJournalPage at h
  cases hcheck : ctx.check with
  | none =>
    rw [hcheck] at h
    cases h
  | some after =>
    rw [hcheck] at h
    dsimp only at h
    rw [if_neg hpositive] at h
    cases h
    rfl

/-- A successful call advances, whatever the file is. -/
theorem readJournalPage_ok {ctx : Context} {file : Option Bytes} {cursor : JournalCursor}
    {byteLimit lineLimit maxLineBytes : Int} {page : Page} (hat : At (file.getD []) cursor)
    (h : readJournalPage ctx file cursor byteLimit lineLimit maxLineBytes = .ok page) :
    Advances (file.getD []) cursor.offset page.lines page.cursor ∧
      (page.complete = true → page.cursor.offset = (file.getD []).length) ∧
      (cursor.offset < (file.getD []).length → cursor.offset < page.cursor.offset) := by
  cases file with
  | none =>
    obtain rfl := readJournalPage_missing h
    have hzero : cursor.offset = 0 := Nat.le_zero.mp hat.offset
    exact ⟨.refl hat, fun _ => hzero, fun hunread => absurd hunread (Nat.not_lt_zero _)⟩
  | some content =>
    obtain ⟨hbytes, hlines, hcap⟩ := readJournalPage_positive h
    rw [Option.getD_some] at hat ⊢
    have hspec := @readJournalPage_spec _ _ _ ctx _ _ hat hbytes hlines hcap
    rwa [h] at hspec

/-- The cursor is where it says, and every line that ends before it has been returned once. -/
theorem Paging.exact {file : Option Bytes} {read : List JournalLine} (h : Paging file cursor read) :
    At (file.getD []) cursor ∧ read = endedLines ((file.getD []).take cursor.offset) := by
  induction h with
  | start => exact ⟨⟨Nat.le_refl _, rfl⟩, rfl⟩
  | append file cursor read bytes _ ih =>
    obtain ⟨hat, htake⟩ := ih.1.append bytes
    refine ⟨hat, ?_⟩
    rw [Option.getD_some, htake]
    exact ih.2
  | page file cursor read ctx byteLimit lineLimit maxLineBytes page _ hpage ih =>
    obtain ⟨hadvances, _, _⟩ := readJournalPage_ok ih.1 hpage
    refine ⟨hadvances.reached, ?_⟩
    rw [putBack_offset, hadvances.lines, ih.2]

end Evener.Linecap
