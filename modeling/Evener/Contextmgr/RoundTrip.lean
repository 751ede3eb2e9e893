/-
  What is rendered is read back, whatever texts it quotes.

  Behind plain lines and whole fenced blocks (`Balanced`) the tracker is at the top level again.
-/
import Evener.Contextmgr.CheckpointFormat

namespace Evener.Contextmgr

open Evener.Lib FenceTracker List

/-! ## Balanced lines -/

/-- Plain lines that are `ok`, and whole blocks. -/
inductive Balanced (ok : Bytes → Prop) : List Bytes → Prop where
  | nil : Balanced ok []
  | line {line : Bytes} {rest : List Bytes} (plain : Plain line) (fits : ok line)
      (balanced : Balanced ok rest) : Balanced ok (line :: rest)
  | block (text : Bytes) {rest : List Bytes} (balanced : Balanced ok rest) :
      Balanced ok (fencedLines text ++ rest)

variable {lines : List Bytes} {r : BlockReader} {line : Bytes}

theorem Balanced.append {ok : Bytes → Prop} {lines' : List Bytes} (h : Balanced ok lines)
    (h' : Balanced ok lines') : Balanced ok (lines ++ lines') := by
  induction h with
  | nil => exact h'
  | line plain hok _ ih => exact .line plain hok ih
  | block text _ ih =>
    rw [append_assoc]
    exact .block text ih

theorem Balanced.imp {ok ok' : Bytes → Prop} (h : Balanced ok lines)
    (himp : ∀ line, ok line → ok' line) : Balanced ok' lines := by
  induction h with
  | nil => exact .nil
  | line plain hok _ ih => exact .line plain (himp _ hok) ih
  | block text _ ih => exact .block text ih

theorem markdownFence_eq (text : Bytes) :
    markdownFence text = List.replicate (fenceLength text) backtick := rfl

/-! ## Finding a section -/

section Span

variable {heading : Bytes} {textLength : Nat}

/-- A line that the search for a section passes by. -/
def Passed (heading : Bytes) (found : Option (Nat × Nat)) (line : Bytes) : Prop :=
  match found with
  | none => line ≠ heading
  | some _ => boundaryLine line = false

theorem terminated_ne_nil (line : Bytes) : line ++ [newline] ≠ [] := by simp

/-- One step of the search, at a terminated line. -/
theorem sectionSpanFrom_line (line : Bytes) (rest : List Bytes) (fence : FenceTracker)
    (offset : Nat) (found : Option (Nat × Nat)) :
    sectionSpanFrom heading textLength ((line ++ [newline]) :: rest) fence offset found =
      if (fence.step line).1 || (fence.step line).2.inside then
        sectionSpanFrom heading textLength rest (fence.step line).2 (offset + (line.length + 1)) found
      else
        match found with
        | none =>
          sectionSpanFrom heading textLength rest (fence.step line).2 (offset + (line.length + 1))
            (if line = heading then some (offset, offset + (line.length + 1)) else none)
        | some (start, body) =>
          if body < offset ∧ boundaryLine line then some ⟨start, body, offset⟩
          else sectionSpanFrom heading textLength rest (fence.step line).2
            (offset + (line.length + 1)) found := by
  rw [sectionSpanFrom, if_neg (terminated_ne_nil line)]
  cases found <;>
    simp only [trimNewline_line, length_append, length_singleton,
      append_cancel_right_eq]

theorem sectionSpanFrom_content {n : Nat} (hn : 3 ≤ n) (lines : List Bytes)
    (hruns : ∀ line ∈ lines, ∀ a b k, line = a ++ List.replicate k backtick ++ b → k < n)
    (rest : List Bytes) (offset : Nat) (found : Option (Nat × Nat)) :
    sectionSpanFrom heading textLength (lines.map (· ++ [newline]) ++ rest) (opened n) offset found =
      sectionSpanFrom heading textLength rest (opened n) (offset + (joinLines lines).length) found := by
  induction lines generalizing offset with
  | nil => rfl
  | cons line lines ih =>
    have hstep := content_step hn (hruns line mem_cons_self)
    rw [map_cons, cons_append, sectionSpanFrom_line, hstep]
    simp only [inside_opened (show 0 < n by omega), Bool.or_true, if_true]
    rw [ih fun l hl => hruns l (mem_cons_of_mem _ hl), joinLines_cons, length_append,
      length_cons]
    congr 1
    omega

/-- The search passes a block whole. -/
theorem sectionSpanFrom_block (text : Bytes) (rest : List Bytes) (char : UInt8) (offset : Nat)
    (found : Option (Nat × Nat)) :
    sectionSpanFrom heading textLength ((fencedLines text).map (· ++ [newline]) ++ rest) (top char)
        offset found =
      sectionSpanFrom heading textLength rest (top backtick)
        (offset + (joinLines (fencedLines text)).length) found := by
  have hn := three_le_fence text
  unfold fencedLines
  rw [markdownFence_eq, map_append, map_cons, cons_append, cons_append,
    sectionSpanFrom_line, opening_step hn]
  simp only [Bool.true_or, if_true]
  rw [append_assoc, sectionSpanFrom_content hn _ (fun line hline a b k =>
    content_runs hline a b k), map_singleton, singleton_append, sectionSpanFrom_line,
    closing_step hn]
  simp only [Bool.true_or, if_true]
  congr 1
  simp only [joinLines_append, joinLines_cons, joinLines_nil, length_append,
    length_cons, length_nil, cons_append]
  omega

theorem sectionSpanFrom_balanced (heading : Bytes) (textLength : Nat) (found : Option (Nat × Nat))
    (h : Balanced (Passed heading found) lines) (rest : List Bytes) (char : UInt8) (offset : Nat) :
    ∃ char', sectionSpanFrom heading textLength (lines.map (· ++ [newline]) ++ rest) (top char)
        offset found =
      sectionSpanFrom heading textLength rest (top char') (offset + (joinLines lines).length)
        found := by
  induction h generalizing char offset with
  | nil => exact ⟨char, rfl⟩
  | @line line lines plain hok _ ih =>
    obtain ⟨char', hrest⟩ := ih char (offset + (line.length + 1))
    refine ⟨char', ?_⟩
    rw [map_cons, cons_append, sectionSpanFrom_line, step_plain plain]
    simp only [inside_top, Bool.or_self, Bool.false_eq_true, if_false]
    have hlength : offset + (line.length + 1) + (joinLines lines).length =
        offset + (joinLines (line :: lines)).length := by
      rw [joinLines_cons, length_append, length_cons]
      omega
    rw [hlength] at hrest
    cases found with
    | none =>
      rw [if_neg hok]
      exact hrest
    | some place =>
      have hinside : ¬ (place.2 < offset ∧ boundaryLine line = true) := by
        rw [show boundaryLine line = false from hok]
        exact fun hends => nomatch hends.2
      dsimp only
      rw [if_neg hinside]
      exact hrest
  | block text _ ih =>
    obtain ⟨char', hrest⟩ := ih backtick (offset + (joinLines (fencedLines text)).length)
    refine ⟨char', ?_⟩
    rw [map_append, append_assoc, sectionSpanFrom_block, hrest, joinLines_append,
      length_append, Nat.add_assoc]

/-- The search ends at an unterminated line. -/
theorem sectionSpanFrom_tail {tail : Bytes} (htail : newline ∉ tail) (hplain : Plain tail)
    (char : UInt8) (offset : Nat) {found : Option (Nat × Nat)}
    (hpassed : found.isSome → boundaryLine tail = false) :
    sectionSpanFrom heading textLength [tail] (top char) offset found =
      found.map fun place => ⟨place.1, place.2, textLength⟩ := by
  have hterminated : ∀ line : Bytes, tail ≠ line ++ [newline] := by
    rintro line rfl
    exact htail (mem_append_right _ mem_cons_self)
  have hcontent : trimNewline tail = tail := by
    refine if_neg fun hlast => ?_
    obtain ⟨line, hline⟩ := getLast?_eq_some_iff.mp hlast
    exact hterminated line hline
  rw [sectionSpanFrom]
  split
  · rfl
  · dsimp only
    rw [hcontent, step_plain hplain]
    simp only [inside_top, Bool.or_self, Bool.false_eq_true, if_false]
    cases found with
    | none =>
      rw [if_neg (hterminated heading)]
      rfl
    | some place =>
      have hinside : ¬ (place.2 < offset ∧ boundaryLine tail = true) := by
        rw [hpassed rfl]
        exact fun hends => nomatch hends.2
      dsimp only
      rw [if_neg hinside]
      rfl

end Span

section Sections

variable {heading tail : Bytes} {before body : List Bytes}

theorem span_none (hlines : Unbroken before) (htail : newline ∉ tail)
    (hbefore : Balanced (· ≠ heading) before) (hplain : Plain tail) :
    markdownSectionSpan (joinLines before ++ tail) heading = none := by
  unfold markdownSectionSpan
  rw [splitAfter_lines hlines htail]
  obtain ⟨char, hrun⟩ := sectionSpanFrom_balanced heading (joinLines before ++ tail).length none
    hbefore [tail] 0 0
  refine hrun.trans ?_
  rw [sectionSpanFrom_tail htail hplain char _ (fun h => absurd h (by simp))]
  rfl

/-- The search has found the heading and passed the body. -/
theorem sectionSpanFrom_found (hbefore : Balanced (· ≠ heading) before) (hheading : Plain heading)
    (hbody : Balanced (fun line => boundaryLine line = false) body) (textLength : Nat)
    (rest : List Bytes) :
    ∃ char, sectionSpanFrom heading textLength
        ((before ++ heading :: body).map (· ++ [newline]) ++ rest) {} 0 none =
      sectionSpanFrom heading textLength rest (top char) (joinLines (before ++ heading :: body)).length
        (some ((joinLines before).length, (joinLines (before ++ [heading])).length)) := by
  have hlength : (joinLines (before ++ [heading])).length =
      (joinLines before).length + (heading.length + 1) := by
    simp
  obtain ⟨char, hsearch⟩ := sectionSpanFrom_balanced heading textLength none hbefore
    (((heading :: body).map (· ++ [newline])) ++ rest) 0 0
  obtain ⟨char', hrest⟩ := sectionSpanFrom_balanced heading textLength
    (some ((joinLines before).length, (joinLines (before ++ [heading])).length)) hbody rest
    char (joinLines (before ++ [heading])).length
  refine ⟨char', ?_⟩
  rw [map_append, append_assoc]
  refine hsearch.trans ?_
  rw [map_cons, cons_append, sectionSpanFrom_line, step_plain hheading]
  simp only [inside_top, Bool.or_self, Bool.false_eq_true, if_false, if_true, Nat.zero_add]
  rw [← hlength, hrest]
  congr 1
  simp only [joinLines_append, joinLines_cons, joinLines_nil, length_append, length_cons,
    length_nil]
  omega

/-- A section that ends with the text. -/
theorem span_last (hlines : Unbroken (before ++ heading :: body)) (htail : newline ∉ tail)
    (hbefore : Balanced (· ≠ heading) before) (hheading : Plain heading)
    (hbody : Balanced (fun line => boundaryLine line = false) body) (hplain : Plain tail)
    (hboundary : boundaryLine tail = false) :
    markdownSectionSpan (joinLines (before ++ heading :: body) ++ tail) heading =
      some ⟨(joinLines before).length, (joinLines (before ++ [heading])).length,
        (joinLines (before ++ heading :: body) ++ tail).length⟩ := by
  unfold markdownSectionSpan
  rw [splitAfter_lines hlines htail]
  obtain ⟨char, hrun⟩ := sectionSpanFrom_found hbefore hheading hbody
    (joinLines (before ++ heading :: body) ++ tail).length [tail]
  rw [hrun, sectionSpanFrom_tail htail hplain char _ fun _ => hboundary]
  rfl

/-- A section that the next heading ends. -/
theorem span_inner {next : Bytes} {after : List Bytes}
    (hlines : Unbroken (before ++ heading :: body ++ next :: after)) (htail : newline ∉ tail)
    (hbefore : Balanced (· ≠ heading) before) (hheading : Plain heading)
    (hbody : Balanced (fun line => boundaryLine line = false) body) (hne : body ≠ [])
    (hplain : Plain next) (hboundary : boundaryLine next = true) :
    markdownSectionSpan (joinLines (before ++ heading :: body ++ next :: after) ++ tail) heading =
      some ⟨(joinLines before).length, (joinLines (before ++ [heading])).length,
        (joinLines (before ++ heading :: body)).length⟩ := by
  unfold markdownSectionSpan
  generalize (joinLines (before ++ heading :: body ++ next :: after) ++ tail).length = textLength
  rw [splitAfter_lines hlines htail, map_append, append_assoc]
  obtain ⟨char, hrun⟩ := sectionSpanFrom_found hbefore hheading hbody textLength
    ((next :: after).map (· ++ [newline]) ++ [tail])
  have hbehind : (joinLines (before ++ [heading])).length <
      (joinLines (before ++ heading :: body)).length := by
    obtain ⟨first, rest, rfl⟩ := exists_cons_of_ne_nil hne
    simp only [joinLines_append, joinLines_cons, joinLines_nil, length_append,
      length_cons, length_nil]
    omega
  rw [hrun, map_cons, cons_append, sectionSpanFrom_line, step_plain hplain]
  simp only [inside_top, Bool.or_self, Bool.false_eq_true, if_false]
  rw [if_pos ⟨hbehind, hboundary⟩]

theorem slice_lines (lines lines' : List Bytes) (rest : Bytes) :
    ((joinLines (lines ++ lines') ++ rest).take (joinLines (lines ++ lines')).length).drop
      (joinLines lines).length = joinLines lines' := by
  rw [take_left, joinLines_append, drop_left]

theorem section_none (hlines : Unbroken before) (htail : newline ∉ tail)
    (hbefore : Balanced (· ≠ heading) before) (hplain : Plain tail) :
    markdownSection (joinLines before ++ tail) heading = [] := by
  unfold markdownSection
  rw [span_none hlines htail hbefore hplain]

theorem section_last (hlines : Unbroken (before ++ heading :: body)) (htail : newline ∉ tail)
    (hbefore : Balanced (· ≠ heading) before) (hheading : Plain heading)
    (hbody : Balanced (fun line => boundaryLine line = false) body) (hplain : Plain tail)
    (hboundary : boundaryLine tail = false) :
    markdownSection (joinLines (before ++ heading :: body) ++ tail) heading =
      joinLines body ++ tail := by
  unfold markdownSection
  rw [span_last hlines htail hbefore hheading hbody hplain hboundary]
  dsimp only
  rw [take_length, append_cons before heading body, joinLines_append _ body,
    append_assoc, drop_left]

theorem section_inner {next : Bytes} {after : List Bytes}
    (hlines : Unbroken (before ++ heading :: body ++ next :: after)) (htail : newline ∉ tail)
    (hbefore : Balanced (· ≠ heading) before) (hheading : Plain heading)
    (hbody : Balanced (fun line => boundaryLine line = false) body) (hne : body ≠ [])
    (hplain : Plain next) (hboundary : boundaryLine next = true) :
    markdownSection (joinLines (before ++ heading :: body ++ next :: after) ++ tail) heading =
      joinLines body := by
  unfold markdownSection
  rw [span_inner hlines htail hbefore hheading hbody hne hplain hboundary]
  rw [joinLines_append _ (next :: after), append_assoc, append_cons before heading body]
  exact slice_lines _ _ _

end Sections

/-! ## Reading blocks -/

/-- The lines of a block under its heading. -/
def blockLines (block : CheckpointMarkdownBlock) : List Bytes :=
  (utf8 "### " ++ block.heading) :: [] :: (fencedLines block.text ++ [[]])

/-- The block as it is read back, unless its text is blank. -/
def readBlock (block : CheckpointMarkdownBlock) : Option CheckpointMarkdownBlock :=
  let text := trimBytes block.text
  if text = [] then none else some ⟨block.heading, text⟩

namespace BlockReader

/-- Where a line is read as the text of a block: behind a block's fence. -/
structure Between (r : BlockReader) : Prop where
  fence : ∃ char, r.fence = top char
  closed : r.heading = [] ∨ r.sawFence = true

theorem read_plain (h : r.Between) (hplain : Plain line)
    (hheading : (utf8 "### ").isPrefixOf line = false) : r.read line = r := by
  obtain ⟨⟨char, hfence⟩, hclosed⟩ := h
  obtain ⟨blocks, heading, lines, fence, sawFence⟩ := r
  dsimp only at hfence hclosed
  subst hfence
  unfold read
  rw [step_plain hplain]
  dsimp only
  rw [if_neg (by simp [hheading])]
  split
  · rfl
  · next hsome =>
    rw [hclosed.resolve_left hsome]
    simp

theorem read_content {n : Nat} (hn : 3 ≤ n) (hfence : r.fence = opened n)
    (hheading : r.heading ≠ []) (lines : List Bytes)
    (hruns : ∀ line ∈ lines, ∀ a b k, line = a ++ List.replicate k backtick ++ b → k < n) :
    lines.foldl read r = { r with lines := r.lines ++ lines } := by
  induction lines generalizing r with
  | nil => rw [append_nil]; rfl
  | cons line lines ih =>
    have hstep := content_step hn (hruns line mem_cons_self)
    have hinside := inside_opened (show 0 < n by omega)
    have hread : r.read line = { r with lines := r.lines ++ [line] } := by
      unfold read
      rw [hfence, hstep]
      dsimp only
      rw [if_neg (by simp [hinside]), if_neg hheading]
      simp [hinside]
    rw [foldl_cons, hread, ih (r := { r with lines := r.lines ++ [line] }) hfence hheading
      fun l hl => hruns l (mem_cons_of_mem _ hl)]
    simp

/-- A block is read whole, whatever its text. -/
theorem read_block (h : r.Between) {block : CheckpointMarkdownBlock}
    (hname : trimBytes block.heading = block.heading) (hsome : block.heading ≠ [])
    (hplain : Plain (utf8 "### " ++ block.heading)) :
    ∃ r' : BlockReader, (blockLines block).foldl read r = r' ∧ r'.Between ∧
      r'.flush = r.flush ++ (readBlock block).toList := by
  obtain ⟨⟨char, hfence⟩, _⟩ := h
  have hn := three_le_fence block.text
  -- the heading begins a block without lines
  have hheading : r.read (utf8 "### " ++ block.heading) =
      ⟨r.flush, block.heading, [], top char, false⟩ := by
    have hstarts : (utf8 "### ").isPrefixOf (utf8 "### " ++ block.heading) = true :=
      isPrefixOf_iff_prefix.mpr (prefix_append _ _)
    unfold read
    rw [hfence, step_plain hplain]
    dsimp only
    rw [if_pos ⟨inside_top char, hstarts⟩, drop_left, hname]
    rfl
  have hblank : read ⟨r.flush, block.heading, [], top char, false⟩ [] =
      ⟨r.flush, block.heading, [], top char, false⟩ := by
    have hnone : trimBytes [] = [] := trimBytes_of_trimmed Trimmed.nil
    unfold read
    rw [step_plain Plain.nil]
    dsimp only
    rw [if_neg (fun h => absurd h.2 (by decide)), if_neg hsome]
    simp [hnone]
  have hopening : read ⟨r.flush, block.heading, [], top char, false⟩
      (markdownFence block.text ++ utf8 "text") =
      ⟨r.flush, block.heading, [], opened (fenceLength block.text), true⟩ := by
    have hinside := inside_opened (show 0 < fenceLength block.text by omega)
    unfold read
    rw [markdownFence_eq, opening_step hn]
    dsimp only
    rw [if_neg (by simp [hinside]), if_neg hsome, if_pos rfl]
  have hclosing : read ⟨r.flush, block.heading, contentLines block.text,
      opened (fenceLength block.text), true⟩ (markdownFence block.text) =
      ⟨r.flush, block.heading, contentLines block.text, top backtick, true⟩ := by
    have hstarts : (utf8 "### ").isPrefixOf (List.replicate (fenceLength block.text) backtick) =
        false := by
      obtain ⟨m, hm⟩ : ∃ m, fenceLength block.text = m + 1 := ⟨fenceLength block.text - 1, by omega⟩
      rw [hm, replicate_succ]
      exact Bool.eq_false_iff.mpr fun hpre =>
        absurd (cons_prefix_cons.mp ( isPrefixOf_iff_prefix.mp hpre)).1 (by decide)
    unfold read
    rw [markdownFence_eq, closing_step hn]
    dsimp only
    rw [if_neg (by simp [hstarts]), if_neg hsome, if_pos rfl]
  refine ⟨_, rfl, ?_⟩
  have hrun : (blockLines block).foldl read r =
      ⟨r.flush, block.heading, contentLines block.text, top backtick, true⟩ := by
    unfold blockLines fencedLines
    simp only [foldl_cons, foldl_append, foldl_nil, hheading, hblank, hopening]
    rw [read_content hn rfl hsome _ fun line hline a b k => content_runs hline a b k]
    rw [nil_append, hclosing]
    exact read_plain ⟨⟨backtick, rfl⟩, Or.inr rfl⟩ Plain.nil rfl
  rw [hrun]
  refine ⟨⟨⟨backtick, rfl⟩, Or.inr rfl⟩, ?_⟩
  unfold flush readBlock
  rw [if_neg hsome]
  dsimp only
  rw [trimBytes_contentLines]
  split
  · simp
  · rfl

end BlockReader

/-! ## Rendered sections -/

/-- A heading that is read back as it was written. -/
structure CheckpointMarkdownBlock.Named (block : CheckpointMarkdownBlock) : Prop where
  trimmed : trimBytes block.heading = block.heading
  some : block.heading ≠ []
  unbroken : newline ∉ block.heading

/-- The lines of a section behind its heading. -/
def sectionBody (blocks : List CheckpointMarkdownBlock) : List Bytes :=
  [] :: blocks.flatMap blockLines

/-- A section without blocks is not written. -/
def sectionLines (heading : Bytes) (blocks : List CheckpointMarkdownBlock) : List Bytes :=
  if blocks = [] then [] else heading :: sectionBody blocks

/-- A line of a section outside of its blocks' texts. -/
def SubLine (line : Bytes) : Prop := line = [] ∨ ∃ rest, line = utf8 "### " ++ rest

theorem plain_sub (rest : Bytes) : Plain (utf8 "### " ++ rest) :=
  Plain.of_start (b := 35) (by decide)

theorem SubLine.not_boundary (h : SubLine line) : boundaryLine line = false := by
  rcases h with rfl | ⟨rest, rfl⟩
  · decide
  · rfl

theorem blockLines_balanced (block : CheckpointMarkdownBlock) : Balanced SubLine (blockLines block) := by
  refine .line (plain_sub _) (Or.inr ⟨_, rfl⟩) (.line Plain.nil (Or.inl rfl) ?_)
  exact .block _ (.line Plain.nil (Or.inl rfl) .nil)

theorem sectionBody_balanced (blocks : List CheckpointMarkdownBlock) :
    Balanced SubLine (sectionBody blocks) := by
  refine .line Plain.nil (Or.inl rfl) ?_
  induction blocks with
  | nil => exact .nil
  | cons block blocks ih =>
    rw [flatMap_cons]
    exact (blockLines_balanced block).append ih

theorem blockLines_unbroken {block : CheckpointMarkdownBlock} (h : block.Named) :
    Unbroken (blockLines block) := by
  intro line hline
  unfold blockLines at hline
  rw [mem_cons, mem_cons, mem_append, mem_singleton] at hline
  rcases hline with rfl | rfl | hline | rfl
  · intro hmem
    rcases mem_append.mp hmem with hmem | hmem
    · exact absurd hmem (by decide)
    · exact h.unbroken hmem
  · exact not_mem_nil
  · exact fencedLines_unbroken _ line hline
  · exact not_mem_nil

theorem sectionBody_unbroken {blocks : List CheckpointMarkdownBlock} (h : ∀ b ∈ blocks, b.Named) :
    Unbroken (sectionBody blocks) := by
  intro line hline
  rcases mem_cons.mp hline with rfl | hline
  · exact not_mem_nil
  · obtain ⟨block, hblock, hline⟩ := mem_flatMap.mp hline
    exact blockLines_unbroken (h block hblock) line hline

/-- An unterminated line that is nothing to a reader of sections and blocks. -/
structure QuietTail (tail : Bytes) : Prop where
  unbroken : newline ∉ tail
  plain : Plain tail
  boundary : boundaryLine tail = false
  sub : (utf8 "### ").isPrefixOf tail = false

theorem QuietTail.nil : QuietTail [] := ⟨not_mem_nil, Plain.nil, by decide, by decide⟩

theorem foldl_blocks {blocks : List CheckpointMarkdownBlock} (h : ∀ b ∈ blocks, b.Named)
    (hr : r.Between) :
    ((blocks.flatMap blockLines).foldl BlockReader.read r).Between ∧
      ((blocks.flatMap blockLines).foldl BlockReader.read r).flush =
        r.flush ++ blocks.filterMap readBlock := by
  induction blocks generalizing r with
  | nil => exact ⟨hr, by simp⟩
  | cons block blocks ih =>
    have hnamed := h block mem_cons_self
    obtain ⟨r', hrun, hbetween, hflush⟩ :=
      BlockReader.read_block hr hnamed.trimmed hnamed.some (plain_sub _)
    have hrest := ih (fun b hb => h b (mem_cons_of_mem _ hb)) hbetween
    rw [flatMap_cons, foldl_append, hrun]
    refine ⟨hrest.1, ?_⟩
    rw [hrest.2, hflush, append_assoc]
    congr 1
    rw [filterMap_cons]
    cases readBlock block with
    | none => rfl
    | some read => rfl

/-- The blocks of a section are read back, but for blank ones. -/
theorem parse_section {blocks : List CheckpointMarkdownBlock} (h : ∀ b ∈ blocks, b.Named)
    {tail : Bytes} (htail : QuietTail tail) :
    parseMarkdownBlocks (joinLines (sectionBody blocks) ++ tail) = blocks.filterMap readBlock := by
  have hstart : BlockReader.Between {} := ⟨⟨0, rfl⟩, Or.inl rfl⟩
  unfold parseMarkdownBlocks
  rw [splitBytes_lines (sectionBody_unbroken h) htail.unbroken, foldl_append]
  unfold sectionBody
  obtain ⟨hbetween, hflush⟩ := foldl_blocks h hstart
  have hbody : ([] :: blocks.flatMap blockLines).foldl BlockReader.read {} =
      (blocks.flatMap blockLines).foldl BlockReader.read {} := by
    rw [foldl_cons, BlockReader.read_plain hstart Plain.nil (by decide)]
  rw [hbody, foldl_cons, foldl_nil,
    BlockReader.read_plain hbetween htail.plain htail.sub, hflush]
  rfl

/-- A top-level heading: it begins a section and ends the one before it. -/
structure Heading (heading : Bytes) : Prop where
  plain : Plain heading
  boundary : boundaryLine heading = true
  unbroken : newline ∉ heading

theorem Heading.not_sub {heading : Bytes} (h : Heading heading) (hline : SubLine line) :
    line ≠ heading := by
  rintro rfl
  exact Bool.false_ne_true (hline.not_boundary.symm.trans h.boundary)

theorem sectionLines_balanced {heading other : Bytes} (h : Heading heading) (hother : Heading other)
    (hne : other ≠ heading) (blocks : List CheckpointMarkdownBlock) :
    Balanced (· ≠ heading) (sectionLines other blocks) := by
  unfold sectionLines
  split
  · exact .nil
  · exact .line hother.plain hne ((sectionBody_balanced blocks).imp fun _ => h.not_sub)

theorem sectionLines_unbroken {heading : Bytes} (h : Heading heading)
    {blocks : List CheckpointMarkdownBlock} (hblocks : ∀ b ∈ blocks, b.Named) :
    Unbroken (sectionLines heading blocks) := by
  unfold sectionLines
  split
  · exact fun _ hline => absurd hline not_mem_nil
  · intro line hline
    rcases mem_cons.mp hline with rfl | hline
    · exact h.unbroken
    · exact sectionBody_unbroken hblocks line hline

/-- The lines begin with a heading, if there are any. -/
def Headed (lines : List Bytes) : Prop :=
  lines = [] ∨ ∃ next rest, lines = next :: rest ∧ Heading next

theorem Headed.append {lines' : List Bytes} (h : Headed lines) (h' : Headed lines') :
    Headed (lines ++ lines') := by
  rcases h with rfl | ⟨next, rest, rfl, hnext⟩
  · exact h'
  · exact Or.inr ⟨next, rest ++ lines', rfl, hnext⟩

theorem sectionLines_headed {heading : Bytes} (h : Heading heading)
    (blocks : List CheckpointMarkdownBlock) : Headed (sectionLines heading blocks) := by
  unfold sectionLines
  split
  · exact Or.inl rfl
  · exact Or.inr ⟨_, _, rfl, h⟩

section Extract

variable {heading tail : Bytes} {blocks : List CheckpointMarkdownBlock} (before after : List Bytes)

/-- A rendered section stands where it was written, among lines that do not name it. -/
theorem section_of_lines (h : Heading heading) (hblocks : ∀ b ∈ blocks, b.Named)
    (hbefore : Balanced (· ≠ heading) before) (hafter : Balanced (· ≠ heading) after)
    (hheaded : Headed after) (hunbroken : Unbroken (before ++ after)) (htail : QuietTail tail) :
    ∃ tail', QuietTail tail' ∧
      markdownSection (joinLines (before ++ sectionLines heading blocks ++ after) ++ tail) heading =
        if blocks = [] then [] else joinLines (sectionBody blocks) ++ tail' := by
  have hlines : Unbroken (before ++ sectionLines heading blocks ++ after) := by
    intro line hline
    rcases mem_append.mp hline with hline | hline
    · rcases mem_append.mp hline with hline | hline
      · exact hunbroken line (mem_append_left _ hline)
      · exact sectionLines_unbroken h hblocks line hline
    · exact hunbroken line (mem_append_right _ hline)
  have hbody : Balanced (fun line => boundaryLine line = false) (sectionBody blocks) :=
    (sectionBody_balanced blocks).imp fun _ => SubLine.not_boundary
  by_cases hnone : blocks = []
  · refine ⟨tail, htail, ?_⟩
    unfold sectionLines at hlines ⊢
    rw [if_pos hnone, append_nil] at hlines ⊢
    rw [if_pos hnone]
    exact section_none hlines htail.unbroken (hbefore.append hafter) htail.plain
  · unfold sectionLines at hlines ⊢
    rw [if_neg hnone] at hlines ⊢
    rcases hheaded with rfl | ⟨next, rest, rfl, hnext⟩
    · refine ⟨tail, htail, ?_⟩
      rw [if_neg hnone]
      rw [append_nil] at hlines ⊢
      exact section_last hlines htail.unbroken hbefore h.plain hbody htail.plain htail.boundary
    · refine ⟨[], QuietTail.nil, ?_⟩
      rw [if_neg hnone, append_nil]
      exact section_inner hlines htail.unbroken hbefore h.plain hbody (cons_ne_nil _ _)
        hnext.plain hnext.boundary

theorem blocks_of_lines (h : Heading heading) (hblocks : ∀ b ∈ blocks, b.Named)
    (hbefore : Balanced (· ≠ heading) before) (hafter : Balanced (· ≠ heading) after)
    (hheaded : Headed after) (hunbroken : Unbroken (before ++ after)) (htail : QuietTail tail) :
    parseMarkdownBlocks (markdownSection
      (joinLines (before ++ sectionLines heading blocks ++ after) ++ tail) heading) =
        blocks.filterMap readBlock ∧
      (markdownSection (joinLines (before ++ sectionLines heading blocks ++ after) ++ tail) heading =
        [] ↔ blocks = []) := by
  obtain ⟨tail', htail', hsection⟩ :=
    section_of_lines before after h hblocks hbefore hafter hheaded hunbroken htail
  rw [hsection]
  split
  · next hnone =>
    rw [hnone]
    exact ⟨rfl, fun _ => rfl, fun _ => rfl⟩
  · next hsome =>
    refine ⟨parse_section hblocks htail', fun hnil => ?_, fun hnone => absurd hnone hsome⟩
    unfold sectionBody at hnil
    rw [joinLines_cons] at hnil
    exact absurd hnil (by simp)

end Extract

end Evener.Contextmgr
