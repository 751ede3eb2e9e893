/-
  The sections of a checkpoint, rendered one after the other and extracted again.
-/
import Evener.Contextmgr.RoundTrip

namespace Evener.Contextmgr

open Evener.Lib FenceTracker List

/-! ## Clean entries -/

/-- An entry that cleaning leaves as it is. -/
structure CheckpointConversationEntry.Clean (entry : CheckpointConversationEntry) : Prop where
  role : entry.role = utf8 "user" ∨ entry.role = utf8 "agent"
  trimmed : trimBytes entry.text = entry.text
  some : entry.text ≠ []

theorem cleanEntry_clean {entry cleaned : CheckpointConversationEntry}
    (h : cleanEntry entry = some cleaned) : cleaned.Clean := by
  unfold cleanEntry at h
  dsimp only at h
  split at h
  · cases h
  · next hsome =>
    split at h
    · cases h
      exact ⟨Or.inl rfl, trimBytes_trimBytes _, hsome⟩
    · split at h
      · cases h
        exact ⟨Or.inr rfl, trimBytes_trimBytes _, hsome⟩
      · cases h

theorem cleanEntry_of_clean {entry : CheckpointConversationEntry} (h : entry.Clean) :
    cleanEntry entry = some entry := by
  obtain ⟨role, text⟩ := entry
  obtain ⟨hrole, htrimmed, hsome⟩ := h
  dsimp only at hrole htrimmed hsome
  have huser : lowerBytes (trimBytes (utf8 "user")) = utf8 "user" := by decide
  have hagent : lowerBytes (trimBytes (utf8 "agent")) = utf8 "agent" := by decide
  unfold cleanEntry
  rw [htrimmed, if_neg hsome]
  rcases hrole with rfl | rfl
  · rw [huser, if_pos rfl]
  · rw [hagent, if_neg (by decide), if_pos (Or.inl rfl)]

theorem mem_clean {entries : List CheckpointConversationEntry} {entry : CheckpointConversationEntry}
    (h : entry ∈ cleanCheckpointConversation entries) : entry.Clean := by
  obtain ⟨_, _, hclean⟩ := mem_filterMap.mp h
  exact cleanEntry_clean hclean

variable {entries : List CheckpointConversationEntry}

theorem clean_of_clean (h : ∀ e ∈ entries, e.Clean) :
    cleanCheckpointConversation entries = entries := by
  unfold cleanCheckpointConversation
  induction entries with
  | nil => rfl
  | cons entry entries ih =>
    rw [filterMap_cons_some (cleanEntry_of_clean (h entry mem_cons_self)),
      ih fun e he => h e (mem_cons_of_mem _ he)]

@[simp] theorem clean_clean (entries : List CheckpointConversationEntry) :
    cleanCheckpointConversation (cleanCheckpointConversation entries) =
      cleanCheckpointConversation entries :=
  clean_of_clean fun _ => mem_clean

/-! ## Rendered lines -/

theorem joinLines_block (block : CheckpointMarkdownBlock) :
    joinLines (blockLines block) =
      utf8 "### " ++ block.heading ++ utf8 "\n\n" ++ writeMarkdownFence block.text := by
  have hgap : utf8 "\n\n" = [newline, newline] := by decide
  unfold blockLines
  rw [writeMarkdownFence_eq, hgap, joinLines_cons, joinLines_cons]
  simp only [append_assoc, cons_append, nil_append]

theorem joinLines_section (heading : Bytes) (blocks : List CheckpointMarkdownBlock)
    (h : blocks ≠ []) :
    joinLines (sectionLines heading blocks) = heading ++ utf8 "\n\n" ++ blocks.flatMap fun block =>
      utf8 "### " ++ block.heading ++ utf8 "\n\n" ++ writeMarkdownFence block.text := by
  have hgap : utf8 "\n\n" = [newline, newline] := by decide
  have hblocks : joinLines (blocks.flatMap blockLines) = blocks.flatMap fun block =>
      utf8 "### " ++ block.heading ++ utf8 "\n\n" ++ writeMarkdownFence block.text := by
    rw [flatMap_def, joinLines_flatten, map_map, flatMap_def]
    congr 2
    funext block
    exact joinLines_block block
  unfold sectionLines sectionBody
  rw [if_neg h, joinLines_cons, joinLines_cons, hblocks, hgap]
  simp only [append_assoc, cons_append, nil_append]

def entryBlock (entry : CheckpointConversationEntry) : CheckpointMarkdownBlock :=
  ⟨if entry.role = utf8 "agent" then utf8 "Agent" else utf8 "User", entry.text⟩

def noteBlock (note : Bytes) : CheckpointMarkdownBlock := ⟨utf8 "Note", note⟩

def summaryBlock (summary : Bytes) : CheckpointMarkdownBlock := ⟨utf8 "Summary", summary⟩

def conversationLines (entries : List CheckpointConversationEntry) : List Bytes :=
  sectionLines checkpointConversationHeading ((cleanCheckpointConversation entries).map entryBlock)

def notesLines (notes : List Bytes) : List Bytes :=
  sectionLines workingNotesHeading (((notes.map trimBytes).filter (· ≠ [])).map noteBlock)

def summariesLines (summaries : List Bytes) : List Bytes :=
  sectionLines earlierSummariesHeading (summaries.map summaryBlock)

theorem conversationLines_cons (h : cleanCheckpointConversation entries ≠ []) :
    conversationLines entries = checkpointConversationHeading ::
      sectionBody ((cleanCheckpointConversation entries).map entryBlock) :=
  if_neg (by simpa using h)

theorem render_conversation (entries : List CheckpointConversationEntry) :
    renderCheckpointConversation entries = joinLines (conversationLines entries) := by
  unfold renderCheckpointConversation conversationLines
  dsimp only
  split
  · next hnone => rw [hnone]; rfl
  · next hsome =>
    rw [joinLines_section _ _ (by simpa using hsome), flatMap_map]
    congr 1
    refine flatMap_congr fun entry _ => ?_
    unfold entryBlock
    split
    · rw [show utf8 "### Agent\n\n" = utf8 "### " ++ utf8 "Agent" ++ utf8 "\n\n" by decide]
    · rw [show utf8 "### User\n\n" = utf8 "### " ++ utf8 "User" ++ utf8 "\n\n" by decide]

theorem render_notes (notes : List Bytes) :
    renderCheckpointWorkingNotes notes = joinLines (notesLines notes) := by
  unfold renderCheckpointWorkingNotes notesLines
  dsimp only
  split
  · next hnone => rw [hnone]; rfl
  · next hsome =>
    rw [joinLines_section _ _ (by simpa using hsome), flatMap_map,
      show utf8 "## Working Notes\n\n" = workingNotesHeading ++ utf8 "\n\n" by decide]
    congr 1

theorem render_summaries (summaries : List Bytes) :
    renderCheckpointEarlierSummaries summaries = joinLines (summariesLines summaries) := by
  unfold renderCheckpointEarlierSummaries summariesLines
  split
  · next hnone => rw [hnone]; rfl
  · next hsome =>
    rw [joinLines_section _ _ (by simpa using hsome), flatMap_map,
      show utf8 "## Earlier Summaries\n\n" = earlierSummariesHeading ++ utf8 "\n\n" by decide]
    congr 1

theorem conversation_heading : Heading checkpointConversationHeading :=
  ⟨Plain.of_start (b := 35) (by decide), by decide, by decide⟩

theorem notes_heading : Heading workingNotesHeading :=
  ⟨Plain.of_start (b := 35) (by decide), by decide, by decide⟩

theorem summaries_heading : Heading earlierSummariesHeading :=
  ⟨Plain.of_start (b := 35) (by decide), by decide, by decide⟩

theorem named_heading {heading : Bytes}
    (h : trimBytes heading = heading ∧ heading ≠ [] ∧ newline ∉ heading) (text : Bytes) :
    (⟨heading, text⟩ : CheckpointMarkdownBlock).Named := ⟨h.1, h.2.1, h.2.2⟩

theorem entryBlock_named (entries : List CheckpointConversationEntry) :
    ∀ b ∈ entries.map entryBlock, b.Named := by
  intro block hblock
  obtain ⟨entry, _, rfl⟩ := mem_map.mp hblock
  unfold entryBlock
  split
  · exact named_heading (by decide) _
  · exact named_heading (by decide) _

theorem noteBlock_named (notes : List Bytes) : ∀ b ∈ notes.map noteBlock, b.Named := by
  intro block hblock
  obtain ⟨note, _, rfl⟩ := mem_map.mp hblock
  exact named_heading (by decide) note

theorem summaryBlock_named (summaries : List Bytes) : ∀ b ∈ summaries.map summaryBlock, b.Named := by
  intro block hblock
  obtain ⟨summary, _, rfl⟩ := mem_map.mp hblock
  exact named_heading (by decide) summary

/-! ## Extracting -/

/-- What is rendered of clean entries names their roles and texts. -/
theorem entries_of_blocks (h : ∀ e ∈ entries, e.Clean) :
    ((entries.map entryBlock).filterMap readBlock).filterMap blockEntry = entries := by
  induction entries with
  | nil => rfl
  | cons entry entries ih =>
    have hclean := h entry mem_cons_self
    have hread : readBlock (entryBlock entry) = some (entryBlock entry) := by
      unfold readBlock entryBlock
      rw [hclean.trimmed, if_neg hclean.some]
    have huser : lowerBytes (trimBytes (utf8 "User")) = utf8 "user" := by decide
    have hagent : lowerBytes (trimBytes (utf8 "Agent")) = utf8 "agent" := by decide
    have hother : utf8 "user" ≠ utf8 "agent" := by decide
    have hentry : blockEntry (entryBlock entry) = some entry := by
      obtain ⟨role, text⟩ := entry
      unfold blockEntry entryBlock
      rcases hclean.role with hrole | hrole
      · dsimp only at hrole ⊢
        rw [hrole, if_neg hother, huser, if_pos rfl]
      · dsimp only at hrole ⊢
        rw [hrole, if_pos rfl, hagent, if_neg hother.symm, if_pos (Or.inl rfl)]
    rw [map_cons, filterMap_cons_some hread, filterMap_cons_some hentry,
      ih fun e he => h e (mem_cons_of_mem _ he)]

theorem extract_of_section {text : Bytes} {entries : List CheckpointConversationEntry}
    (h : parseMarkdownBlocks (markdownSection text checkpointConversationHeading) =
      ((cleanCheckpointConversation entries).map entryBlock).filterMap readBlock) :
    extractMarkdownConversation text = cleanCheckpointConversation entries := by
  unfold extractMarkdownConversation
  dsimp only
  rw [h, entries_of_blocks fun _ => mem_clean, clean_clean]
  split
  · next hnone =>
    have hempty : parseMarkdownBlocks [] = [] := rfl
    rw [hnone, hempty] at h
    have hself := entries_of_blocks (fun e => @mem_clean entries e)
    rw [← hself, ← h]
    rfl
  · rfl

/-- Texts are read back without the white space around them, and blank ones not at all. -/
theorem texts_of_blocks (heading : Bytes) (texts : List Bytes) :
    (((texts.map fun text => (⟨heading, text⟩ : CheckpointMarkdownBlock)).filterMap readBlock).map
      CheckpointMarkdownBlock.text) = (texts.map trimBytes).filter (· ≠ []) := by
  induction texts with
  | nil => rfl
  | cons text texts ih =>
    rw [map_cons, map_cons]
    by_cases hblank : trimBytes text = []
    · have hread : readBlock ⟨heading, text⟩ = none := by simp [readBlock, hblank]
      rw [filterMap_cons_none hread, ih, filter_cons_of_neg (by simp [hblank])]
    · have hread : readBlock ⟨heading, text⟩ = some ⟨heading, trimBytes text⟩ := by
        simp [readBlock, hblank]
      rw [filterMap_cons_some hread, map_cons, ih,
        filter_cons_of_pos (by simp [hblank])]

theorem map_trimmed {texts : List Bytes} (h : ∀ text ∈ texts, trimBytes text = text) :
    texts.map trimBytes = texts :=
  (map_congr_left h).trans (map_id texts)

theorem filter_trimmed (texts : List Bytes) :
    (((texts.map trimBytes).filter (· ≠ [])).map trimBytes).filter (· ≠ []) =
      (texts.map trimBytes).filter (· ≠ []) := by
  rw [map_trimmed fun text htext => ?_, filter_filter]
  · simp
  · obtain ⟨_, _, rfl⟩ := mem_map.mp (mem_filter.mp htext).1
    exact trimBytes_trimBytes _

/-! ## The fallback -/

theorem unfencedLines_content {n : Nat} (hn : 3 ≤ n) (lines : List Bytes)
    (hruns : ∀ line ∈ lines, ∀ a b k, line = a ++ List.replicate k backtick ++ b → k < n)
    (rest : List Bytes) :
    unfencedLines (lines.map (· ++ [newline]) ++ rest) (opened n) = unfencedLines rest (opened n) := by
  induction lines with
  | nil => rfl
  | cons line lines ih =>
    rw [map_cons, cons_append, unfencedLines, trimNewline_line,
      content_step hn (hruns line mem_cons_self)]
    dsimp only
    rw [if_pos (by simp [inside_opened (show 0 < n by omega)])]
    exact ih fun l hl => hruns l (mem_cons_of_mem _ hl)

theorem unfencedLines_block (text : Bytes) (rest : List Bytes) (char : UInt8) :
    unfencedLines ((fencedLines text).map (· ++ [newline]) ++ rest) (top char) =
      unfencedLines rest (top backtick) := by
  have hn := three_le_fence text
  unfold fencedLines
  rw [markdownFence_eq, map_append, map_cons, cons_append, cons_append,
    unfencedLines, trimNewline_line, opening_step hn]
  dsimp only
  rw [if_pos (by simp), append_assoc, unfencedLines_content hn _ (fun line hline a b k =>
    content_runs hline a b k), map_singleton, singleton_append, unfencedLines,
    trimNewline_line, closing_step hn]
  dsimp only
  rw [if_pos (by simp)]

/-- What is left of balanced lines without their blocks are the lines in between. -/
theorem not_mem_unfenced {b : UInt8} (hb : b ≠ newline) {ok : Bytes → Prop}
    (hok : ∀ line, ok line → b ∉ line) {lines : List Bytes} (h : Balanced ok lines) (char : UInt8) :
    b ∉ unfencedLines (lines.map (· ++ [newline]) ++ [[]]) (top char) := by
  induction h generalizing char with
  | nil =>
    rw [map_nil, nil_append, unfencedLines]
    exact not_mem_nil
  | @line line lines plain fits _ ih =>
    rw [map_cons, cons_append, unfencedLines, trimNewline_line, step_plain plain]
    dsimp only
    rw [if_neg (by simp)]
    intro hmem
    rcases mem_append.mp hmem with hmem | hmem
    · rcases mem_append.mp hmem with hmem | hmem
      · exact hok line fits hmem
      · exact hb (mem_singleton.mp hmem)
    · exact ih char hmem
  | block text _ ih =>
    rw [map_append, append_assoc, unfencedLines_block]
    exact ih backtick

/-! ## All three -/

theorem section_balanced {heading : Bytes} (h : Heading heading)
    (blocks : List CheckpointMarkdownBlock) {ok : Bytes → Prop} (hheading : ok heading)
    (hok : Balanced ok (sectionBody blocks)) : Balanced ok (sectionLines heading blocks) := by
  unfold sectionLines
  split
  · exact .nil
  · exact .line h.plain hheading hok

/-- The lines between the blocks of a section with some heading hold no `<`. -/
theorem sectionBody_unmarked {blocks : List CheckpointMarkdownBlock}
    (h : ∀ b ∈ blocks, (60 : UInt8) ∉ b.heading) :
    Balanced (fun line => (60 : UInt8) ∉ line) (sectionBody blocks) := by
  refine .line Plain.nil not_mem_nil ?_
  induction blocks with
  | nil => exact .nil
  | cons block blocks ih =>
    rw [flatMap_cons]
    refine Balanced.append ?_ (ih fun b hb => h b (mem_cons_of_mem _ hb))
    refine .line (plain_sub _) (fun hmem => ?_) (.line Plain.nil not_mem_nil
      (.block _ (.line Plain.nil not_mem_nil .nil)))
    rcases mem_append.mp hmem with hmem | hmem
    · exact absurd hmem (by decide)
    · exact h block mem_cons_self hmem

theorem conversationLines_unmarked (entries : List CheckpointConversationEntry) :
    Balanced (fun line => (60 : UInt8) ∉ line) (conversationLines entries) := by
  refine section_balanced conversation_heading _ (by decide) (sectionBody_unmarked fun b hb => ?_)
  obtain ⟨entry, _, rfl⟩ := mem_map.mp hb
  unfold entryBlock
  split
  · show _ ∉ utf8 "Agent"
    decide
  · show _ ∉ utf8 "User"
    decide

theorem summariesLines_unmarked (summaries : List Bytes) :
    Balanced (fun line => (60 : UInt8) ∉ line) (summariesLines summaries) := by
  refine section_balanced summaries_heading _ (by decide) (sectionBody_unmarked fun b hb => ?_)
  obtain ⟨summary, _, rfl⟩ := mem_map.mp hb
  show _ ∉ utf8 "Summary"
  decide

theorem conversationLines_unbroken (entries : List CheckpointConversationEntry) :
    Unbroken (conversationLines entries) :=
  sectionLines_unbroken conversation_heading (entryBlock_named _)

theorem notesLines_unbroken (notes : List Bytes) : Unbroken (notesLines notes) :=
  sectionLines_unbroken notes_heading (noteBlock_named _)

theorem summariesLines_unbroken (summaries : List Bytes) : Unbroken (summariesLines summaries) :=
  sectionLines_unbroken summaries_heading (summaryBlock_named _)

theorem extractCheckpointJSON_none (unmarshal : Bytes → Option (List Bytes)) {text : Bytes}
    (h : (60 : UInt8) ∉ text) : extractCheckpointJSON unmarshal text (utf8 "working_notes") = [] := by
  have hcut : cutBytes (utf8 "<" ++ utf8 "working_notes" ++ utf8 ">") text = none := cutBytes_none h
  have htag : utf8 "working_notes" ≠ utf8 "user_messages" := by decide
  unfold extractCheckpointJSON
  rw [hcut]
  exact if_neg fun hlegacy => htag hlegacy.1

/-- Without notes there are none in the fallback either. -/
theorem no_notes (unmarshal : Bytes → Option (List Bytes))
    (entries : List CheckpointConversationEntry) (summaries : List Bytes) :
    extractCheckpointJSON unmarshal (withoutFencedBlocks
      (joinLines (conversationLines entries ++ summariesLines summaries))) (utf8 "working_notes") =
      [] := by
  refine extractCheckpointJSON_none unmarshal ?_
  have hlines := (conversationLines_unbroken entries).append (summariesLines_unbroken summaries)
  have hsplit := @splitAfter_lines _ hlines [] not_mem_nil
  rw [append_nil] at hsplit
  unfold withoutFencedBlocks
  rw [hsplit]
  exact not_mem_unfenced (by decide) (fun _ h => h)
    ((conversationLines_unmarked entries).append (summariesLines_unmarked summaries)) 0

/-- The three sections of a checkpoint, whatever their texts quote. -/
theorem sections_extracted (unmarshal : Bytes → Option (List Bytes))
    (entries : List CheckpointConversationEntry) (notes summaries : List Bytes) :
    let text := renderCheckpointConversation entries ++ renderCheckpointWorkingNotes notes ++
      renderCheckpointEarlierSummaries summaries
    extractMarkdownConversation text = cleanCheckpointConversation entries ∧
      extractCheckpointWorkingNotes unmarshal text = (notes.map trimBytes).filter (· ≠ []) ∧
      extractCheckpointEarlierSummaries text = (summaries.map trimBytes).filter (· ≠ []) := by
  have hapart : checkpointConversationHeading ≠ workingNotesHeading ∧
      checkpointConversationHeading ≠ earlierSummariesHeading ∧
      workingNotesHeading ≠ earlierSummariesHeading := by decide
  obtain ⟨hcn, hcs, hns⟩ := hapart
  rw [render_conversation, render_notes, render_summaries, ← joinLines_append, ← joinLines_append]
  have hc := conversationLines_unbroken entries
  have hn := notesLines_unbroken notes
  have hs := summariesLines_unbroken summaries
  refine ⟨?_, ?_, ?_⟩
  · refine extract_of_section ?_
    have hread := (blocks_of_lines [] (notesLines notes ++ summariesLines summaries)
      conversation_heading (entryBlock_named (cleanCheckpointConversation entries)) .nil
      ((sectionLines_balanced conversation_heading notes_heading hcn.symm _).append
        (sectionLines_balanced conversation_heading summaries_heading hcs.symm _))
      ((sectionLines_headed notes_heading _).append (sectionLines_headed summaries_heading _))
      (hn.append hs) QuietTail.nil).1
    rwa [append_nil, nil_append, ← append_assoc] at hread
  · obtain ⟨hblocks, hnone⟩ := blocks_of_lines (conversationLines entries)
      (summariesLines summaries) notes_heading
      (noteBlock_named ((notes.map trimBytes).filter (· ≠ [])))
      (sectionLines_balanced notes_heading conversation_heading hcn _)
      (sectionLines_balanced notes_heading summaries_heading hns.symm _)
      (sectionLines_headed summaries_heading _) (hc.append hs) QuietTail.nil
    rw [append_nil] at hblocks hnone
    replace hblocks : (parseMarkdownBlocks (markdownSection (joinLines (conversationLines entries ++
        notesLines notes ++ summariesLines summaries)) workingNotesHeading)).map
          CheckpointMarkdownBlock.text = (notes.map trimBytes).filter (· ≠ []) :=
      (congrArg (List.map CheckpointMarkdownBlock.text) hblocks).trans
        ((texts_of_blocks (utf8 "Note") _).trans (filter_trimmed notes))
    unfold extractCheckpointWorkingNotes
    dsimp only
    split
    · have hmap := map_map (f := CheckpointMarkdownBlock.text) (g := trimBytes)
        (l := parseMarkdownBlocks (markdownSection (joinLines (conversationLines entries ++
          notesLines notes ++ summariesLines summaries)) workingNotesHeading))
      rw [hblocks] at hmap
      exact (congrArg (List.filter (· ≠ [])) hmap.symm).trans (filter_trimmed notes)
    · next hempty =>
      have hnotes : (notes.map trimBytes).filter (· ≠ []) = [] :=
        map_eq_nil_iff.mp (hnone.mp (not_not.mp hempty))
      have hlines : notesLines notes = [] := by
        unfold notesLines
        rw [hnotes]
        rfl
      rw [hlines, append_nil, hnotes]
      exact no_notes unmarshal entries summaries
  · have hread := (blocks_of_lines (conversationLines entries ++ notesLines notes) []
      summaries_heading (summaryBlock_named summaries)
      ((sectionLines_balanced summaries_heading conversation_heading hcs _).append
        (sectionLines_balanced summaries_heading notes_heading hns _)) .nil (Or.inl rfl)
      ((hc.append hn).append fun _ h => absurd h not_mem_nil) QuietTail.nil).1
    rw [append_nil, append_nil] at hread
    unfold extractCheckpointEarlierSummaries
    exact (congrArg (List.map CheckpointMarkdownBlock.text) hread).trans
      (texts_of_blocks (utf8 "Summary") summaries)

end Evener.Contextmgr
