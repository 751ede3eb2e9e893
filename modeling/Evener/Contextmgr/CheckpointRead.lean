/-
  The conversation of a checkpoint is read back, if the lines of its fixed part are plain.
-/
import Evener.Contextmgr.Checkpoint
import Evener.Contextmgr.Sections

namespace Evener.Contextmgr

open Evener.Lib FenceTracker List

/-- A section with empty lines behind it. -/
theorem parse_spaced {blocks : List CheckpointMarkdownBlock} (h : ∀ b ∈ blocks, b.Named) (n : Nat) :
    parseMarkdownBlocks (joinLines (sectionBody blocks ++ List.replicate n [])) =
      blocks.filterMap readBlock := by
  have hstart : BlockReader.Between {} := ⟨⟨0, rfl⟩, Or.inl rfl⟩
  have hblank : ∀ {r : BlockReader}, r.Between → r.read [] = r := fun hr =>
    BlockReader.read_plain hr Plain.nil (by decide)
  have hblanks : ∀ (k : Nat) {r : BlockReader}, r.Between →
      (List.replicate k []).foldl BlockReader.read r = r := by
    intro k
    induction k with
    | zero => exact fun _ => rfl
    | succ k ih =>
      intro r hr
      rw [replicate_succ, foldl_cons, hblank hr, ih hr]
  have hlines : Unbroken (sectionBody blocks ++ List.replicate n []) := by
    refine (sectionBody_unbroken h).append fun line hline => ?_
    rw [eq_of_mem_replicate hline]
    exact not_mem_nil
  obtain ⟨hbetween, hflush⟩ := foldl_blocks h hstart
  have hsplit := @splitBytes_lines _ hlines [] not_mem_nil
  rw [append_nil] at hsplit
  have hbody : (sectionBody blocks).foldl BlockReader.read {} =
      (blocks.flatMap blockLines).foldl BlockReader.read {} := by
    unfold sectionBody
    rw [foldl_cons, hblank hstart]
  unfold parseMarkdownBlocks
  rw [hsplit, foldl_append, foldl_append, hbody, hblanks n hbetween, foldl_cons,
    foldl_nil, hblank hbetween, hflush]
  rfl

theorem blanks_balanced (n : Nat) :
    Balanced (fun line => boundaryLine line = false) (List.replicate n []) := by
  induction n with
  | zero => exact .nil
  | succ n ih =>
    rw [replicate_succ]
    exact .line Plain.nil (by decide) ih

theorem fitSummaries_lines (budget : Int) (summaries : List Bytes) :
    ∃ kept, fitSummaries budget summaries = joinLines (summariesLines kept) := by
  induction summaries with
  | nil => exact ⟨[], render_summaries []⟩
  | cons summary rest ih =>
    cases rest with
    | nil =>
      rw [fitSummaries]
      dsimp only
      split
      · exact ⟨[summary], render_summaries _⟩
      · split
        · exact ⟨[], rfl⟩
        · exact ⟨[_], render_summaries _⟩
    | cons next rest =>
      rw [fitSummaries]
      split
      · exact ⟨_, render_summaries _⟩
      · exact ih

theorem spaced_lines (lines : List Bytes) :
    spaced (joinLines lines) = joinLines (if lines = [] then [] else [] :: lines) := by
  unfold spaced
  cases lines with
  | nil => rfl
  | cons line lines =>
    rw [if_neg (by simp), if_neg (cons_ne_nil _ _), joinLines_cons []]
    rfl

/-- The lines behind the conversation. -/
def closingLines (notes : List Bytes) : List Bytes :=
  (if notesLines notes = [] then [] else [] :: notesLines notes) ++ [utf8 "[END CHECKPOINT]"]

theorem closingLines_unbroken (notes : List Bytes) : Unbroken (closingLines notes) := by
  refine Unbroken.append ?_ fun line hline => ?_
  · split
    · exact fun _ h => absurd h not_mem_nil
    · intro line hline
      rcases mem_cons.mp hline with rfl | hline
      · exact not_mem_nil
      · exact notesLines_unbroken notes line hline
  · rw [mem_singleton.mp hline]
    decide

theorem end_plain : Plain (utf8 "[END CHECKPOINT]") := Plain.of_start (b := 91) (by decide)

theorem closingLines_balanced (notes : List Bytes) :
    Balanced (· ≠ checkpointConversationHeading) (closingLines notes) := by
  refine Balanced.append ?_ (.line end_plain (by decide) .nil)
  split
  · exact .nil
  · exact .line Plain.nil (by decide)
      (sectionLines_balanced conversation_heading notes_heading (by decide) _)

/-- Behind empty lines they begin with a line that ends a section. -/
theorem closingLines_ends (notes : List Bytes) :
    ∃ n next rest, closingLines notes = List.replicate n [] ++ next :: rest ∧ Plain next ∧
      boundaryLine next = true := by
  unfold closingLines notesLines sectionLines
  by_cases hnone : ((notes.map trimBytes).filter (· ≠ [])).map noteBlock = []
  · rw [if_pos hnone, if_pos rfl]
    exact ⟨0, _, [], rfl, end_plain, by decide⟩
  · rw [if_neg hnone, if_neg (cons_ne_nil _ _)]
    exact ⟨1, _, _, rfl, notes_heading.plain, notes_heading.boundary⟩

section Read

variable {data : CheckpointData} {m : Option CompactionMeta} {maxChars : Int} {fixed : List Bytes}

/-- The checkpoint in lines. -/
theorem checkpoint_lines (hfixed : fixedPart data m = joinLines fixed) :
    ∃ summaries, formatCheckpoint data m maxChars =
      joinLines (utf8 "[CONTEXT CHECKPOINT]" :: summariesLines summaries ++ fixed ++
        (if conversationLines (keptConversation data m maxChars) = [] then []
          else [] :: conversationLines (keptConversation data m maxChars)) ++
        closingLines (keptNotes data m maxChars)) := by
  obtain ⟨summaries, hsummaries⟩ := fitSummaries_lines
    (min (maxChars.tdiv 2) (maxChars - frame data m - minVariableBudget)) data.earlierSummaries
  change summariesMarkdown data m maxChars = _ at hsummaries
  have hmarks : utf8 "[CONTEXT CHECKPOINT]\n" = utf8 "[CONTEXT CHECKPOINT]" ++ [newline] ∧
      utf8 "[END CHECKPOINT]\n" = utf8 "[END CHECKPOINT]" ++ [newline] := by decide
  refine ⟨summaries, ?_⟩
  unfold formatCheckpoint closingLines
  rw [hsummaries, hfixed, render_conversation, render_notes, spaced_lines, spaced_lines, hmarks.1,
    hmarks.2]
  simp only [joinLines_append, joinLines_cons, joinLines_nil, append_assoc, cons_append,
    nil_append]

/-- A checkpoint gives back the conversation it keeps. -/
theorem checkpoint_extracted (hfixed : fixedPart data m = joinLines fixed) (hunbroken : Unbroken fixed)
    (hplain : Balanced (· ≠ checkpointConversationHeading) fixed) :
    extractMarkdownConversation (formatCheckpoint data m maxChars) =
      cleanCheckpointConversation (keptConversation data m maxChars) := by
  refine extract_of_section ?_
  obtain ⟨summaries, htext⟩ := @checkpoint_lines data m maxChars fixed hfixed
  have hbefore : Balanced (· ≠ checkpointConversationHeading)
      (utf8 "[CONTEXT CHECKPOINT]" :: summariesLines summaries ++ fixed) :=
    (Balanced.line (Plain.of_start (b := 91) (by decide)) (by decide)
      (sectionLines_balanced conversation_heading summaries_heading (by decide) _)).append hplain
  have hbeforeLines : Unbroken
      (utf8 "[CONTEXT CHECKPOINT]" :: summariesLines summaries ++ fixed) := by
    intro line hline
    rw [cons_append, mem_cons, mem_append] at hline
    rcases hline with rfl | hline | hline
    · decide
    · exact summariesLines_unbroken summaries line hline
    · exact hunbroken line hline
  generalize utf8 "[CONTEXT CHECKPOINT]" :: summariesLines summaries ++ fixed = before
    at hbefore hbeforeLines htext
  have hafter := closingLines_balanced (keptNotes data m maxChars)
  have hafterLines := closingLines_unbroken (keptNotes data m maxChars)
  rw [htext]
  by_cases hnone : cleanCheckpointConversation (keptConversation data m maxChars) = []
  · have hlines : conversationLines (keptConversation data m maxChars) = [] := by
      unfold conversationLines
      rw [hnone]
      rfl
    have hsection := @section_none _ [] _ (hbeforeLines.append hafterLines) not_mem_nil
      (hbefore.append hafter) Plain.nil
    rw [append_nil] at hsection
    rw [hlines, if_pos rfl, append_nil, hnone, hsection]
    rfl
  · have hlines := conversationLines_cons hnone
    have hnamed := entryBlock_named (cleanCheckpointConversation (keptConversation data m maxChars))
    obtain ⟨n, next, rest, hclosing, hnext, hboundary⟩ :=
      closingLines_ends (keptNotes data m maxChars)
    have hbody : Balanced (fun line => boundaryLine line = false) (sectionBody
        ((cleanCheckpointConversation (keptConversation data m maxChars)).map entryBlock) ++
          List.replicate n []) :=
      ((sectionBody_balanced _).imp fun _ => SubLine.not_boundary).append (blanks_balanced n)
    have hsplit : before ++ ([] :: conversationLines (keptConversation data m maxChars)) ++
        closingLines (keptNotes data m maxChars) = (before ++ [[]]) ++
          checkpointConversationHeading :: (sectionBody ((cleanCheckpointConversation
            (keptConversation data m maxChars)).map entryBlock) ++ List.replicate n []) ++
          next :: rest := by
      rw [hlines, hclosing]
      simp
    have hall : Unbroken (before ++ ([] :: conversationLines (keptConversation data m maxChars)) ++
        closingLines (keptNotes data m maxChars)) := by
      refine (hbeforeLines.append fun line hline => ?_).append hafterLines
      rcases mem_cons.mp hline with rfl | hline
      · exact not_mem_nil
      · exact conversationLines_unbroken _ line hline
    have hsection := @section_inner _ [] _ _ _ _ (hsplit ▸ hall) not_mem_nil
      (hbefore.append (.line Plain.nil (by decide) .nil)) conversation_heading.plain hbody
      (by simp [sectionBody]) hnext hboundary
    rw [append_nil] at hsection
    rw [if_neg (by rw [hlines]; exact cons_ne_nil _ _), hsplit, hsection]
    exact parse_spaced hnamed n

end Read

end Evener.Contextmgr
