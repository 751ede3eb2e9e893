/-
  A summary turn is recognized by its layout, and gives back the partner's messages: in front of
  the model's text are plain lines, and that text is one balanced block.
-/
import Evener.Contextmgr.SummaryTurn

namespace Evener.Contextmgr

open Evener.Lib FenceTracker List

/-! ## The opening -/

/-- A line in front of the model's text: a marker, the pointer or a line of the reminder. -/
structure OpeningLine (line : Bytes) : Prop where
  start : ∃ b rest, line = b :: rest ∧ (b = 91 ∨ b = 69 ∨ b = 60 ∨ b = 89)
  unbroken : newline ∉ line

theorem OpeningLine.plain {line : Bytes} (h : OpeningLine line) : Plain line := by
  obtain ⟨b, rest, rfl, hb⟩ := h.start
  rcases hb with rfl | rfl | rfl | rfl
  · exact Plain.of_start (by decide)
  · exact Plain.of_start (by decide)
  · exact Plain.of_start (by decide)
  · exact Plain.of_start (by decide)

theorem OpeningLine.ne_heading {line rest : Bytes} (h : OpeningLine line) : line ≠ 35 :: rest := by
  obtain ⟨b, rest', rfl, hb⟩ := h.start
  intro heq
  rw [(List.cons.inj heq).1] at hb
  exact absurd hb (by decide)

theorem opening_balanced {heading : Bytes} (hheading : heading.head? = some 35) {lines : List Bytes}
    (h : ∀ line ∈ lines, OpeningLine line) : Balanced (· ≠ heading) lines := by
  obtain ⟨rest, rfl⟩ : ∃ rest, heading = 35 :: rest := by
    cases heading with
    | nil => cases hheading
    | cons b rest => exact ⟨rest, by rw [Option.some.inj hheading]⟩
  induction lines with
  | nil => exact .nil
  | cons line lines ih =>
    have hline := h line mem_cons_self
    exact .line hline.plain hline.ne_heading (ih fun l hl => h l (mem_cons_of_mem _ hl))

theorem pointer_lines (m : Option CompactionMeta) (hid : ∀ own ∈ m, newline ∉ own.sessionID) :
    compactionPointer m (utf8 "summary") = [] ∨ ∃ line,
      compactionPointer m (utf8 "summary") = line ++ [newline] ∧ newline ∉ line ∧
        summaryPointerLead <+: line ∧ OpeningLine line := by
  cases m with
  | none => exact Or.inl rfl
  | some own =>
    by_cases hnone : own.sessionID = []
    · exact Or.inl (if_pos hnone)
    · have hlead : utf8 "Earlier history was compacted into this " ++ utf8 "summary" ++
          utf8 " to free context-window headroom. This session's id is " =
          summaryPointerLead ++ utf8 "to free context-window headroom. This session's id is " := by
        decide
      have hline : newline ∉ summaryPointerLead ++
          utf8 "to free context-window headroom. This session's id is " ++ own.sessionID ++
          utf8 "." ++ transcriptRecoverySentence (some own) := by
        simp only [mem_append, not_or]
        exact ⟨⟨⟨⟨by decide, by decide⟩, hid own rfl⟩, by decide⟩,
          recovery_plain (some own) (Or.inl rfl)⟩
      refine Or.inr ⟨_, ?_, hline, ?_, ⟨?_, hline⟩⟩
      · unfold compactionPointer
        dsimp only
        rw [if_neg hnone, hlead]
      · simp only [append_assoc]
        exact prefix_append _ _
      · exact ⟨69, _, rfl, Or.inr (Or.inl rfl)⟩

theorem reminder_lines (summarized : Nat) (m : Option CompactionMeta) :
    carryReminder summarized m = [] ∨
      carryReminder summarized m = joinLines [utf8 "<SYSTEM-REMINDER>", reminderText summarized m,
        reminderClose] := by
  unfold carryReminder
  split
  · refine Or.inr ?_
    rw [reminder_eq, show reminderOpen = utf8 "<SYSTEM-REMINDER>" ++ [newline] by decide]
    simp
  · exact Or.inl rfl

theorem reminder_openingLine (summarized : Nat) (m : Option CompactionMeta) :
    ∀ line ∈ [utf8 "<SYSTEM-REMINDER>", reminderText summarized m, reminderClose],
      OpeningLine line := by
  intro line hline
  simp only [mem_cons, not_mem_nil, or_false] at hline
  rcases hline with rfl | rfl | rfl
  · exact ⟨⟨60, _, rfl, Or.inr (Or.inr (Or.inl rfl))⟩, by decide⟩
  · exact ⟨⟨89, _, rfl, Or.inr (Or.inr (Or.inr rfl))⟩,
      reminderText_plain summarized m (Or.inl rfl)⟩
  · exact ⟨⟨60, _, rfl, Or.inr (Or.inr (Or.inl rfl))⟩, by decide⟩

/-- What stands in front of the model's text. -/
def summaryTurnOpening (m : Option CompactionMeta) (summarized : Nat) : Bytes :=
  summaryTurnStart ++ compactionPointer m (utf8 "summary") ++ carryReminder summarized m

theorem opening_lines (m : Option CompactionMeta) (summarized : Nat)
    (hid : ∀ own ∈ m, newline ∉ own.sessionID) :
    ∃ lines, summaryTurnOpening m summarized = joinLines lines ∧
      ∀ line ∈ lines, OpeningLine line := by
  have hstart : OpeningLine summaryMarkerStart := ⟨⟨91, _, rfl, Or.inl rfl⟩, by decide⟩
  obtain ⟨pointer, hpointer, hpointerLines⟩ : ∃ lines, compactionPointer m (utf8 "summary") =
      joinLines lines ∧ ∀ line ∈ lines, OpeningLine line := by
    rcases pointer_lines m hid with hnone | ⟨line, hline, _, _, hopening⟩
    · exact ⟨[], hnone, fun _ h => absurd h not_mem_nil⟩
    · exact ⟨[line], by simp [hline], fun _ h => mem_singleton.mp h ▸ hopening⟩
  obtain ⟨reminder, hreminder, hreminderLines⟩ : ∃ lines, carryReminder summarized m =
      joinLines lines ∧ ∀ line ∈ lines, OpeningLine line := by
    rcases reminder_lines summarized m with hnone | hlines
    · exact ⟨[], hnone, fun _ h => absurd h not_mem_nil⟩
    · exact ⟨_, hlines, reminder_openingLine summarized m⟩
  refine ⟨summaryMarkerStart :: (pointer ++ reminder), ?_, fun line hline => ?_⟩
  · unfold summaryTurnOpening summaryTurnStart
    rw [hpointer, hreminder]
    simp
  · rcases mem_cons.mp hline with rfl | hline
    · exact hstart
    · rcases mem_append.mp hline with hline | hline
      · exact hpointerLines line hline
      · exact hreminderLines line hline

/-- The opening is recognized, with its pointer and its reminder or without them. -/
theorem opening_recognized (m : Option CompactionMeta) (summarized : Nat)
    (hid : ∀ own ∈ m, newline ∉ own.sessionID) :
    isSummaryTurnOpening (summaryTurnOpening m summarized) = true := by
  have hbehind : behindPointer (compactionPointer m (utf8 "summary") ++ carryReminder summarized m) =
      carryReminder summarized m := by
    unfold behindPointer
    rcases pointer_lines m hid with hnone | ⟨line, hline, hunbroken, hlead, _⟩
    · rw [hnone, nil_append]
      rcases reminder_lines summarized m with hreminder | hreminder
      · rw [hreminder]
        rfl
      · have hcut := @cutBytes_first _ _ (joinLines [reminderText summarized m, reminderClose])
          (show newline ∉ utf8 "<SYSTEM-REMINDER>" by decide)
        rw [hreminder, joinLines_cons, hcut]
        exact if_neg (by decide)
    · rw [hline, append_assoc, singleton_append, cutBytes_first hunbroken]
      exact if_pos ( isPrefixOf_iff_prefix.mpr hlead)
  have hlayout : carryReminder summarized m = [] ∨
      ((carryReminder summarized m).getLast? = some newline ∧
        isReminderBlock (carryReminder summarized m).dropLast = true) := by
    unfold carryReminder
    split
    · refine Or.inr ⟨?_, ?_⟩
      · rw [reminder_eq, getLast?_concat]
      · rw [reminder_eq, dropLast_concat]
        exact isReminderBlock_reminder summarized m
    · exact Or.inl rfl
  unfold isSummaryTurnOpening summaryTurnOpening
  rw [append_assoc, if_pos ( isPrefixOf_iff_prefix.mpr (prefix_append _ _)),
    drop_left]
  dsimp only
  rw [hbehind]
  rcases hlayout with hnone | ⟨hlast, hblock⟩
  · rw [hnone]
    rfl
  · rw [hlast, hblock]
    simp

/-! ## The model's text -/

/-- The lines behind the heading of the model's text. -/
def modelBody (reply : Bytes) : List Bytes := [] :: (fencedLines reply ++ [[]])

theorem render_model (reply : Bytes) :
    renderCompactionModelText summaryModelTextHeading reply =
      joinLines (summaryModelTextHeading :: modelBody reply) := by
  unfold renderCompactionModelText modelBody
  rw [writeMarkdownFence_eq, show utf8 "\n\n" = [newline, newline] by decide]
  simp

theorem modelBody_balanced (reply : Bytes) : Balanced SubLine (modelBody reply) :=
  .line Plain.nil (Or.inl rfl) (.block reply (.line Plain.nil (Or.inl rfl) .nil))

theorem modelBody_unbroken (reply : Bytes) : Unbroken (modelBody reply) := by
  intro line hline
  unfold modelBody at hline
  rw [mem_cons, mem_append, mem_singleton] at hline
  rcases hline with rfl | hline | rfl
  · exact not_mem_nil
  · exact fencedLines_unbroken reply line hline
  · exact not_mem_nil

theorem trimmed_fence {b : Bytes} (h : b.head? = some backtick) (h' : b.getLast? = some backtick) :
    Trimmed b :=
  Trimmed.of_ends h h' (by decide) (by decide)

theorem closedBy_content {n : Nat} (hn : 3 ≤ n) (lines read : List Bytes)
    (hruns : ∀ line ∈ lines, ∀ a b k, line = a ++ List.replicate k backtick ++ b → k < n) :
    closedBy (opened n) read (lines ++ [List.replicate n backtick]) =
      some (joinBytes (read ++ lines)) := by
  induction lines generalizing read with
  | nil =>
    rw [nil_append, closedBy, closing_step hn, append_nil]
    rfl
  | cons line lines ih =>
    rw [cons_append, closedBy, content_step hn (hruns line mem_cons_self)]
    rw [if_neg (by simp), ih _ fun l hl => hruns l (mem_cons_of_mem _ hl), append_assoc,
      singleton_append]

theorem soleFencedText_of {markdown first second : Bytes} {rest : List Bytes} {fence : FenceTracker}
    (hlines : splitBytes (trimBytes markdown) = first :: second :: rest)
    (hopens : FenceTracker.step {} first = (true, fence)) :
    soleFencedText markdown = closedBy fence [] (second :: rest) := by
  unfold soleFencedText
  rw [hlines]
  dsimp only
  rw [hopens]
  rfl

/-- The model's text, but for a newline at its end. -/
theorem sole_modelBody (reply : Bytes) :
    soleFencedText (joinLines (modelBody reply)) = some (joinBytes (contentLines reply)) := by
  have hn := three_le_fence reply
  obtain ⟨k, hk⟩ : ∃ k, fenceLength reply = k + 1 := ⟨fenceLength reply - 1, by omega⟩
  have hbody : joinLines (modelBody reply) = [newline] ++
      (joinLines ((markdownFence reply ++ utf8 "text") :: contentLines reply) ++
        markdownFence reply) ++ [newline, newline] := by
    unfold modelBody fencedLines
    simp
  have htrim := trimBytes_unique (Blank.mark (m := [newline]) (by decide))
    (trimmed_fence
      (b := joinLines ((markdownFence reply ++ utf8 "text") :: contentLines reply) ++
        markdownFence reply) (by
        rw [markdownFence_eq, hk, replicate_succ]
        rfl) (by
        rw [markdownFence_eq, hk, replicate_succ', getLast?_append_of_ne_nil _ (by simp),
          getLast?_concat]))
    ((Blank.mark (m := [newline]) (by decide)).append (Blank.mark (m := [newline]) (by decide)))
  have hunbroken : Unbroken ((markdownFence reply ++ utf8 "text") :: contentLines reply) :=
    fun line hline => fencedLines_unbroken reply line (mem_append_left _ hline)
  obtain ⟨first, rest, hlines⟩ := exists_cons_of_ne_nil (contentLines_ne_nil reply)
  have hsplit := splitBytes_lines hunbroken (newline_not_mem_fence reply)
  rw [← htrim, hlines] at hsplit
  have hcontent := closedBy_content hn (contentLines reply) [] fun line hline a b k =>
    content_runs hline a b k
  rw [hlines] at hcontent
  rw [hbody, hlines]
  exact (soleFencedText_of hsplit (opening_step hn 0)).trans hcontent

/-- The newline that the block puts behind the model's text changes nothing. -/
theorem writeMarkdownFence_ended (reply : Bytes) :
    writeMarkdownFence (joinBytes (contentLines reply) ++ [newline]) = writeMarkdownFence reply := by
  rw [joinBytes_lines (contentLines_ne_nil reply), joinLines_contentLines]
  split
  · rfl
  · next hended =>
    have hlength : fenceLength (reply ++ [newline]) = fenceLength reply := by
      obtain ⟨current, hrun⟩ := longestRun_append reply [newline] 0 0
      unfold fenceLength
      rw [hrun]
      rfl
    unfold writeMarkdownFence
    rw [markdownFence_eq, markdownFence_eq, hlength, if_neg hended, if_pos (by simp)]
    simp

/-! ## The turn -/

theorem model_heading : Heading summaryModelTextHeading :=
  ⟨Plain.of_start (b := 35) (by decide), by decide, by decide⟩

theorem markerEnd_quiet : QuietTail summaryMarkerEnd :=
  ⟨by decide, Plain.of_start (b := 91) (by decide), by decide, by decide⟩

theorem modelLines_unbroken (reply : Bytes) :
    Unbroken (summaryModelTextHeading :: modelBody reply) := by
  intro line hline
  rcases mem_cons.mp hline with rfl | hline
  · exact model_heading.unbroken
  · exact modelBody_unbroken reply line hline

theorem summaryTurnHead_eq (m : Option CompactionMeta) (summarized : Nat) (reply : Bytes) :
    summaryTurnHead m summarized reply = summaryTurnOpening m summarized ++
      renderCompactionModelText summaryModelTextHeading reply := rfl

theorem headLines_balanced {opening : List Bytes} (h : ∀ line ∈ opening, OpeningLine line)
    (reply : Bytes) : Balanced (· ≠ checkpointConversationHeading)
      (opening ++ summaryModelTextHeading :: modelBody reply) :=
  (opening_balanced rfl h).append (.line model_heading.plain (by decide)
    ((modelBody_balanced reply).imp fun _ => conversation_heading.not_sub))

theorem headLines_unbroken {opening : List Bytes} (h : ∀ line ∈ opening, OpeningLine line)
    (reply : Bytes) : Unbroken (opening ++ summaryModelTextHeading :: modelBody reply) :=
  Unbroken.append (fun line hline => (h line hline).unbroken) (modelLines_unbroken reply)

section Turn

variable (m : Option CompactionMeta) (summarized : Nat) (reply : Bytes)
  (entries : List CheckpointConversationEntry) (hid : ∀ own ∈ m, newline ∉ own.sessionID)

include hid

/-- The turn in lines, but for its last. -/
theorem summaryTurn_lines :
    ∃ opening, (∀ line ∈ opening, OpeningLine line) ∧
      summaryTurnOpening m summarized = joinLines opening ∧
      summaryTurnHead m summarized reply =
        joinLines (opening ++ summaryModelTextHeading :: modelBody reply) ∧
      summaryTurnText m summarized reply entries =
        joinLines (opening ++ (summaryModelTextHeading :: modelBody reply) ++
          conversationLines entries) ++ summaryMarkerEnd := by
  obtain ⟨opening, hopening, hlines⟩ := opening_lines m summarized hid
  have hhead : summaryTurnHead m summarized reply =
      joinLines (opening ++ summaryModelTextHeading :: modelBody reply) := by
    rw [summaryTurnHead_eq, hopening, render_model, joinLines_append]
  refine ⟨opening, hlines, hopening, hhead, ?_⟩
  unfold summaryTurnText
  rw [hhead, render_conversation, joinLines_append (opening ++ _)]

theorem summaryTurn_extracted :
    extractMarkdownConversation (summaryTurnText m summarized reply entries) =
      cleanCheckpointConversation entries := by
  obtain ⟨opening, hlines, _, _, htext⟩ := summaryTurn_lines m summarized reply entries hid
  have hunbroken := headLines_unbroken hlines reply
  have hread := (blocks_of_lines (opening ++ summaryModelTextHeading :: modelBody reply) []
    conversation_heading (entryBlock_named (cleanCheckpointConversation entries))
    (headLines_balanced hlines reply) .nil (Or.inl rfl) (by rwa [append_nil])
    markerEnd_quiet).1
  rw [append_nil] at hread
  rw [htext]
  exact extract_of_section hread

variable (hsome : cleanCheckpointConversation entries ≠ [])

include hsome

/-- The model's text stands between its heading and the conversation's. -/
theorem summaryTurn_span :
    markdownSectionSpan (summaryTurnText m summarized reply entries) summaryModelTextHeading =
      some ⟨(summaryTurnOpening m summarized).length,
        (summaryTurnOpening m summarized ++ summaryModelTextHeading ++ [newline]).length,
        (summaryTurnHead m summarized reply).length⟩ := by
  obtain ⟨opening, hlines, hopening, hhead, htext⟩ :=
    summaryTurn_lines m summarized reply entries hid
  have hunbroken := (headLines_unbroken hlines reply).append (conversationLines_unbroken entries)
  rw [conversationLines_cons hsome] at hunbroken htext
  have hspan := span_inner hunbroken markerEnd_quiet.unbroken (opening_balanced rfl hlines)
    model_heading.plain ((modelBody_balanced reply).imp fun _ => SubLine.not_boundary)
    (cons_ne_nil _ _) conversation_heading.plain conversation_heading.boundary
  rw [htext, hspan, hopening, hhead]
  simp

theorem summaryTurn_carries (hroles : ∀ entry ∈ entries, entry.role = utf8 "user") :
    carriesPartnerMessages (summaryTurnText m summarized reply entries) = true := by
  have hspan := summaryTurn_span m summarized reply entries hid hsome
  have hextract := summaryTurn_extracted m summarized reply entries hid
  have hbehind : summaryTurnText m summarized reply entries = summaryTurnOpening m summarized ++
      (renderCompactionModelText summaryModelTextHeading reply ++
        renderCheckpointConversation entries ++ summaryMarkerEnd) := by
    unfold summaryTurnText
    rw [summaryTurnHead_eq]
    simp only [append_assoc]
  have hsection : ((summaryTurnText m summarized reply entries).take
      (summaryTurnHead m summarized reply).length).drop
      (summaryTurnOpening m summarized ++ summaryModelTextHeading ++ [newline]).length =
      joinLines (modelBody reply) := by
    unfold summaryTurnText
    rw [append_assoc (summaryTurnHead m summarized reply), take_left, summaryTurnHead_eq,
      render_model, joinLines_cons,
      append_cons summaryModelTextHeading newline, ← append_assoc, ← append_assoc,
      drop_left]
  have huser : (cleanCheckpointConversation entries).all (fun entry => entry.role = utf8 "user") =
      true := by
    refine all_eq_true.mpr fun entry hentry => decide_eq_true ?_
    obtain ⟨raw, hraw, hclean⟩ := mem_filterMap.mp hentry
    have hrole : lowerBytes (trimBytes (utf8 "user")) = utf8 "user" := by decide
    unfold cleanEntry at hclean
    dsimp only at hclean
    rw [hroles raw hraw, hrole] at hclean
    split at hclean
    · cases hclean
    · rw [if_pos rfl] at hclean
      cases hclean
      rfl
  have hagain : renderCheckpointConversation (cleanCheckpointConversation entries) =
      renderCheckpointConversation entries := by
    unfold renderCheckpointConversation
    rw [clean_clean]
  have hmodel : renderCompactionModelText summaryModelTextHeading
      (joinBytes (contentLines reply) ++ [newline]) =
      renderCompactionModelText summaryModelTextHeading reply := by
    unfold renderCompactionModelText
    rw [writeMarkdownFence_ended]
  unfold carriesPartnerMessages
  rw [hspan]
  dsimp only
  rw [hsection, sole_modelBody]
  dsimp only
  rw [hextract, huser, hagain, hmodel, hbehind, take_left, drop_left,
    opening_recognized m summarized hid]
  simp

theorem summaryTurn_removed :
    withoutMarkdownSection (summaryTurnText m summarized reply entries)
      checkpointConversationHeading = summaryTurnHead m summarized reply := by
  obtain ⟨opening, hlines, _, hhead, htext⟩ := summaryTurn_lines m summarized reply entries hid
  have hunbroken := (headLines_unbroken hlines reply).append (conversationLines_unbroken entries)
  rw [conversationLines_cons hsome] at hunbroken htext
  have hspan := span_last hunbroken markerEnd_quiet.unbroken (headLines_balanced hlines reply)
    conversation_heading.plain
    ((sectionBody_balanced _).imp fun _ => SubLine.not_boundary) markerEnd_quiet.plain
    markerEnd_quiet.boundary
  unfold withoutMarkdownSection
  rw [htext, hspan]
  dsimp only
  rw [drop_length, append_nil, joinLines_append _ (checkpointConversationHeading :: _),
    append_assoc, take_left, hhead]

end Turn

/-- What compaction renders into a turn it reads back: the sections of a checkpoint, and the
    partner's messages of a summary turn whose session id is one line. The section of these goes
    to the end of the turn, closing marker included. -/
theorem sections_and_turns_read_back :
    (∀ (unmarshal : Bytes → Option (List Bytes)) (entries : List CheckpointConversationEntry)
      (notes summaries : List Bytes),
      let text := renderCheckpointConversation entries ++ renderCheckpointWorkingNotes notes ++
        renderCheckpointEarlierSummaries summaries
      extractMarkdownConversation text = cleanCheckpointConversation entries ∧
        extractCheckpointWorkingNotes unmarshal text = (notes.map trimBytes).filter (· ≠ []) ∧
        extractCheckpointEarlierSummaries text = (summaries.map trimBytes).filter (· ≠ [])) ∧
    ∀ (m : Option CompactionMeta) (summarized : Nat) (reply : Bytes)
      (entries : List CheckpointConversationEntry),
      (∀ own ∈ m, newline ∉ own.sessionID) → (∀ entry ∈ entries, entry.role = utf8 "user") →
      cleanCheckpointConversation entries ≠ [] →
      carriesPartnerMessages (summaryTurnText m summarized reply entries) = true ∧
        extractMarkdownConversation (summaryTurnText m summarized reply entries) =
          cleanCheckpointConversation entries ∧
        withoutMarkdownSection (summaryTurnText m summarized reply entries)
          checkpointConversationHeading = summaryTurnHead m summarized reply := by
  refine ⟨sections_extracted, fun m summarized reply entries hid hroles hsome => ⟨?_, ?_, ?_⟩⟩
  · exact summaryTurn_carries m summarized reply entries hid hsome hroles
  · exact summaryTurn_extracted m summarized reply entries hid
  · exact summaryTurn_removed m summarized reply entries hid hsome

/-- The message of a partner. -/
def partnerMessage (text : Bytes) : CheckpointConversationEntry := ⟨utf8 "user", text⟩

/-- A reply and a message that both quote the format are read back. -/
theorem sections_and_turns_read_back_quoting :
    let reply := utf8 "## Conversation\n```text\nDone.\n```"
    let message := partnerMessage (utf8 "1. ````\n## Summary\n### User\n[END SUMMARY]")
    let turn := summaryTurnText (some { sessionID := utf8 "s1", transcriptKept := true }) 2 reply [message]
    carriesPartnerMessages turn = true ∧ extractMarkdownConversation turn = [message] := by
  have hturn := sections_and_turns_read_back.2
    (some { sessionID := utf8 "s1", transcriptKept := true }) 2
    (utf8 "## Conversation\n```text\nDone.\n```")
    [partnerMessage (utf8 "1. ````\n## Summary\n### User\n[END SUMMARY]")]
    (by
      intro own hown
      rw [← Option.some.inj hown]
      decide)
    (by
      intro entry hentry
      rw [mem_singleton.mp hentry]
      rfl)
    (by decide)
  have hclean : cleanCheckpointConversation
      [partnerMessage (utf8 "1. ````\n## Summary\n### User\n[END SUMMARY]")] =
      [partnerMessage (utf8 "1. ````\n## Summary\n### User\n[END SUMMARY]")] := by decide
  exact ⟨hturn.1, hturn.2.1.trans hclean⟩

/-- A turn without messages, or with a session id of two lines, is not recognized; and the closing
    marker is removed with the messages. -/
theorem summary_turn_not_read_back :
    let held := [partnerMessage (utf8 "Hold the release.")]
    carriesPartnerMessages (summaryTurnText none 0 (utf8 "Done.") []) = false ∧
      carriesPartnerMessages
        (summaryTurnText (some { sessionID := utf8 "a\nb" }) 0 (utf8 "Done.") held) = false ∧
      withoutMarkdownSection (summaryTurnText none 0 (utf8 "Done.") held)
        checkpointConversationHeading ≠ summaryTurnHead none 0 (utf8 "Done.") ++ summaryMarkerEnd := by
  decide +kernel

end Evener.Contextmgr
