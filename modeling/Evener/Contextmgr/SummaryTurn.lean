/-
  The summary turn: a model's text, and the partner's messages it carries verbatim.
-/
import Evener.Contextmgr.Sections

namespace Evener.Contextmgr

open Evener.Lib FenceTracker List

/-! ## Opening lines -/

def CompactionMeta.hasTool (m : CompactionMeta) (tool : String) : Bool :=
  m.availableTranscriptTools.contains tool

def transcriptRecoverySentence : Option CompactionMeta → Bytes
  | none => []
  | some m =>
    if m.hasTool "read_transcript" && m.hasTool "find_session_transcripts" then
      utf8 " Use read_transcript to recover earlier detail, or find_session_transcripts to search it."
    else if m.hasTool "read_transcript" then
      utf8 " Use read_transcript to recover earlier detail."
    else if m.hasTool "find_session_transcripts" then
      utf8 " Use find_session_transcripts to search this session's transcript."
    else []

def compactionPointer (m : Option CompactionMeta) (artifact : Bytes) : Bytes :=
  match m with
  | none => []
  | some own =>
    if own.sessionID = [] then []
    else
      utf8 "Earlier history was compacted into this " ++ artifact ++
        utf8 " to free context-window headroom. This session's id is " ++ own.sessionID ++ utf8 "." ++
        transcriptRecoverySentence m ++ [newline]

def hasTranscript : Option CompactionMeta → Bool
  | none => false
  | some m => m.sessionID ≠ [] && m.transcriptKept

def reminderOpen : Bytes := utf8 "<SYSTEM-REMINDER>\n"
def reminderClose : Bytes := utf8 "</SYSTEM-REMINDER>"

def reminderBlock (inner : Bytes) : Bytes :=
  reminderOpen ++ inner ++ (if inner.getLast? = some newline then [] else [newline]) ++ reminderClose

def countFrom (sep : Bytes) : Nat → Bytes → Nat
  | 0, _ => 0
  | n + 1, text =>
    match cutBytes sep text with
    | none => 0
    | some (_, after) => countFrom sep n after + 1

/-- `strings.Count` of a separator that is not empty. -/
def countBytes (sep text : Bytes) : Nat := countFrom sep (text.length + 1) text

def isReminderBlock (text : Bytes) : Bool :=
  reminderOpen.isPrefixOf text && reminderClose.isSuffixOf text && countBytes reminderClose text == 1

def partnerCarryReminder (summarized : Nat) (m : Option CompactionMeta) : Bytes :=
  reminderBlock (utf8 "Your human partner's " ++ decimal summarized ++
    utf8 " earliest messages folded here are summarized above, not quoted." ++
    transcriptRecoverySentence m) ++ [newline]

/-! ## Recognizing the layout -/

def summaryPointerLead : Bytes := utf8 "Earlier history was compacted into this summary "

/-- Without the line of the compaction pointer. -/
def behindPointer (rest : Bytes) : Bytes :=
  match cutBytes [newline] rest with
  | some (line, after) => if summaryPointerLead.isPrefixOf line then after else rest
  | none => rest

def isSummaryTurnOpening (opening : Bytes) : Bool :=
  if summaryTurnStart.isPrefixOf opening then
    let rest := behindPointer (opening.drop summaryTurnStart.length)
    rest = [] || (rest.getLast? = some newline && isReminderBlock rest.dropLast)
  else false

/-- The lines up to the one that closes the block, if that is the last line. -/
def closedBy (fence : FenceTracker) (read : List Bytes) : List Bytes → Option Bytes
  | [] => none
  | line :: rest =>
    if (fence.step line).1 then if rest = [] then some (joinBytes read) else none
    else closedBy (fence.step line).2 (read ++ [line]) rest

def soleFencedText (markdown : Bytes) : Option Bytes :=
  match splitBytes (trimBytes markdown) with
  | first :: second :: rest =>
    let (isFence, fence) := FenceTracker.step {} first
    if isFence then closedBy fence [] (second :: rest) else none
  | _ => none

def carriesPartnerMessages (text : Bytes) : Bool :=
  match markdownSectionSpan text summaryModelTextHeading with
  | none => false
  | some span =>
    match soleFencedText ((text.take span.stop).drop span.body) with
    | none => false
    | some modelText =>
      let entries := extractMarkdownConversation text
      entries.all (fun entry => entry.role = utf8 "user") &&
        isSummaryTurnOpening (text.take span.start) &&
        text.drop span.start =
          renderCompactionModelText summaryModelTextHeading (modelText ++ [newline]) ++
            renderCheckpointConversation entries ++ summaryMarkerEnd

/-- The reminder of `summarized` messages that the turn does not quote. -/
def carryReminder (summarized : Nat) (m : Option CompactionMeta) : Bytes :=
  if 0 < summarized then partnerCarryReminder summarized m else []

/-- The turn in front of the partner's messages. -/
def summaryTurnHead (m : Option CompactionMeta) (summarized : Nat) (reply : Bytes) : Bytes :=
  summaryTurnStart ++ compactionPointer m (utf8 "summary") ++ carryReminder summarized m ++
    renderCompactionModelText summaryModelTextHeading reply

/-- The text of the turn that `summarizeFold` writes. -/
def summaryTurnText (m : Option CompactionMeta) (summarized : Nat) (reply : Bytes)
    (entries : List CheckpointConversationEntry) : Bytes :=
  summaryTurnHead m summarized reply ++ renderCheckpointConversation entries ++ summaryMarkerEnd

/-! ## One reminder -/

theorem cutBytes_last {c : UInt8} {sep before : Bytes} (h : c ∉ before) :
    cutBytes (c :: sep) (before ++ c :: sep) = some (before, []) := by
  induction before with
  | nil =>
    rw [nil_append, cutBytes, if_pos (by simp), drop_length]
  | cons b rest ih =>
    rw [mem_cons, not_or] at h
    have hpre : ¬ (c :: sep).isPrefixOf (b :: (rest ++ c :: sep)) = true := by
      rw [ isPrefixOf_iff_prefix, cons_prefix_cons]
      exact fun hpre => h.1 hpre.1
    rw [cons_append, cutBytes, if_neg hpre, ih h.2]
    rfl

theorem recovery_plain (m : Option CompactionMeta) {b : UInt8} (h : b = newline ∨ b = 60) :
    b ∉ transcriptRecoverySentence m := by
  unfold transcriptRecoverySentence
  split
  · exact not_mem_nil
  · split
    · rcases h with rfl | rfl
      · decide
      · decide
    · split
      · rcases h with rfl | rfl
        · decide
        · decide
      · split
        · rcases h with rfl | rfl
          · decide
          · decide
        · exact not_mem_nil

/-- The text inside a reminder is one line without markup. -/
def reminderText (summarized : Nat) (m : Option CompactionMeta) : Bytes :=
  utf8 "Your human partner's " ++ decimal summarized ++
    utf8 " earliest messages folded here are summarized above, not quoted." ++
    transcriptRecoverySentence m

theorem reminderText_plain (summarized : Nat) (m : Option CompactionMeta) {b : UInt8}
    (h : b = newline ∨ b = 60) : b ∉ reminderText summarized m := by
  have hdigit : isDigit b = false := by
    rcases h with rfl | rfl
    · decide
    · decide
  have hliteral : b ∉ utf8 "Your human partner's " ∧
      b ∉ utf8 " earliest messages folded here are summarized above, not quoted." := by
    rcases h with rfl | rfl
    · decide
    · decide
  intro hmem
  unfold reminderText at hmem
  rcases mem_append.mp hmem with hmem | hmem
  · rcases mem_append.mp hmem with hmem | hmem
    · rcases mem_append.mp hmem with hmem | hmem
      · exact hliteral.1 hmem
      · exact not_mem_decimal hdigit summarized hmem
    · exact hliteral.2 hmem
  · exact recovery_plain m h hmem

theorem reminder_eq (summarized : Nat) (m : Option CompactionMeta) :
    partnerCarryReminder summarized m =
      reminderOpen ++ reminderText summarized m ++ [newline] ++ reminderClose ++ [newline] := by
  unfold partnerCarryReminder reminderBlock
  have hlast : (reminderText summarized m).getLast? ≠ some newline := fun h =>
    reminderText_plain summarized m (Or.inl rfl) (mem_of_getLast? h)
  rw [show utf8 "Your human partner's " ++ decimal summarized ++
    utf8 " earliest messages folded here are summarized above, not quoted." ++
    transcriptRecoverySentence m = reminderText summarized m from rfl, if_neg hlast]

theorem isReminderBlock_reminder (summarized : Nat) (m : Option CompactionMeta) :
    isReminderBlock (reminderOpen ++ reminderText summarized m ++ [newline] ++ reminderClose) =
      true := by
  have hopen : reminderOpen = 60 :: utf8 "SYSTEM-REMINDER>\n" := by decide
  have hclose : reminderClose = 60 :: utf8 "/SYSTEM-REMINDER>" := by decide
  -- behind the first byte, the only `<` begins the closing marker
  have hrest : (60 : UInt8) ∉ utf8 "SYSTEM-REMINDER>\n" ++ reminderText summarized m ++ [newline] := by
    intro hmem
    rcases mem_append.mp hmem with hmem | hmem
    · rcases mem_append.mp hmem with hmem | hmem
      · exact absurd hmem (by decide)
      · exact reminderText_plain summarized m (Or.inr rfl) hmem
    · exact absurd hmem (by decide)
  have hcut : cutBytes reminderClose
      (reminderOpen ++ reminderText summarized m ++ [newline] ++ reminderClose) =
      some (reminderOpen ++ reminderText summarized m ++ [newline], []) := by
    rw [hopen, cons_append, cons_append, cons_append, cutBytes, if_neg]
    · rw [hclose, cutBytes_last hrest]
      rfl
    · rw [ isPrefixOf_iff_prefix, hclose, cons_prefix_cons]
      intro hpre
      have hhead := hpre.2
      rw [show utf8 "/SYSTEM-REMINDER>" = 47 :: utf8 "SYSTEM-REMINDER>" by decide,
        show utf8 "SYSTEM-REMINDER>\n" = 83 :: utf8 "YSTEM-REMINDER>\n" by decide] at hhead
      exact absurd (cons_prefix_cons.mp hhead).1 (by decide)
  have hnone : cutBytes reminderClose [] = none := by decide
  have hcount : countBytes reminderClose
      (reminderOpen ++ reminderText summarized m ++ [newline] ++ reminderClose) = 1 := by
    unfold countBytes
    obtain ⟨k, hk⟩ : ∃ k, (reminderOpen ++ reminderText summarized m ++ [newline] ++
        reminderClose).length = k + 1 := ⟨_, (Nat.succ_pred_eq_of_pos (by
          rw [hclose, length_append, length_cons]
          exact Nat.succ_pos _)).symm⟩
    rw [hk, countFrom, hcut]
    dsimp only
    rw [countFrom, hnone]
  unfold isReminderBlock
  rw [hcount, Bool.and_eq_true, Bool.and_eq_true]
  refine ⟨⟨ isPrefixOf_iff_prefix.mpr ?_, isSuffixOf_iff_suffix.mpr ?_⟩, rfl⟩
  · rw [append_assoc, append_assoc]
    exact prefix_append _ _
  · exact suffix_append _ _

end Evener.Contextmgr
