/-
  The Markdown that compaction turns are written in and read back from.

  A section is a `## ` heading with `### ` blocks, each with a fenced text. Reading follows the
  fences of whatever text a turn holds; offsets are byte offsets into it.
-/
import Evener.Contextmgr.Fences
import Evener.Contextmgr.Records

namespace Evener.Contextmgr

open Evener.Lib

def checkpointConversationHeading : Bytes := utf8 "## Conversation"
def workingNotesHeading : Bytes := utf8 "## Working Notes"
def earlierSummariesHeading : Bytes := utf8 "## Earlier Summaries"
def summaryModelTextHeading : Bytes := utf8 "## Summary"
def summaryMarkerStart : Bytes := utf8 "[CONTEXT SUMMARY]"
def summaryMarkerEnd : Bytes := utf8 "[END SUMMARY]"
def summaryTurnStart : Bytes := summaryMarkerStart ++ [newline]

structure CheckpointConversationEntry where
  role : Bytes
  text : Bytes
deriving DecidableEq

structure CheckpointMarkdownBlock where
  heading : Bytes
  text : Bytes
deriving DecidableEq

/-- `strings.ToLower`, as far as its result can be ASCII: no character but these becomes ASCII. -/
def lowerBytes : Bytes → Bytes
  | 0xC4 :: 0xB0 :: rest => 105 :: lowerBytes rest
  | 0xE2 :: 0x84 :: 0xAA :: rest => 107 :: lowerBytes rest
  | b :: rest => (if 65 ≤ b ∧ b ≤ 90 then b + 32 else b) :: lowerBytes rest
  | [] => []

def cleanEntry (entry : CheckpointConversationEntry) : Option CheckpointConversationEntry :=
  let role := lowerBytes (trimBytes entry.role)
  let text := trimBytes entry.text
  if text = [] then none
  else if role = utf8 "user" then some ⟨utf8 "user", text⟩
  else if role = utf8 "agent" ∨ role = utf8 "assistant" then some ⟨utf8 "agent", text⟩
  else none

def cleanCheckpointConversation (entries : List CheckpointConversationEntry) :
    List CheckpointConversationEntry := entries.filterMap cleanEntry

/-! ## Rendering -/

def renderCheckpointConversation (entries : List CheckpointConversationEntry) : Bytes :=
  let entries := cleanCheckpointConversation entries
  if entries = [] then []
  else
    checkpointConversationHeading ++ utf8 "\n\n" ++ entries.flatMap fun entry =>
      (if entry.role = utf8 "agent" then utf8 "### Agent\n\n" else utf8 "### User\n\n") ++
        writeMarkdownFence entry.text

def renderCheckpointWorkingNotes (notes : List Bytes) : Bytes :=
  let clean := (notes.map trimBytes).filter (· ≠ [])
  if clean = [] then []
  else
    utf8 "## Working Notes\n\n" ++ clean.flatMap fun note =>
      utf8 "### Note\n\n" ++ writeMarkdownFence note

def renderCheckpointEarlierSummaries (summaries : List Bytes) : Bytes :=
  if summaries = [] then []
  else
    utf8 "## Earlier Summaries\n\n" ++ summaries.flatMap fun summary =>
      utf8 "### Summary\n\n" ++ writeMarkdownFence summary

def renderCompactionModelText (heading text : Bytes) : Bytes :=
  heading ++ utf8 "\n\n" ++ writeMarkdownFence text

/-! ## Sections -/

/-- A section's heading begins at `start`, its body at `body`; it ends at `stop`. -/
structure Span where
  start : Nat
  body : Nat
  stop : Nat
deriving DecidableEq

/-- A line that ends a section, outside of every fence. -/
def boundaryLine (content : Bytes) : Bool :=
  (utf8 "## ").isPrefixOf content || (utf8 "[END CHECKPOINT]").isPrefixOf content

/-- `found` holds where the heading and the body begin once the heading was read. -/
def sectionSpanFrom (heading : Bytes) (textLength : Nat) :
    List Bytes → FenceTracker → (offset : Nat) → (found : Option (Nat × Nat)) → Option Span
  | [], _, _, found => found.map fun (start, body) => ⟨start, body, textLength⟩
  | line :: rest, fence, offset, found =>
    if line = [] then found.map fun (start, body) => ⟨start, body, textLength⟩
    else
      let content := trimNewline line
      let (isFence, fence) := fence.step content
      let next := offset + line.length
      if isFence || fence.inside then sectionSpanFrom heading textLength rest fence next found
      else
        match found with
        | none =>
          sectionSpanFrom heading textLength rest fence next
            (if line = heading ++ [newline] then some (offset, next) else none)
        | some (start, body) =>
          if body < offset ∧ boundaryLine content then some ⟨start, body, offset⟩
          else sectionSpanFrom heading textLength rest fence next found

def markdownSectionSpan (text heading : Bytes) : Option Span :=
  sectionSpanFrom heading text.length (splitAfter text) {} 0 none

def markdownSection (text heading : Bytes) : Bytes :=
  match markdownSectionSpan text heading with
  | some span => (text.take span.stop).drop span.body
  | none => []

def withoutMarkdownSection (text heading : Bytes) : Bytes :=
  match markdownSectionSpan text heading with
  | some span => text.take span.start ++ text.drop span.stop
  | none => text

def unfencedLines : List Bytes → FenceTracker → Bytes
  | [], _ => []
  | line :: rest, fence =>
    let (isFence, fence) := fence.step (trimNewline line)
    if isFence || fence.inside then unfencedLines rest fence
    else line ++ unfencedLines rest fence

def withoutFencedBlocks (text : Bytes) : Bytes := unfencedLines (splitAfter text) {}

/-! ## Blocks -/

structure BlockReader where
  blocks : List CheckpointMarkdownBlock := []
  heading : Bytes := []
  lines : List Bytes := []
  fence : FenceTracker := {}
  sawFence : Bool := false

namespace BlockReader

/-- The blocks read, with the current one. -/
def flush (r : BlockReader) : List CheckpointMarkdownBlock :=
  if r.heading = [] then r.blocks
  else
    let text := trimBytes (joinBytes r.lines)
    if text = [] then r.blocks else r.blocks ++ [⟨r.heading, text⟩]

def read (r : BlockReader) (line : Bytes) : BlockReader :=
  let (isFence, fence) := r.fence.step line
  let r := { r with fence := fence }
  if fence.inside = false ∧ (utf8 "### ").isPrefixOf line then
    { r with
      blocks := r.flush
      heading := trimBytes (line.drop (utf8 "### ").length)
      lines := []
      sawFence := false }
  else if r.heading = [] then r
  else if isFence then { r with sawFence := true }
  else if fence.inside then { r with lines := r.lines ++ [line] }
  else if r.sawFence = false ∧ trimBytes line ≠ [] then { r with lines := r.lines ++ [line] }
  else r

end BlockReader

def parseMarkdownBlocks (markdown : Bytes) : List CheckpointMarkdownBlock :=
  ((splitBytes markdown).foldl BlockReader.read {}).flush

/-! ## Extraction -/

def blockEntry (block : CheckpointMarkdownBlock) : Option CheckpointConversationEntry :=
  let role := lowerBytes (trimBytes block.heading)
  if role = utf8 "user" then some ⟨utf8 "user", block.text⟩
  else if role = utf8 "agent" ∨ role = utf8 "assistant" then some ⟨utf8 "agent", block.text⟩
  else none

def extractMarkdownConversation (text : Bytes) : List CheckpointConversationEntry :=
  let markdown := markdownSection text checkpointConversationHeading
  if markdown = [] then []
  else cleanCheckpointConversation ((parseMarkdownBlocks markdown).filterMap blockEntry)

/-- The rest of the line behind `lead`. -/
def extractOriginalPromptLine (text lead : Bytes) : Bytes :=
  match cutBytes lead text with
  | none => []
  | some (_, rest) => ((cutBytes [newline] rest).map Prod.fst).getD rest

/-- A JSON array of strings between tags, or the oldest format's line. `unmarshal` is
    `json.Unmarshal`. -/
def extractCheckpointJSON (unmarshal : Bytes → Option (List Bytes)) (text tag : Bytes) : List Bytes :=
  let tagged := do
    let (_, rest) ← cutBytes (utf8 "<" ++ tag ++ utf8 ">") text
    let (body, _) ← cutBytes (utf8 "</" ++ tag ++ utf8 ">") rest
    unmarshal body
  match tagged with
  | some messages => messages
  | none =>
    let task := extractOriginalPromptLine text (utf8 "Original task: ")
    if tag = utf8 "user_messages" ∧ task ≠ [] then [task] else []

def extractCheckpointWorkingNotes (unmarshal : Bytes → Option (List Bytes)) (text : Bytes) :
    List Bytes :=
  let markdown := markdownSection text workingNotesHeading
  if markdown ≠ [] then
    ((parseMarkdownBlocks markdown).map fun block => trimBytes block.text).filter (· ≠ [])
  else extractCheckpointJSON unmarshal (withoutFencedBlocks text) (utf8 "working_notes")

def extractCheckpointEarlierSummaries (text : Bytes) : List Bytes :=
  (parseMarkdownBlocks (markdownSection text earlierSummariesHeading)).map
    CheckpointMarkdownBlock.text

end Evener.Contextmgr
