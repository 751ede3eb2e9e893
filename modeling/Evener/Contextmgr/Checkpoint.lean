/-
  A checkpoint: a fixed part, earlier summaries, the conversation and working notes within a limit.

  Maps are lists of their entries; a checkpoint names them in the order of their keys.
-/
import Evener.Contextmgr.PartnerCarry
import Mathlib.Data.List.Lex

namespace Evener.Contextmgr

open Evener.Lib

inductive CheckpointWriteStatus where
  | unconfirmed | confirmed | failed
deriving DecidableEq

structure CheckpointData where
  fileWrites : List (Bytes × CheckpointWriteStatus) := []
  activatedSkills : List Bytes := []
  toolCounts : List (Bytes × Int) := []
  lastShellResults : List Bytes := []
  conversation : List CheckpointConversationEntry := []
  workingNotes : List Bytes := []
  earlierSummaries : List Bytes := []

/-! ## The fixed part -/

/-- `sort.Strings`. -/
def sortBytes (l : List Bytes) : List Bytes := sortBy (fun text => text.map UInt8.toNat) l

/-- `%d` of a number that may be negative. -/
def decimalInt (n : Int) : Bytes := (if n < 0 then utf8 "-" else []) ++ decimal n.natAbs

/-- A line that names texts, if there are any. -/
def namesLine (label : Bytes) (names : List Bytes) : Bytes :=
  if names = [] then [] else label ++ (utf8 ", ").intercalate (sortBytes names) ++ [newline]

def modifiedFiles (writes : List (Bytes × CheckpointWriteStatus)) : List Bytes :=
  (writes.filter fun write => write.2 = .confirmed).map Prod.fst

def attemptedFiles (writes : List (Bytes × CheckpointWriteStatus)) : List Bytes :=
  writes.filterMap fun (file, status) =>
    match status with
    | .confirmed => none
    | .failed => some (file ++ utf8 " (failed)")
    | .unconfirmed => some (file ++ utf8 " (no result)")

def sumCounts (counts : List (Bytes × Int)) : Int := (counts.map Prod.snd).sum

def toolCountsLine (counts : List (Bytes × Int)) : Bytes :=
  let sorted := sortBy (fun count : Bytes × Int => count.1.map UInt8.toNat) counts
  if 0 < sumCounts counts then
    utf8 "Actions taken: " ++ decimalInt (sumCounts counts) ++ utf8 " tool calls (" ++
      (utf8 ", ").intercalate (sorted.map fun (name, n) => decimalInt n ++ utf8 " " ++ name) ++
      utf8 ")\n"
  else []

def shellResultsLines (results : List Bytes) : Bytes :=
  if results = [] then []
  else utf8 "Last shell results:\n" ++ (results.drop (results.length - 3)).flatMap (· ++ [newline])

def fixedPart (data : CheckpointData) (m : Option CompactionMeta) : Bytes :=
  compactionPointer m (utf8 "checkpoint") ++
    namesLine (utf8 "Files modified: ") (modifiedFiles data.fileWrites) ++
    namesLine (utf8 "Files attempted but not applied: ") (attemptedFiles data.fileWrites) ++
    toolCountsLine data.toolCounts ++ shellResultsLines data.lastShellResults ++
    namesLine (utf8 "Activated skills: ")
      (data.activatedSkills ++ (m.map CompactionMeta.activatedSkills).getD []).dedup

/-! ## Within the limit -/

def truncate (s : Bytes) (limit : Nat) : Bytes :=
  if limit < s.length then cutText s limit ++ utf8 "..." else s

/-- The binary search for the longest truncation that fits, with the steps left to it. -/
def searchTruncation (text : Bytes) (available : Int) (render : Bytes → Int) :
    (steps lo hi : Nat) → Nat
  | 0, lo, _ => lo
  | steps + 1, lo, hi =>
    if lo < hi then
      let mid := (lo + hi + 1) / 2
      if render (truncate text mid) ≤ available then searchTruncation text available render steps mid hi
      else searchTruncation text available render steps lo (mid - 1)
    else lo

def truncateRendered (text : Bytes) (available : Int) (render : Bytes → Int) : Bytes :=
  if render text ≤ available then text
  else truncate text (searchTruncation text available render text.length 0 text.length)

def minVariableBudget : Int := 1000

/-- What a checkpoint needs besides its variable content. -/
def frame (data : CheckpointData) (m : Option CompactionMeta) : Int :=
  (utf8 "[CONTEXT CHECKPOINT]\n").length + (fixedPart data m).length +
    (utf8 "[END CHECKPOINT]\n").length + 200

/-- The newest summaries that fit, the last one truncated. -/
def fitSummaries (budget : Int) : List Bytes → Bytes
  | [] => renderCheckpointEarlierSummaries []
  | [summary] =>
    let render text : Int := (renderCheckpointEarlierSummaries [text]).length
    if render summary ≤ budget then renderCheckpointEarlierSummaries [summary]
    else
      let truncated := truncateRendered summary budget render
      if budget < render truncated then [] else renderCheckpointEarlierSummaries [truncated]
  | summary :: next :: rest =>
    if (renderCheckpointEarlierSummaries (summary :: next :: rest)).length ≤ budget then
      renderCheckpointEarlierSummaries (summary :: next :: rest)
    else fitSummaries budget (next :: rest)

def summariesMarkdown (data : CheckpointData) (m : Option CompactionMeta) (maxChars : Int) : Bytes :=
  fitSummaries (min (maxChars.tdiv 2) (maxChars - frame data m - minVariableBudget))
    data.earlierSummaries

def variableBudget (data : CheckpointData) (m : Option CompactionMeta) (maxChars : Int) : Int :=
  max (maxChars - frame data m - (summariesMarkdown data m maxChars).length) minVariableBudget

/-- Sheds the oldest notes until they fit beside a conversation of some length. -/
def shedNotes (budget : Int) (conversationLength : Nat) : List Bytes → List Bytes
  | [] => []
  | note :: rest =>
    if budget < conversationLength + (renderCheckpointWorkingNotes (note :: rest)).length then
      shedNotes budget conversationLength rest
    else note :: rest

def keptNotes (data : CheckpointData) (m : Option CompactionMeta) (maxChars : Int) : List Bytes :=
  shedNotes (variableBudget data m maxChars)
    (renderCheckpointConversation (cleanCheckpointConversation data.conversation)).length
    data.workingNotes

def keptConversation (data : CheckpointData) (m : Option CompactionMeta) (maxChars : Int) :
    List CheckpointConversationEntry :=
  fitCheckpointConversation (cleanCheckpointConversation data.conversation)
    (variableBudget data m maxChars -
      (renderCheckpointWorkingNotes (keptNotes data m maxChars)).length) (hasTranscript m)

/-- A section behind an empty line, unless it is empty. -/
def spaced (markdown : Bytes) : Bytes := if markdown = [] then [] else [newline] ++ markdown

def formatCheckpoint (data : CheckpointData) (m : Option CompactionMeta) (maxChars : Int) : Bytes :=
  utf8 "[CONTEXT CHECKPOINT]\n" ++ summariesMarkdown data m maxChars ++ fixedPart data m ++
    spaced (renderCheckpointConversation (keptConversation data m maxChars)) ++
    spaced (renderCheckpointWorkingNotes (keptNotes data m maxChars)) ++ utf8 "[END CHECKPOINT]\n"

end Evener.Contextmgr
