/-
  What a compaction carries of its partner's messages, within a budget.

  Lengths and budgets are numbers of bytes. A conversation is given as it was collected.
-/
import Evener.Contextmgr.SummaryTurn
import Evener.Lib.RuneCut
import Evener.Lib.StableSort

namespace Evener.Contextmgr

open Evener.Lib

def partnerMessageEdgeChars : Nat := 1000
def maxCheckpointChars : Int := 60000

/-- Stands for the middle of a message, of which `trimmed` bytes were left out. -/
def trimmedMessageNote (trimmed : Nat) : Bytes :=
  utf8 "\n\n[... " ++ decimal trimmed ++
    utf8 " characters of this message trimmed here; the full message is in this session's transcript ...]\n\n"

/-- `edge` bytes at each end of the text, cut between characters. -/
def middleTrim (text : Bytes) (edge : Nat) : Bytes :=
  if text.length ≤ 2 * edge then text
  else
    let head := cutText text edge
    let tail := tailText text edge
    head ++ trimmedMessageNote (text.length - head.length - tail.length) ++ tail

/-! ## Fitting a conversation into a budget -/

/-- What an entry adds to the length of a rendered conversation. -/
def blockLen (entry : CheckpointConversationEntry) : Int :=
  (renderCheckpointConversation [entry]).length -
    (checkpointConversationHeading ++ utf8 "\n\n").length

/-- The running length of the rendering, and the entries kept so far. -/
structure Fit where
  rendered : Int
  kept : List CheckpointConversationEntry

/-- Sheds the agent's replies, oldest first, until the rest fits. -/
def shedReplies (budget : Int) : List CheckpointConversationEntry → Fit → Fit
  | [], fit => fit
  | entry :: rest, fit =>
    if budget < fit.rendered ∧ entry.role ≠ utf8 "user" then
      shedReplies budget rest { fit with rendered := fit.rendered - blockLen entry }
    else shedReplies budget rest { fit with kept := fit.kept ++ [entry] }

/-- How many bytes of a message the budget leaves, with room for the note. -/
def keepOf (budget rendered : Int) (text : Bytes) : Int :=
  max (2 * partnerMessageEdgeChars)
    (text.length - (rendered - budget) - (trimmedMessageNote text.length).length)

/-- Trims the messages at the places in `order`, each once, until the rest fits. -/
def trimLongest (budget : Int) : (order : List Nat) → Fit → Fit
  | [], fit => fit
  | i :: rest, fit =>
    if fit.rendered ≤ budget then fit
    else
      match fit.kept[i]? with
      | none => fit
      | some entry =>
        let trimmed := middleTrim entry.text (keepOf budget fit.rendered entry.text / 2).toNat
        if entry.text.length ≤ trimmed.length then trimLongest budget rest fit
        else
          let entry' := { entry with text := trimmed }
          trimLongest budget rest
            ⟨fit.rendered + (blockLen entry' - blockLen entry), fit.kept.set i entry'⟩

/-- The places of the messages that may be trimmed, longest first. -/
def longMessages (kept : List CheckpointConversationEntry) : List Nat :=
  let length (i : Nat) : Nat := (kept[i]?.map fun entry => entry.text.length).getD 0
  sortBy (fun i => -(length i : Int))
    ((List.range kept.length).filter fun i => 2 * partnerMessageEdgeChars < length i)

/-- Before anything is shed. -/
def startFit (conversation : List CheckpointConversationEntry) : Fit :=
  ⟨(renderCheckpointConversation conversation).length, []⟩

def fitCheckpointConversation (conversation : List CheckpointConversationEntry) (budget : Int)
    (recoverable : Bool) : List CheckpointConversationEntry :=
  let fit := shedReplies budget conversation (startFit conversation)
  if fit.rendered ≤ budget ∨ recoverable = false then fit.kept
  else (trimLongest budget (longMessages fit.kept) fit).kept

/-! ## The carry of a summary turn -/

def partnerMessages (conversation : List CheckpointConversationEntry) :
    List CheckpointConversationEntry :=
  (cleanCheckpointConversation conversation).filter fun entry => entry.role = utf8 "user"

/-- The rendered size of the newest messages within the ceiling, at least one, and their number. -/
def countCarried (ceiling : Int) : (newestFirst : List CheckpointConversationEntry) → (size : Int) →
    (n : Nat) → Int × Nat
  | [], size, n => (size, n)
  | entry :: rest, size, n =>
    if 0 < n ∧ ceiling < size + blockLen entry then (size, n)
    else countCarried ceiling rest (size + blockLen entry) (n + 1)

/-- How many of the newest messages are carried. -/
def carriedCount (partner : List CheckpointConversationEntry) (recoverable : Bool) (ceiling : Int) :
    Nat :=
  if ceiling ≤ 0 then partner.length
  else
    let (size, n) := countCarried ceiling partner.reverse
      (checkpointConversationHeading ++ utf8 "\n\n").length 0
    if ceiling < size ∧ recoverable = false then 0 else n

/-- Trims the newest message from how it was written, if that is shorter than what was left. -/
def trimNewest (ceiling : Int) (newestAsWritten : Bytes)
    (partner : List CheckpointConversationEntry) : List CheckpointConversationEntry :=
  match partner.getLast? with
  | none => partner
  | some newest =>
    let size : Int := (renderCheckpointConversation partner).length
    let edge := (newest.text.length - (size - ceiling) -
      (trimmedMessageNote newestAsWritten.length).length : Int).tdiv 2
    let trimmed := middleTrim newestAsWritten (max edge 1).toNat
    if trimmed.length < newest.text.length then
      partner.dropLast ++ [{ newest with text := trimmed }]
    else partner

/-- The messages that a turn carries, fitted to the tighter of the two bounds. -/
def carriedMessages (kept : List CheckpointConversationEntry) (recoverable : Bool) (ceiling : Int) :
    List CheckpointConversationEntry :=
  let budget := if 0 < ceiling then min maxCheckpointChars ceiling else maxCheckpointChars
  let newestAsWritten := (kept.getLast?.map CheckpointConversationEntry.text).getD []
  let partner := fitCheckpointConversation kept budget recoverable
  if 0 < ceiling ∧ ceiling < (renderCheckpointConversation partner).length then
    trimNewest ceiling newestAsWritten partner
  else partner

/-- The rendered carry, and the messages that are left to the summary. -/
def partnerMessagesMarkdown (conversation : List CheckpointConversationEntry) (recoverable : Bool)
    (ceiling : Int) : Bytes × List CheckpointConversationEntry :=
  let partner := partnerMessages conversation
  let left := partner.length - carriedCount partner recoverable ceiling
  (renderCheckpointConversation (carriedMessages (partner.drop left) recoverable ceiling),
    partner.take left)

end Evener.Contextmgr
