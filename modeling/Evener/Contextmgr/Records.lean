/-
  The turns of a history, and what a session tells its compactions.
-/
import Evener.Lib.Lines

namespace Evener.Contextmgr

open Evener.Lib

/-! ## Turns -/

inductive TurnKind where
  | userInput | steering | assistant | tool | toolResults | system | checkpoint | summary
  | modelSwitch | failure | hookCompleted | environment | notesContext | memoryContext
  | attentionResolution | completion | reopen | communicate | notice
  | other (kind : String)
deriving DecidableEq

structure ContentPart where
  toolCall : Option String := none
  toolResult : Option String := none
deriving DecidableEq

/-- A part holds the id of its tool call, or the id of the call that its tool result answers. -/
structure Turn where
  kind : TurnKind
  turnID : String := ""
  content : List ContentPart := []
deriving DecidableEq

/-- What a session tells its compactions. -/
structure CompactionMeta where
  sessionID : Bytes := []
  activatedSkills : List Bytes := []
  pendingAskTurnIDs : List String := []
  pendingAskCallIDs : List String := []
  availableTranscriptTools : List String := []
  transcriptKept : Bool := false

/-- Tool results, of old transcripts and of current ones. -/
def TurnKind.isTool (k : TurnKind) : Bool := k = .tool || k = .toolResults

/-- Markers that are persisted anywhere. -/
def TurnKind.isMarker (k : TurnKind) : Bool := k = .hookCompleted || k = .attentionResolution

def Turn.visible (turn : Turn) : Bool := turn.kind != .attentionResolution

end Evener.Contextmgr
