/-
  The delegate journal's events and the aggregates folded from them.

  An unknown kind or status is kept as its text. A time is its instant, the zero time `0`. Nil
  pointers and absent payloads are `none`. The descriptor keeps the fields the fold reads and its
  provenance; those only carried along are left out.
-/
import Evener.Jobstore.Records
import Evener.Lib.Lines

namespace Evener.Delegatestore

open Evener.Lib
open Evener.Jobstore (Causal cloneProvenance)

inductive Phase where
  | idle
  | running
  | settling
  | stopping
  | closed
deriving DecidableEq

def Phase.text : Phase → String
  | .idle => "idle"
  | .running => "running"
  | .settling => "settling"
  | .stopping => "stopping"
  | .closed => "closed"

inductive RunTrigger where
  | initial
  | ownerInput
  | attention
  | unknown (trigger : String)
deriving DecidableEq

def RunTrigger.text : RunTrigger → String
  | .initial => "initial"
  | .ownerInput => "owner_input"
  | .attention => "attention"
  | .unknown trigger => trigger

inductive RunDisposition where
  | reported
  | terminalError
  | completedNoAction
  | unknown (disposition : String)
deriving DecidableEq

def RunDisposition.text : RunDisposition → String
  | .reported => "reported"
  | .terminalError => "terminal_error"
  | .completedNoAction => "completed_no_action"
  | .unknown disposition => disposition

inductive OutcomeStatus where
  | completed
  | failed
  | exhausted
  | cancelled
  | stopped
  | unknown (status : String)
deriving DecidableEq

def OutcomeStatus.text : OutcomeStatus → String
  | .completed => "completed"
  | .failed => "failed"
  | .exhausted => "exhausted"
  | .cancelled => "cancelled"
  | .stopped => "stopped"
  | .unknown status => status

def reasonStoppedByParent : String := "stopped_by_parent"

inductive ExhaustionBudget where
  | turns
  | toolRounds
  | unknown (budget : String)
deriving DecidableEq

def ExhaustionBudget.text : ExhaustionBudget → String
  | .turns => "max_turns"
  | .toolRounds => "max_tool_rounds_per_input"
  | .unknown budget => budget

inductive PacketKind where
  | reported
  | terminalError
  | update
  | unknown (kind : String)
deriving DecidableEq

def PacketKind.text : PacketKind → String
  | .reported => "reported"
  | .terminalError => "terminal_error"
  | .update => "update"
  | .unknown kind => kind

def maxTerminalStructuredResultBytes : Nat := 1024 * 1024

/-! ## Records -/

structure SandboxSnapshot where
  mode : String
  network : Option Bool := none
deriving DecidableEq

structure ConfigSnapshot where
  shareTasksWithChildren : Bool := false
  resultToolName : String := ""
  sandbox : String := ""
  sandboxNet : Option Bool := none
deriving DecidableEq

structure Descriptor where
  childSessionId : String
  transcriptRef : String
  parentDelegateId : String := ""
  ownerSessionId : String
  task : String
  agentType : String
  toolNameCeiling : List String := []
  resultSchema : Bytes := []
  sandbox : Option SandboxSnapshot := none
  config : ConfigSnapshot := {}
  sharedTaskStoreOwnerSessionId : String := ""
  provenance : Option Causal := none
  resumable : Bool
deriving DecidableEq

/-- A deep copy; the provenance is truncated, and dropped when it is empty. -/
def cloneDescriptor (descriptor : Descriptor) : Descriptor :=
  { descriptor with provenance := cloneProvenance descriptor.provenance }

structure Outcome where
  status : OutcomeStatus
  reason : String := ""
  error : String := ""
  endedAt : Int
  exhaustionBudget : ExhaustionBudget := .unknown ""
  exhaustionLimit : Int := 0
  resumable : Option Bool := none
deriving DecidableEq

structure TerminalPacket where
  kind : PacketKind
  message : Bytes
  structuredResult : Bytes := []
  structuredResultValid : Option Bool := none
  structuredResultReason : String := ""
  structuredResultSource : String := ""
  warnings : List String := []
  metadata : Bytes := []
deriving DecidableEq

structure PendingDelivery where
  deliveryId : String
  generation : Nat
  ownerDelegateId : String
  packet : TerminalPacket
deriving DecidableEq

structure Aggregate where
  createdAt : Int
  delegateId : String
  descriptor : Descriptor
  generation : Nat := 0
  trigger : RunTrigger := .unknown ""
  phase : Phase
  currentRunOpen : Bool := false
  preparedTerminal : Option TerminalPacket := none
  resumable : Bool
  notResumableReason : String := ""
  needsAttention : Bool := false
  runStartedAt : Int := 0
  latestActivityAt : Int := 0
  latestIntent : String := ""
  latestOutcome : Option Outcome := none
  latestPacket : Option TerminalPacket := none
  pendingDeliveries : List PendingDelivery := []
  pendingStopSeq : Nat := 0
  pendingStopAt : Int := 0
  projectionRevision : Nat := 0
deriving DecidableEq

/-- The map of the fold, as its entries. -/
abbrev State := List (String × Aggregate)

/-! ## Events -/

inductive EventKind where
  | delegateCreated
  | delegateRunStarted
  | delegateTerminalPrepared
  | delegateRunFinished
  | delegateResumabilityClosed
  | delegateSubtreeStopRequested
  | delegateSubtreeStopCompleted
  | delegateDeliveryAcknowledged
  | delegateAttentionChanged
  | delegateUpdatePosted
  | delegateIntentStated
  | unknown (kind : String)
deriving DecidableEq

def EventKind.text : EventKind → String
  | .delegateCreated => "delegate_created"
  | .delegateRunStarted => "delegate_run_started"
  | .delegateTerminalPrepared => "delegate_terminal_prepared"
  | .delegateRunFinished => "delegate_run_finished"
  | .delegateResumabilityClosed => "delegate_resumability_closed"
  | .delegateSubtreeStopRequested => "delegate_subtree_stop_requested"
  | .delegateSubtreeStopCompleted => "delegate_subtree_stop_completed"
  | .delegateDeliveryAcknowledged => "delegate_delivery_acknowledged"
  | .delegateAttentionChanged => "delegate_attention_changed"
  | .delegateUpdatePosted => "delegate_update_posted"
  | .delegateIntentStated => "delegate_intent_stated"
  | .unknown kind => kind

structure DelegateCreated where
  descriptor : Descriptor

structure RunStarted where
  generation : Nat
  trigger : RunTrigger
  startedAt : Int

structure TerminalPrepared where
  generation : Nat
  packet : TerminalPacket

structure RunFinished where
  generation : Nat
  outcome : Outcome
  disposition : RunDisposition
  deliveryId : String := ""
  packet : Option TerminalPacket := none
  observerCallbackDelivered : Bool := false

structure ResumabilityClosed where
  reason : String

structure SubtreeStopRequested where
  targetDelegateId : String

structure SubtreeStopCompleted where
  requestSeq : Nat

structure DeliveryAcknowledged where
  deliveryId : String

structure DelegateAttentionChanged where
  needsAttention : Bool

structure UpdatePosted where
  generation : Nat
  message : String

structure IntentStated where
  generation : Nat
  intent : String

/-- One event of the journal: every kind's payload side by side, one of them set. -/
structure Event where
  kind : EventKind
  seq : Nat
  ts : Int := 0
  delegateId : String
  created : Option DelegateCreated := none
  runStarted : Option RunStarted := none
  terminalPrepared : Option TerminalPrepared := none
  runFinished : Option RunFinished := none
  resumabilityClosed : Option ResumabilityClosed := none
  subtreeStopRequested : Option SubtreeStopRequested := none
  subtreeStopCompleted : Option SubtreeStopCompleted := none
  deliveryAcknowledged : Option DeliveryAcknowledged := none
  attentionChanged : Option DelegateAttentionChanged := none
  updatePosted : Option UpdatePosted := none
  intentStated : Option IntentStated := none

/-! ## Errors -/

/-- `fmt.Errorf`: the format, the values it quotes, and the error it wraps. -/
inductive Failure where
  | errorf (format : String) (args : List String) (cause : Option Failure)

def fail {α : Type} (format : String) (args : List String := []) : Except Failure α :=
  .error (.errorf format args none)

/-- `err` wrapped in `format`, when the check fails. -/
def wrapping {α : Type} (format : String) (args : List String) (x : Except Failure α) :
    Except Failure α :=
  match x with
  | .ok a => .ok a
  | .error err => .error (.errorf format args (some err))

/-- `encoding/json` on raw messages: what it accepts, and how it writes a string. -/
structure Json where
  valid : Bytes → Bool
  marshal : String → Bytes

end Evener.Delegatestore
