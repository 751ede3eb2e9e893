/-
  The job journal's events and the records folded from them.

  An unknown kind or status is kept as its text. Absent pointers are `none`; a time is its
  instant. Fields no fold reads are left out, and so are the two live-only fields of a job record.
-/
import Evener.Lib.JsValue

namespace Evener.Jobstore

open Evener.Lib

/-! ## Provenance -/

structure WatchKey where
  watchId : String
  watchGeneration : String
deriving DecidableEq

structure Entry where
  kind : String
  watchId : String := ""
  watchGeneration : String := ""
  deliveryId : String := ""
  sessionId : String := ""
  jobId : String := ""
deriving DecidableEq

structure Causal where
  watchKeys : List WatchKey := []
  chain : List Entry := []
  chainTruncated : Bool := false
deriving DecidableEq

def maxDiagnosticChain : Nat := 16

/-- The head and the tail of a chain that is too long. -/
def truncateChain (p : Causal) : Causal :=
  if p.chain.length ≤ maxDiagnosticChain then p
  else
    let keepHead := maxDiagnosticChain / 2
    let keepTail := maxDiagnosticChain - keepHead
    { p with
      chain := p.chain.take keepHead ++ p.chain.drop (p.chain.length - keepTail)
      chainTruncated := true }

def nilIfEmpty (p : Causal) : Option Causal :=
  if p.watchKeys.isEmpty && p.chain.isEmpty && !p.chainTruncated then none else some p

/-- `provenance.Clone`: not a verbatim copy, it truncates and drops an empty value. -/
def cloneProvenance (p : Option Causal) : Option Causal := p.bind fun p => nilIfEmpty (truncateChain p)

/-! ## Events -/

inductive EventKind where
  | jobStarted
  | jobFinished
  | jobMessageSent
  | jobNotificationPending
  | jobNotificationDelivered
  | jobNotificationConsumed
  | watchSendPending
  | watchSendDelivered
  | watchSendDropped
  | watchSendEvicted
  | watchRegistered
  | watchCleared
  | unknown (kind : String)
deriving DecidableEq

inductive Status where
  | running
  | completed
  | commandExitedNonzero
  | commandKilled
  | failed
  | cancelled
  | stopped
  | exhausted
  | unknown (status : String)
deriving DecidableEq

/-- The status of a record no event has given one. -/
def Status.unset : Status := .unknown ""

def Status.isTerminal : Status → Bool
  | .completed | .commandExitedNonzero | .commandKilled | .failed | .cancelled | .stopped
  | .exhausted => true
  | .running | .unknown _ => false

inductive NotifyState where
  | notArmed
  | pending
  | delivered
  | consumed
deriving DecidableEq

/-- The receiver and the source a watch's configuration snapshot names. -/
structure WatchConfigSnapshot where
  hubRef : String := ""
  receiverSessionId : String := ""
  receiverDelegateId : String := ""
  source : String := ""
  sourceDelegateId : String := ""
  sourceDelegateGeneration : Nat := 0
  stableReceiver : Bool := false
deriving DecidableEq

structure WatchEvent where
  generation : String := ""
  ownerSessionId : String := ""
  visibleSessionId : String := ""
  target : String := ""
  sendTo : String := ""
  configHash : String := ""
  condition : String := ""
  config : Option WatchConfigSnapshot := none
  deliveries : Int := 0
  endReason : String := ""
deriving DecidableEq

/-- The coalescing slot of a watch-send frame. -/
structure WatchSendKey where
  visibleSessionId : String
  watchId : String := ""
  watchTarget : String
  resolvedWatchedIdentity : String
  resolvedSendTo : String
  watchGeneration : String
deriving DecidableEq

structure WatchSendState where
  key : WatchSendKey
  deliveryId : String
  updateSeq : Nat := 0
  message : String := ""
  frame : String := ""
  triggerIdentity : String := ""
  triggerReason : String := ""
  coalescedCount : Int := 0
  receiverSessionId : String := ""
  receiverDelegateId : String := ""
  sourceDelegateId : String := ""
  sourceDelegateGeneration : Nat := 0
  stableReceiver : Bool := false
  notificationJobId : String := ""
  diagnosticReason : String := ""
  selfInfluenceDepth : Int := 0
  createdAt : Int := 0
  updatedAt : Int := 0
  provenance : Option Causal := none
  endNotice : Bool := false
deriving DecidableEq

/-- One line of the journal: the payload fields of every kind, side by side. -/
structure Event where
  kind : EventKind
  seq : Int
  jobId : String := ""
  watchId : String := ""
  type : String := ""
  command : String := ""
  background : Bool := false
  intent : String := ""
  task : String := ""
  description : String := ""
  parentSessionId : String := ""
  ownerSessionId : String := ""
  visibleToSession : String := ""
  parentJobId : String := ""
  parentDelegateId : String := ""
  originTurnId : String := ""
  originToolCallId : String := ""
  originItemId : String := ""
  startedAt : Option Int := none
  outputPath : String := ""
  workingDir : String := ""
  status : Status := .unset
  reason : String := ""
  exhaustionBudget : String := ""
  exhaustionLimit : Int := 0
  exitCode : Option Int := none
  endedAt : Option Int := none
  outputBytes : Int := 0
  terminalGen : String := ""
  structuredResult : JsValue := .null
  structuredResultValid : Option Bool := none
  structuredResultReason : String := ""
  watchSend : Option WatchSendState := none
  watch : Option WatchEvent := none
  provenance : Option Causal := none

/-! ## Records -/

structure JobRecord where
  jobId : String
  type : String := ""
  status : Status := .unset
  reason : String := ""
  exhaustionBudget : String := ""
  exhaustionLimit : Int := 0
  description : String := ""
  command : String := ""
  intent : String := ""
  background : Bool := false
  workingDir : String := ""
  task : String := ""
  parentSessionId : String := ""
  ownerSessionId : String := ""
  visibleToSession : String := ""
  parentJobId : String := ""
  parentDelegateId : String := ""
  originTurnId : String := ""
  originToolCallId : String := ""
  originItemId : String := ""
  startedAt : Int := 0
  endedAt : Option Int := none
  exitCode : Option Int := none
  outputPath : String := ""
  outputBytes : Int := 0
  structuredResult : JsValue := .null
  structuredResultValid : Option Bool := none
  structuredResultReason : String := ""
  terminalGen : String := ""
  notifyState : NotifyState := .notArmed
  provenance : Option Causal := none
  notificationProvenance : Option Causal := none

structure WatchRecord where
  watchId : String
  hubRef : String := ""
  generation : String
  ownerSessionId : String
  visibleSessionId : String
  target : String
  sendTo : String := ""
  configHash : String
  condition : String := ""
  deliveries : Int := 0
  active : Bool
  endReason : String := ""
  source : String := ""
  sourceDelegateId : String := ""
  sourceDelegateGeneration : Nat := 0
  stableReceiver : Bool := false
  receiverSessionId : String := ""
  receiverDelegateId : String := ""
deriving DecidableEq

/-- The maps of the folds, as lists of the values under their own keys. -/
abbrev JobRecords := List JobRecord

abbrev WatchRecords := List WatchRecord

def jobKey (r : JobRecord) : String := r.jobId

def watchKey (w : WatchRecord) : String := w.watchId

def sendKey (state : WatchSendState) : WatchSendKey := state.key

/-- The frames no later event has settled. -/
structure WatchSendRecord where
  pending : List WatchSendState := []

end Evener.Jobstore
