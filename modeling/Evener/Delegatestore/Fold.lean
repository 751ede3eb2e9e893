/-
  The fold of the delegate journal: every event is checked against the aggregates and written into
  them, or the whole journal is refused.

  A loop over the map visits the entries in list order, which decides only which of several equal
  errors is reported. A slice is shorter than `2 ^ 63`, so no counter wraps.
-/
import Evener.Delegatestore.Records
import Evener.Lib.KeyedList

namespace Evener.Delegatestore

open Evener.Lib

/-! ## Checks -/

def failIf (condition : Prop) [Decidable condition] (format : String) (args : List String := []) :
    Except Failure Unit :=
  if condition then fail format args else .ok ()

/-- The payload a kind dereferences; the envelope has already refused an event without it. -/
def deref {α : Type} (payload : Option α) : Except Failure α :=
  match payload with
  | some payload => .ok payload
  | none => fail "invalid memory address or nil pointer dereference"

/-- `unicode.IsSpace`. -/
def isSpace (c : Char) : Bool :=
  c.toNat ∈ [0x09, 0x0a, 0x0b, 0x0c, 0x0d, 0x20, 0x85, 0xa0, 0x1680, 0x2028, 0x2029, 0x202f, 0x205f,
    0x3000] || (0x2000 ≤ c.toNat && c.toNat ≤ 0x200a)

/-- `strings.TrimSpace(s) == ""`. -/
def isBlank (s : String) : Bool := s.toList.all isSpace

def validRunTrigger (trigger : RunTrigger) : Bool :=
  trigger = .initial || trigger = .ownerInput || trigger = .attention

def validOutcomeStatus : OutcomeStatus → Bool
  | .completed | .failed | .exhausted | .cancelled | .stopped => true
  | .unknown _ => false

def validDisposition (disposition : RunDisposition) : Bool :=
  disposition = .reported || disposition = .terminalError || disposition = .completedNoAction

def validateOutcome (outcome : Outcome) : Except Failure Unit :=
  if outcome.status ≠ .exhausted then
    failIf (outcome.exhaustionBudget.text ≠ "" ∨ outcome.exhaustionLimit ≠ 0 ∨
      outcome.resumable.isSome) "non-exhausted outcome carries exhaustion metadata"
  else do
    failIf (outcome.exhaustionLimit ≤ 0) "exhaustion limit must be positive"
    match outcome.resumable with
    | none => fail "exhausted outcome omits resumability"
    | some resumable =>
      match outcome.exhaustionBudget with
      | .toolRounds =>
        failIf (outcome.reason ≠ "tool_round_budget_exhausted") "tool-round exhaustion reason is %q"
          [outcome.reason]
        failIf (resumable = false) "tool-round exhaustion is not resumable"
      | .turns =>
        failIf (outcome.reason ≠ "turn_budget_exhausted") "turn exhaustion reason is %q"
          [outcome.reason]
        failIf (resumable = true) "turn exhaustion is resumable"
      | .unknown budget => fail "invalid exhaustion budget %q" [budget]

def validateSandboxConfigProjection (descriptor : Descriptor) : Except Failure Unit :=
  let mode := descriptor.config.sandbox
  let network := descriptor.config.sandboxNet
  match descriptor.sandbox with
  | none =>
    failIf (mode ≠ "" ∨ network.isSome)
      "sandbox snapshot is nil but config projection is nonempty"
  | some snapshot => do
    failIf (mode = "" ∧ network = none) "sandbox snapshot requires a config projection"
    failIf (snapshot.mode ≠ mode) "sandbox mode %q does not match config mode %q"
      [snapshot.mode, mode]
    failIf (snapshot.network ≠ network) "sandbox network does not match config network"

/-- The loop over the ceiling, after the name `previous`. -/
def validateToolNames : Option String → List String → Except Failure Unit
  | _, [] => .ok ()
  | previous, name :: names => do
    failIf (name = "") "tool name ceiling contains an empty name"
    failIf (name = "*") "tool name ceiling contains wildcard %q" [name]
    failIf (previous = some name) "tool name ceiling contains duplicate %q" [name]
    failIf (previous.any fun previous => decide (name < previous)) "tool name ceiling is not sorted"
    validateToolNames (some name) names

def validateToolNameCeiling (descriptor : Descriptor) : Except Failure Unit := do
  failIf (descriptor.toolNameCeiling = []) "tool name ceiling is empty"
  let resultToolName :=
    if descriptor.config.resultToolName = "" then "communicate"
    else descriptor.config.resultToolName
  validateToolNames none descriptor.toolNameCeiling
  failIf (resultToolName ∉ descriptor.toolNameCeiling) "tool name ceiling omits result tool %q"
    [resultToolName]

section Json

variable (json : Json)

def validateDescriptor (descriptor : Descriptor) : Except Failure Unit := do
  failIf (descriptor.childSessionId = "") "child session id is empty"
  failIf (descriptor.transcriptRef = "") "transcript ref is empty"
  failIf (descriptor.ownerSessionId = "") "owner session id is empty"
  failIf (descriptor.task = "") "task is empty"
  failIf (descriptor.agentType = "") "agent type is empty"
  failIf (descriptor.resultSchema ≠ [] ∧ json.valid descriptor.resultSchema = false)
    "result schema is not valid JSON"
  failIf (descriptor.config.shareTasksWithChildren = true ∧
    descriptor.sharedTaskStoreOwnerSessionId = "") "shared task store owner session id is empty"
  failIf (descriptor.config.shareTasksWithChildren = false ∧
    descriptor.sharedTaskStoreOwnerSessionId ≠ "") "shared task store owner requires task sharing"
  validateSandboxConfigProjection descriptor
  validateToolNameCeiling descriptor

def validateTerminalPacket (packet : TerminalPacket) : Except Failure Unit := do
  failIf (packet.kind ≠ .reported ∧ packet.kind ≠ .terminalError) "invalid kind %q"
    [packet.kind.text]
  failIf (packet.message = [] ∨ json.valid packet.message = false) "message is not valid JSON"
  failIf (packet.structuredResult ≠ [] ∧ json.valid packet.structuredResult = false)
    "structured result is not valid JSON"
  failIf (maxTerminalStructuredResultBytes < packet.structuredResult.length)
    "structured result exceeds %d bytes" [toString maxTerminalStructuredResultBytes]
  failIf (packet.metadata ≠ [] ∧ json.valid packet.metadata = false) "metadata is not valid JSON"

def validateFinishPacket (aggregate : Aggregate) (finish : RunFinished)
    (packet : Option TerminalPacket) : Except Failure Unit :=
  let id := aggregate.delegateId
  if finish.disposition = .completedNoAction then do
    failIf (aggregate.trigger ≠ .attention)
      "delegate %q completed_no_action requires attention trigger" [id]
    failIf (finish.outcome.status ≠ .completed) "delegate %q completed_no_action outcome is %q"
      [id, finish.outcome.status.text]
    failIf (finish.deliveryId ≠ "" ∨ finish.packet.isSome ∨ aggregate.preparedTerminal.isSome)
      "delegate %q completed_no_action cannot carry terminal delivery" [id]
  else
    match packet with
    | none => fail "delegate %q finish has no terminal packet" [id]
    | some packet => do
      wrapping "delegate %q finish packet: %w" [id] (validateTerminalPacket json packet)
      failIf (finish.disposition = .reported ∧ packet.kind ≠ .reported)
        "delegate %q reported finish has packet kind %q" [id, packet.kind.text]
      failIf (finish.disposition = .terminalError ∧ packet.kind ≠ .terminalError)
        "delegate %q terminal-error finish has packet kind %q" [id, packet.kind.text]
      if finish.observerCallbackDelivered then
        failIf (aggregate.trigger ≠ .attention ∨ aggregate.preparedTerminal = none ∨
            finish.disposition ≠ .reported ∨ finish.deliveryId ≠ "" ∨ finish.packet.isSome)
          "delegate %q observer callback finish is not an attention-triggered prepared report" [id]
      else
        failIf (finish.deliveryId = "") "delegate %q finish delivery id is empty" [id]

end Json

/-! ## The aggregates of a state -/

/-- `state[id]`. -/
def aggregateOf (state : State) (id : String) : Option Aggregate :=
  (lookup Prod.fst id state).map Prod.snd

/-- Every aggregate rewritten in place. -/
def rewrite (f : String → Aggregate → Aggregate) (state : State) : State :=
  state.map fun entry => (entry.1, f entry.1 entry.2)

/-- The aggregate behind the pointer `state[id]` overwritten. -/
def writeAggregate (state : State) (id : String) (aggregate : Aggregate) : State :=
  rewrite (fun id' old => if id' = id then aggregate else old) state

def requireAggregate (state : State) (id : String) : Except Failure Aggregate :=
  match aggregateOf state id with
  | none =>
    .error (.errorf "delegate %q: %w" [id] (some (.errorf "delegate does not exist" [] none)))
  | some aggregate => .ok aggregate

def requireExactOpenRun (state : State) (id : String) (generation : Nat) :
    Except Failure Aggregate := do
  let aggregate ← requireAggregate state id
  failIf (generation ≠ aggregate.generation)
    "delegate %q generation %d is stale; current generation is %d"
    [id, toString generation, toString aggregate.generation]
  failIf (aggregate.currentRunOpen = false) "delegate %q generation %d is already finished"
    [id, toString generation]
  return aggregate

def ownerCoveredByStop (state : State) (aggregate : Aggregate) : Bool :=
  let ownerId := aggregate.descriptor.parentDelegateId
  ownerId ≠ "" && (aggregateOf state ownerId).any fun owner =>
    owner.pendingStopSeq = aggregate.pendingStopSeq

/-- The loop of `isDelegateOrDescendant` from `current`, cut off after `fuel` turns. -/
def climbsTo (state : State) (target : String) : Nat → String → Option Bool
  | 0, _ => none
  | fuel + 1, current =>
    if current = "" then some false
    else if current = target then some true
    else
      match aggregateOf state current with
      | none => some false
      | some aggregate => climbsTo state target fuel aggregate.descriptor.parentDelegateId

/-- A chain of parents without a cycle is shorter than the state. -/
def isDelegateOrDescendant (state : State) (id target : String) : Bool :=
  (climbsTo state target (state.length + 1) id).getD false

/-! ## Deliveries -/

def queueDelivery (aggregate : Aggregate) (deliveryId : String) (generation : Nat)
    (packet : TerminalPacket) : Except Failure Aggregate := do
  failIf (aggregate.pendingDeliveries.any fun pending => pending.deliveryId = deliveryId)
    "delegate %q delivery %q already exists" [aggregate.delegateId, deliveryId]
  return { aggregate with
    pendingDeliveries := aggregate.pendingDeliveries ++
      [{ deliveryId := deliveryId
         generation := generation
         ownerDelegateId := aggregate.descriptor.parentDelegateId
         packet := packet }] }

def appendDelivery (aggregate : Aggregate) (deliveryId : String) (generation : Nat)
    (packet : Option TerminalPacket) : Except Failure Aggregate :=
  match packet with
  | none => fail "delegate %q finish requires delivery id and packet" [aggregate.delegateId]
  | some packet => do
    failIf (deliveryId = "") "delegate %q finish requires delivery id and packet"
      [aggregate.delegateId]
    let wantId := aggregate.delegateId ++ "/delivery/" ++ toString generation
    failIf (deliveryId ≠ wantId) "delegate %q delivery id %q, want %q"
      [aggregate.delegateId, deliveryId, wantId]
    queueDelivery aggregate deliveryId generation packet

def updateDeliveryId (delegateId : String) (seq : Nat) : String :=
  delegateId ++ "/update/" ++ toString seq

/-! ## The kinds of event -/

def applyCreated (json : Json) (state : State) (event : Event) : Except Failure State := do
  let payload ← deref event.created
  if (aggregateOf state event.delegateId).isSome then
    .error (.errorf "delegate %q: %w" [event.delegateId]
      (some (.errorf "delegate already exists" [] none)))
  else
    let descriptor := cloneDescriptor payload.descriptor
    wrapping "delegate_created: %w" [] (validateDescriptor json descriptor)
    if descriptor.parentDelegateId ≠ "" ∧ aggregateOf state descriptor.parentDelegateId = none then
      .error (.errorf "delegate_created: parent %q: %w" [descriptor.parentDelegateId]
        (some (.errorf "delegate does not exist" [] none)))
    else
      return put Prod.fst (event.delegateId,
        { createdAt := event.ts
          delegateId := event.delegateId
          descriptor := descriptor
          phase := if descriptor.resumable then .idle else .closed
          resumable := descriptor.resumable }) state

def applyRunStarted (state : State) (event : Event) : Except Failure State := do
  let aggregate ← requireAggregate state event.delegateId
  let payload ← deref event.runStarted
  failIf (payload.generation ≠ aggregate.generation + 1) "delegate %q run generation %d, want %d"
    [event.delegateId, toString payload.generation, toString (aggregate.generation + 1)]
  failIf (aggregate.phase ≠ .idle) "delegate %q phase %q cannot start"
    [event.delegateId, aggregate.phase.text]
  failIf (aggregate.resumable = false) "delegate %q is not resumable" [event.delegateId]
  failIf (aggregate.pendingStopSeq ≠ 0) "delegate %q belongs to pending subtree stop %d"
    [event.delegateId, toString aggregate.pendingStopSeq]
  failIf (validRunTrigger payload.trigger = false) "delegate %q has invalid run trigger %q"
    [event.delegateId, payload.trigger.text]
  failIf (payload.startedAt = 0) "delegate %q run start time is zero" [event.delegateId]
  return writeAggregate state event.delegateId
    { aggregate with
      generation := payload.generation
      trigger := payload.trigger
      phase := .running
      currentRunOpen := true
      preparedTerminal := none
      runStartedAt := payload.startedAt
      latestActivityAt := payload.startedAt
      latestIntent := "" }

def applyTerminalPrepared (json : Json) (state : State) (event : Event) : Except Failure State := do
  let payload ← deref event.terminalPrepared
  let aggregate ← requireExactOpenRun state event.delegateId payload.generation
  failIf (aggregate.phase ≠ .running) "delegate %q phase %q cannot prepare terminal"
    [event.delegateId, aggregate.phase.text]
  wrapping "delegate %q terminal packet: %w" [event.delegateId]
    (validateTerminalPacket json payload.packet)
  return writeAggregate state event.delegateId
    { aggregate with
      preparedTerminal := some payload.packet
      phase := .settling }

/-- The raw message `"stopped by parent"`, quotes included. -/
def stoppedByParentMessage : Bytes :=
  [34, 115, 116, 111, 112, 112, 101, 100, 32, 98, 121, 32, 112, 97, 114, 101, 110, 116, 34]

/-- A finish under a stop: the outcome is forced to stopped, and its packet goes to the owner
    unless the stop covers the owner too. -/
def finishStopping (json : Json) (state : State) (event : Event) (aggregate : Aggregate)
    (payload : RunFinished) (packet : Option TerminalPacket) :
    Except Failure (Aggregate × Option TerminalPacket) := do
  let aggregate := { aggregate with needsAttention := false }
  failIf (payload.observerCallbackDelivered = true)
    "delegate %q stopped finish cannot report observer callback" [event.delegateId]
  let outcome :=
    { payload.outcome with
      status := .stopped
      reason := reasonStoppedByParent }
  if ownerCoveredByStop state aggregate then
    return ({ aggregate with latestOutcome := some outcome }, packet)
  else
    let packet :=
      match payload.packet with
      | none => { kind := .terminalError, message := stoppedByParentMessage }
      | some packet =>
        if packet.kind = .terminalError then packet
        else { kind := .terminalError, message := stoppedByParentMessage }
    wrapping "delegate %q stopped finish packet: %w" [event.delegateId]
      (validateTerminalPacket json packet)
    let aggregate ← appendDelivery aggregate payload.deliveryId payload.generation (some packet)
    return ({ aggregate with latestOutcome := some outcome }, some packet)

/-- The finish queues its packet, unless there is none to hand over. -/
def deliverFinish (aggregate : Aggregate) (payload : RunFinished) (packet : Option TerminalPacket) :
    Except Failure Aggregate :=
  if payload.disposition ≠ .completedNoAction ∧ payload.observerCallbackDelivered = false then
    appendDelivery aggregate payload.deliveryId payload.generation packet
  else .ok aggregate

/-- The delegate after a run that no stop cut short. -/
def restAggregate (aggregate : Aggregate) : Aggregate :=
  if aggregate.resumable then
    { aggregate with
      preparedTerminal := none
      phase := .idle }
  else
    { aggregate with
      preparedTerminal := none
      phase := .closed
      needsAttention := false }

def finishSettled (json : Json) (aggregate : Aggregate) (payload : RunFinished)
    (packet : Option TerminalPacket) : Except Failure (Aggregate × Option TerminalPacket) := do
  validateFinishPacket json aggregate payload packet
  let aggregate ← deliverFinish { aggregate with latestOutcome := some payload.outcome } payload
    packet
  return (restAggregate aggregate, packet)

/-- The two ways a run finishes. -/
def finishRun (json : Json) (state : State) (event : Event) (aggregate : Aggregate)
    (payload : RunFinished) : Except Failure (Aggregate × Option TerminalPacket) :=
  let packet := payload.packet <|> aggregate.preparedTerminal
  if aggregate.phase = .stopping then finishStopping json state event aggregate payload packet
  else finishSettled json aggregate payload packet

def applyRunFinished (json : Json) (state : State) (event : Event) : Except Failure State := do
  let payload ← deref event.runFinished
  let aggregate ← requireExactOpenRun state event.delegateId payload.generation
  failIf (aggregate.phase ≠ .running ∧ aggregate.phase ≠ .settling ∧ aggregate.phase ≠ .stopping)
    "delegate %q phase %q cannot finish" [event.delegateId, aggregate.phase.text]
  failIf (validOutcomeStatus payload.outcome.status = false) "delegate %q has invalid outcome %q"
    [event.delegateId, payload.outcome.status.text]
  wrapping "delegate %q outcome: %w" [event.delegateId] (validateOutcome payload.outcome)
  failIf (payload.outcome.endedAt = 0) "delegate %q finish time is zero" [event.delegateId]
  failIf (validDisposition payload.disposition = false) "delegate %q has invalid disposition %q"
    [event.delegateId, payload.disposition.text]
  let finished ← finishRun json state event aggregate payload
  return writeAggregate state event.delegateId
    { finished.1 with
      currentRunOpen := false
      latestActivityAt := payload.outcome.endedAt
      latestIntent := ""
      latestPacket := finished.2 }

def applyResumabilityClosed (state : State) (event : Event) : Except Failure State := do
  let aggregate ← requireAggregate state event.delegateId
  let payload ← deref event.resumabilityClosed
  failIf (payload.reason = "") "delegate %q resumability close reason is empty" [event.delegateId]
  failIf (aggregate.resumable = false) "delegate %q resumability is already closed"
    [event.delegateId]
  let state := writeAggregate state event.delegateId
    { aggregate with
      resumable := false
      notResumableReason := payload.reason
      phase := if aggregate.phase = .idle then .closed else aggregate.phase }
  return rewrite (fun id descendant =>
    if isDelegateOrDescendant state id event.delegateId then
      { descendant with needsAttention := false }
    else descendant) state

def stopAggregate (event : Event) (aggregate : Aggregate) : Aggregate :=
  { aggregate with
    pendingStopSeq := event.seq
    pendingStopAt := event.ts
    needsAttention := false
    phase := if aggregate.phase ≠ .closed then .stopping else aggregate.phase }

def applySubtreeStopRequested (state : State) (event : Event) : Except Failure State := do
  failIf (event.seq = 0) "delegate subtree stop request sequence is zero"
  let payload ← deref event.subtreeStopRequested
  failIf (payload.targetDelegateId ≠ event.delegateId)
    "delegate subtree stop target %q does not match delegate %q"
    [payload.targetDelegateId, event.delegateId]
  let _ ← requireAggregate state payload.targetDelegateId
  match state.find? fun entry => entry.2.pendingStopSeq ≠ 0 with
  | some entry =>
    fail "pending subtree stop %d already exists" [toString entry.2.pendingStopSeq]
  | none =>
    return rewrite (fun id aggregate =>
      if isDelegateOrDescendant state id payload.targetDelegateId then stopAggregate event aggregate
      else aggregate) state

/-- The aggregate after the stop `requestSeq` of it is complete. -/
def releaseAggregate (aggregate : Aggregate) : Aggregate :=
  { aggregate with
    pendingStopSeq := 0
    pendingStopAt := 0
    preparedTerminal := none
    needsAttention := false
    phase := if aggregate.resumable then .idle else .closed }

def applySubtreeStopCompleted (state : State) (event : Event) : Except Failure State := do
  let payload ← deref event.subtreeStopCompleted
  failIf (payload.requestSeq = 0) "delegate subtree stop completion request sequence is zero"
  let target ← requireAggregate state event.delegateId
  failIf (target.pendingStopSeq ≠ payload.requestSeq)
    "delegate %q pending stop sequence %d, want %d"
    [event.delegateId, toString target.pendingStopSeq, toString payload.requestSeq]
  let members := state.filter fun entry => entry.2.pendingStopSeq = payload.requestSeq
  match members.find? fun entry => entry.2.currentRunOpen with
  | some entry => fail "delegate %q current run is still open" [entry.1]
  | none =>
    let covered := members.map Prod.fst
    failIf (covered = []) "delegate subtree stop %d has no members" [toString payload.requestSeq]
    let state := rewrite (fun _ aggregate =>
      { aggregate with
        pendingDeliveries := aggregate.pendingDeliveries.filter fun delivery =>
          delivery.ownerDelegateId ∉ covered }) state
    return rewrite (fun id aggregate =>
      if id ∈ covered then releaseAggregate aggregate else aggregate) state

def applyDeliveryAcknowledged (state : State) (event : Event) : Except Failure State := do
  let aggregate ← requireAggregate state event.delegateId
  let payload ← deref event.deliveryAcknowledged
  failIf (payload.deliveryId = "") "delegate %q delivery acknowledgement id is empty"
    [event.delegateId]
  failIf (aggregate.pendingDeliveries.head?.map (·.deliveryId) ≠ some payload.deliveryId)
    "delegate %q delivery %q is not the pending head" [event.delegateId, payload.deliveryId]
  return writeAggregate state event.delegateId
    { aggregate with pendingDeliveries := aggregate.pendingDeliveries.tail }

def applyAttentionChanged (state : State) (event : Event) : Except Failure State := do
  let aggregate ← requireAggregate state event.delegateId
  let payload ← deref event.attentionChanged
  return writeAggregate state event.delegateId
    { aggregate with needsAttention := payload.needsAttention }

def applyUpdatePosted (json : Json) (state : State) (event : Event) : Except Failure State := do
  let payload ← deref event.updatePosted
  failIf (event.seq = 0) "delegate %q update sequence is zero" [event.delegateId]
  let aggregate ← requireExactOpenRun state event.delegateId payload.generation
  failIf (aggregate.phase ≠ .running) "delegate %q phase %q cannot post an update"
    [event.delegateId, aggregate.phase.text]
  failIf (isBlank payload.message = true) "delegate %q update message is empty" [event.delegateId]
  let aggregate ← queueDelivery aggregate (updateDeliveryId event.delegateId event.seq)
    payload.generation { kind := .update, message := json.marshal payload.message }
  return writeAggregate state event.delegateId aggregate

def applyIntentStated (state : State) (event : Event) : Except Failure State := do
  let payload ← deref event.intentStated
  let aggregate ← requireExactOpenRun state event.delegateId payload.generation
  failIf (aggregate.phase ≠ .running) "delegate %q phase %q cannot state intent"
    [event.delegateId, aggregate.phase.text]
  return writeAggregate state event.delegateId { aggregate with latestIntent := payload.intent }

/-! ## One event -/

/-- Every kind with the test for its payload, in payload-field order. -/
def eventKindSpecs : List (EventKind × (Event → Bool)) :=
  [(.delegateCreated, fun event => event.created.isSome),
    (.delegateRunStarted, fun event => event.runStarted.isSome),
    (.delegateTerminalPrepared, fun event => event.terminalPrepared.isSome),
    (.delegateRunFinished, fun event => event.runFinished.isSome),
    (.delegateResumabilityClosed, fun event => event.resumabilityClosed.isSome),
    (.delegateSubtreeStopRequested, fun event => event.subtreeStopRequested.isSome),
    (.delegateSubtreeStopCompleted, fun event => event.subtreeStopCompleted.isSome),
    (.delegateDeliveryAcknowledged, fun event => event.deliveryAcknowledged.isSome),
    (.delegateAttentionChanged, fun event => event.attentionChanged.isSome),
    (.delegateUpdatePosted, fun event => event.updatePosted.isSome),
    (.delegateIntentStated, fun event => event.intentStated.isSome)]

def validateEventEnvelope (event : Event) : Except Failure Unit := do
  failIf (event.delegateId = "") "delegate event %q has empty delegate id" [event.kind.text]
  let count := eventKindSpecs.countP fun spec => spec.2 event
  match eventKindSpecs.find? fun spec => spec.1 = event.kind with
  | none => fail "unknown delegate event kind %q" [event.kind.text]
  | some spec =>
    failIf (count ≠ 1 ∨ spec.2 event = false) "delegate event %q payload does not match kind"
      [event.kind.text]

def applyEvent (json : Json) (state : State) (event : Event) : Except Failure State :=
  match event.kind with
  | .delegateCreated => applyCreated json state event
  | .delegateRunStarted => applyRunStarted state event
  | .delegateTerminalPrepared => applyTerminalPrepared json state event
  | .delegateRunFinished => applyRunFinished json state event
  | .delegateResumabilityClosed => applyResumabilityClosed state event
  | .delegateSubtreeStopRequested => applySubtreeStopRequested state event
  | .delegateSubtreeStopCompleted => applySubtreeStopCompleted state event
  | .delegateDeliveryAcknowledged => applyDeliveryAcknowledged state event
  | .delegateAttentionChanged => applyAttentionChanged state event
  | .delegateUpdatePosted => applyUpdatePosted json state event
  | .delegateIntentStated => applyIntentStated state event
  | .unknown kind => fail "unknown delegate event kind %q" [kind]

/-- Whether the event may write the aggregate `id`. -/
def touchedDelegates (state : State) (event : Event) (id : String) : Bool :=
  match event.kind with
  | .delegateResumabilityClosed | .delegateSubtreeStopRequested =>
    (aggregateOf state id).isSome && isDelegateOrDescendant state id event.delegateId
  | .delegateSubtreeStopCompleted => (aggregateOf state id).isSome
  | _ => id = event.delegateId

/-- What a projection of the aggregate shows. -/
structure PublicProjection where
  descriptor : Descriptor
  phase : Phase
  resumable : Bool
  notResumableReason : String
  needsAttention : Bool
  latestActivityAt : Int
  latestIntent : String
  latestOutcome : Option Outcome
deriving DecidableEq

def publicProjection (aggregate : Aggregate) : PublicProjection where
  descriptor := aggregate.descriptor
  phase := aggregate.phase
  resumable := aggregate.resumable
  notResumableReason := aggregate.notResumableReason
  needsAttention := aggregate.needsAttention
  latestActivityAt := aggregate.latestActivityAt
  latestIntent := aggregate.latestIntent
  latestOutcome := aggregate.latestOutcome

def applyWithProjectionRevisions (json : Json) (state : State) (event : Event) :
    Except Failure State := do
  let after ← applyEvent json state event
  return rewrite (fun id aggregate =>
    if touchedDelegates state event id then
      match aggregateOf state id with
      | none => { aggregate with projectionRevision := 1 }
      | some previous =>
        if publicProjection previous ≠ publicProjection aggregate then
          { aggregate with projectionRevision := aggregate.projectionRevision + 1 }
        else aggregate
    else aggregate) after

/-- One turn of the loop of `Fold`, on the event at index `i`. -/
def foldStep (json : Json) (state : State) (entry : Event × Nat) : Except Failure State := do
  let (event, i) := entry
  failIf (event.seq ≠ i + 1) "delegate event sequence %d, want %d"
    [toString event.seq, toString (i + 1)]
  wrapping "delegate event %d: %w" [toString event.seq] (validateEventEnvelope event)
  wrapping "delegate event %d: %w" [toString event.seq]
    (applyWithProjectionRevisions json state event)

def fold (json : Json) (events : List Event) : Except Failure State :=
  events.zipIdx.foldlM (foldStep json) []

end Evener.Delegatestore
