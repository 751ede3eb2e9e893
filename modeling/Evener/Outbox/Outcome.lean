/-
  What one call of the outbox does, for every operation at once: `Effect` lists the ways a call
  can commit on a tidy database, and `exec_spec` shows the list complete.
-/
import Evener.Outbox.RetargetEffects

namespace Evener.Outbox

open Evener.Lib JsValue

/-- A call that commits without writing anything, by what it answers. -/
def Idle (s : Db) : OutboxOp → Reply → Prop
  | .mintRetryFromRow _ _ _, reply => reply = .row none
  | .retargetOutbox fromRef toRef _, reply => fromRef = toRef ∧ reply = .moved ⟨[], [], []⟩
  | .settleReceipt _ _, reply => reply = .settled notSettled
  | .settleApplied _, reply => reply = .settled notSettled
  | .sweep _, reply => reply = .keys []
  | .markAttempted _, reply => reply = .flag false
  | .unmarkAttempted id, reply => (∃ b, reply = .flag b) ∧ ∀ r ∈ s.outbox,
      r.clientMutationId = id → r.state ≠ .submitting ∧ r.state ≠ .blockedUnknown
  | .markUnknown _ _, reply => ∃ b, reply = .flag b
  | .transferToRecovery _ _ _ _, reply => reply = .recovery none
  | .editQueuedMessage _ _, reply => reply = .recovery none
  | .removeQueuedMessage _ _, reply => reply = .flag false
  | .updateRecoveryInput _ _, reply => reply = .recovery none
  | .preserveRecoveryComposition _ _ _, reply => ∃ c ∈ s.recovery, reply = .recovery (some c)
  | .discardRecovery _ _ _, reply => reply = .flag false
  | .resendRecovery _ _, reply => reply = .resent .refused ∨ reply = .resent .consumed
  | _, _ => False

/-- The database after a pending sweep. -/
def sweptDb (sweep : Sweep) (s : Db) : Db :=
  match sweep with
  | .recoverySiblings wireId exclude => dropRecovery (sweptRecovery wireId exclude) s
  | .canceledNotes targetRef intentSequence => dropRows (outdatedNote targetRef intentSequence) s

/-- The sweeps the settlement of `k` starts. -/
def SettleKey.sweeps (k : SettleKey) : List Sweep :=
  .recoverySiblings k.wireId [k.id, k.subject.clientMutationId] ::
    (if k.subject.method = humanNoteMethod then
      [.canceledNotes k.subject.targetRef k.subject.intentSequence] else [])

/-- `k` is what a settlement of its id settles at `s`, and `outcome` reports it. -/
structure SettleOf (s : Db) (k : SettleKey) (outcome : SettleOutcome) : Prop where
  held : k.subject ∈ recordsOf s.toStores
  wire : effectiveWireId k.subject = k.wireId
  named : ∀ a ∈ recordsOf s.toStores, a.clientMutationId = k.id → k.subject.clientMutationId = k.id
  settled : outcome.settled = true
  wireId : outcome.wireId = some k.wireId
  sweeps : outcome.sweeps = k.sweeps

inductive Effect (supply : Nat → String) (sweeps : List Sweep) (s : Db) :
    OutboxOp → Reply → Db → Prop where
  | idle {op : OutboxOp} {reply : Reply} : Idle s op reply → Effect supply sweeps s op reply s
  | enqueued (tab : Tab) (intent : MutationIntent) (barrier : Option Nat)
      {state : MutationOutboxState} {row : MutationOutboxRecord} :
      state = .submitting ∨ state = .canceled →
      row = enqueuedRow tab intent (supply s.drawn)
        (lastSequenceOf s.sequences intent.targetRef + 1) (epochOf s.sequences intent.targetRef)
        state →
      KeyFree s.toStores (supply s.drawn) →
      Effect supply sweeps s (.enqueueIntent tab intent barrier) (.row (some row)) (insertRow s row)
  | interrupted (tab : Tab) (intent : MutationIntent) {row : MutationOutboxRecord} :
      row = enqueuedRow tab intent (supply s.drawn)
        (lastSequenceOf (stopped intent.targetRef s).sequences intent.targetRef + 1)
        (epochOf (stopped intent.targetRef s).sequences intent.targetRef) .submitting →
      KeyFree (stopped intent.targetRef s).toStores (supply s.drawn) →
      Effect supply sweeps s (.enqueueInterruptAndCancel tab intent) (.row (some row))
        (insertRow (stopped intent.targetRef s) row)
  | stopped (ref : String) (ids : List String) :
      Effect supply sweeps s (.cancelUnattempted ref) (.keys ids) (stopped ref s)
  | discarded (ref : String) (ids : List String) :
      Effect supply sweeps s (.discardCanceled ref) (.keys ids)
        (dropRows (fun r => r.targetRef = ref && r.state = .canceled) s)
  | discardedOfInstance (ref instanceId : String) (ids : List String) :
      Effect supply sweeps s (.discardCanceledOfInstance ref instanceId) (.keys ids)
        (dropRows (fun r => r.targetRef = ref && r.state = .canceled &&
          fusedIdentity r.toMutationRecord = some instanceId) s)
  | retried (tab : Tab) {id : String} (capture : MutationRetryCapture)
      {source fresh : MutationOutboxRecord} : source.clientMutationId = id →
      MintOf supply s source fresh →
      Effect supply sweeps s (.mintRetryFromRow tab id capture) (.row (some fresh))
        (minted source fresh s)
  | retargeted {fromRef toRef : String} {identity : ResumedIdentity} {moved : RetargetedMutations}
      {s' : Db} : RetargetOf s fromRef ⟨toRef, identity, epochOf s.sequences toRef⟩ moved s' →
      Effect supply sweeps s (.retargetOutbox fromRef toRef identity) (.moved moved) s'
  | settledReceipt {k : SettleKey} (projectionState : String) {outcome : SettleOutcome} {s' : Db} :
      SettleOf s k outcome → Settling s k s' →
      Effect supply sweeps s (.settleReceipt k.id projectionState) (.settled outcome) s'
  | settledApplied {k : SettleKey} {outcome : SettleOutcome} {s' : Db} :
      SettleOf s k outcome → Settling s k s' →
      Effect supply sweeps s (.settleApplied k.id) (.settled outcome) s'
  | swept {index : Nat} {sweep : Sweep} (ids : List String) : sweeps[index]? = some sweep →
      Effect supply sweeps s (.sweep index) (.keys ids) (sweptDb sweep s)
  | marked {id : String} {r : MutationOutboxRecord} : r ∈ s.outbox → r.clientMutationId = id →
      r.state = .submitting → (gated r = true → markCrossed s.toStores r = false) →
      Effect supply sweeps s (.markAttempted id) (.flag true) { s with
        outbox := put outboxKey (markedRow r (keptBaseline s.toStores r)) s.outbox }
  | fenced {id : String} {r : MutationOutboxRecord} : r ∈ s.outbox → r.clientMutationId = id →
      r.state = .submitting → gated r = true → markCrossed s.toStores r = true →
      Effect supply sweeps s (.markAttempted id) (.flag false) { s with
        outbox := put outboxKey (fencedRow r (markBaseline s.toStores r) (markUncertain r))
          s.outbox }
  | unmarked {id : String} {r : MutationOutboxRecord} (b : Bool) : r ∈ s.outbox →
      r.clientMutationId = id → r.state = .submitting ∨ r.state = .blockedUnknown →
      Effect supply sweeps s (.unmarkAttempted id) (.flag b) { s with
        outbox := put outboxKey (unmarkedRow (fenceCrossed r (epochOf s.sequences r.targetRef)
          (displayedEpochOf s.sequences r)) r) s.outbox }
  | blocked {id : String} (onlyAttempted : Bool) {r : MutationOutboxRecord} (b : Bool) :
      r ∈ s.outbox → r.clientMutationId = id → r.state = .submitting →
      Effect supply sweeps s (.markUnknown id onlyAttempted) (.flag b) { s with
        outbox := put outboxKey (blockRow r) s.outbox }
  | restored (tab : Tab) (ref : String) (ids : List String)
      {requeued : List (String × MutationOutboxRecord)} {s' : Db} : Restores supply s requeued s' →
      Effect supply sweeps s (.restoreProvenAbsent tab ref ids) (.rows requeued) s'
  | transferred {id : String} (kind : MutationRecoveryKind) (reason : Option String)
      (uncertain : Bool) {r : MutationOutboxRecord} : r ∈ s.outbox → r.clientMutationId = id →
      (r.method ≠ humanNoteMethod → NoCopy s.toStores (effectiveWireId r.toMutationRecord)) →
      Effect supply sweeps s (.transferToRecovery id kind reason uncertain)
        (.recovery (some (recoveryOf r kind reason uncertain)))
        (transferred r (recoveryOf r kind reason uncertain) s)
  | coalesced {id : String} (kind : MutationRecoveryKind) (reason : Option String)
      (uncertain : Bool) {r : MutationOutboxRecord} {copy : MutationRecoveryRecord} :
      r ∈ s.outbox → r.clientMutationId = id → copy ∈ s.recovery → r.method ≠ humanNoteMethod →
      effectiveWireId copy.toMutationRecord = effectiveWireId r.toMutationRecord →
      Effect supply sweeps s (.transferToRecovery id kind reason uncertain)
        (.recovery (some copy)) { s with outbox := erase outboxKey id s.outbox }
  | edited (expected : MutationOutboxRecord) (barrier : Nat) {r : MutationOutboxRecord} :
      r ∈ s.outbox → r.clientMutationId = expected.clientMutationId →
      canEditQueuedMessage r = true →
      NoCopy s.toStores (effectiveWireId r.toMutationRecord) →
      Effect supply sweeps s (.editQueuedMessage expected barrier)
        (.recovery (some (recoveryOf r .editing none
          (wireIdentityUncertain r (effectiveWireId r.toMutationRecord)))))
        (transferred r (recoveryOf r .editing none
          (wireIdentityUncertain r (effectiveWireId r.toMutationRecord))) s)
  | editedOver (expected : MutationOutboxRecord) (barrier : Nat) {r : MutationOutboxRecord}
      {carrier : MutationRecoveryRecord} :
      r ∈ s.outbox → r.clientMutationId = expected.clientMutationId →
      canEditQueuedMessage r = true → carrier ∈ s.recovery →
      effectiveWireId carrier.toMutationRecord = effectiveWireId r.toMutationRecord →
      ownsEditing carrier = false →
      Effect supply sweeps s (.editQueuedMessage expected barrier)
        (.recovery (some (recoveryOf r .editing none
          (wireIdentityUncertain r (effectiveWireId r.toMutationRecord)))))
        (transferred r (recoveryOf r .editing none
          (wireIdentityUncertain r (effectiveWireId r.toMutationRecord)))
          (dropRecovery (fun x => x.clientMutationId = carrier.clientMutationId) s))
  | removed (expected : MutationOutboxRecord) (barrier : Nat) {r : MutationOutboxRecord} :
      r ∈ s.outbox → r.clientMutationId = expected.clientMutationId →
      canRemoveQueuedMessage r = true →
      Effect supply sweeps s (.removeQueuedMessage expected barrier) (.flag true)
        (dropRows (fun x => x.clientMutationId = r.clientMutationId)
          (dropRecovery (sweptRecovery (effectiveWireId r.toMutationRecord) [r.clientMutationId])
            (dropRows (sweptRow (effectiveWireId r.toMutationRecord) [r.clientMutationId] false)
              s)))
  | updated {id : String} (update : RecoveryUpdate) {c : MutationRecoveryRecord}
      {sources : List String} : c ∈ s.recovery → c.clientMutationId = id →
      sources = consumedSources update id →
      (∀ source ∈ sources, ∃ c' ∈ s.recovery, c'.clientMutationId = source) →
      Effect supply sweeps s (.updateRecoveryInput id update)
        (.recovery (some (updatedRecovery update c)))
        (dropRecovery (fun x => sources.contains x.clientMutationId)
          (dropRows (sweptByAny (wiresOf s.recovery sources) (id :: sources))
            { s with recovery := put recoveryKey (updatedRecovery update c) s.recovery }))
  | preserved (tab : Tab) (base : MutationRecoveryRecord) (draft : PreservedComposition)
      {c : MutationRecoveryRecord} :
      c = preservedRecovery tab base draft (supply s.drawn)
        (lastSequenceOf s.sequences base.targetRef + 1) (epochOf s.sequences base.targetRef) →
      KeyFree s.toStores (supply s.drawn) →
      Effect supply sweeps s (.preserveRecoveryComposition tab base draft) (.recovery (some c))
        (insertRecovery s c)
  | discardedRecovery {id : String} (shouldDiscard : Bool) (expectedRevision : Option Nat)
      {c : MutationRecoveryRecord} : c ∈ s.recovery → c.clientMutationId = id →
      Effect supply sweeps s (.discardRecovery id shouldDiscard expectedRevision) (.flag true)
        (dropRecovery (fun x => x.clientMutationId = id)
          (dropRows (sweptRow (effectiveWireId c.toMutationRecord) [id] false) s))
  | resent (tab : Tab) {request : ResendRequest} {consumed : List MutationRecoveryRecord}
      {row : MutationOutboxRecord} (ids : List String) :
      ResendOf supply s request consumed row →
      Effect supply sweeps s (.resendRecovery tab request) (.resent (.sent row ids))
        (resent request consumed row s)

section Exec

variable (supply : Nat → String) (sweeps : List Sweep) {s : Db}

-- the elaborator would otherwise evaluate the `targetRef` check of a symbolic intent
attribute [local irreducible] jsTrim

/-- The reply of a call, from what its method returned. -/
theorem wp_reply {α : Type} {x : DbTx α} {f : α → Reply} {P : α → Db → Prop} {op : OutboxOp}
    (h : Tx.wp x s P (Refused s))
    (hP : ∀ a s', P a s' → Effect supply sweeps s op (f a) s') :
    Tx.wp (x >>= fun a => pure (f a)) s (Effect supply sweeps s op) (Refused s) := by
  rw [Tx.wp_bind]
  exact Tx.wp_mono h hP fun _ _ hrefused => hrefused

theorem exec_spec (h : Tidy s) (op : OutboxOp) :
    Tx.wp (exec supply sweeps op) s (Effect supply sweeps s op) (Refused s) := by
  cases op with
  | enqueueIntent tab intent barrier =>
    refine wp_reply supply sweeps (enqueueIntent_spec supply h tab intent barrier) ?_
    rintro row s' ⟨state, hstate, hrow, hfree, rfl⟩
    exact Effect.enqueued tab intent barrier hstate hrow hfree
  | enqueueInterruptAndCancel tab intent =>
    refine wp_reply supply sweeps (enqueueInterruptAndCancel_spec supply h tab intent) ?_
    rintro row s' ⟨hrow, hfree, rfl⟩
    exact Effect.interrupted tab intent hrow hfree
  | cancelUnattempted ref =>
    refine wp_reply supply sweeps (cancelUnattempted_spec h ref) ?_
    rintro ids s' rfl
    exact Effect.stopped ref ids
  | discardCanceled ref =>
    refine wp_reply supply sweeps (discardRows_spec h _) ?_
    rintro ids s' rfl
    exact Effect.discarded ref ids
  | discardCanceledOfInstance ref instanceId =>
    refine wp_reply supply sweeps (discardRows_spec h _) ?_
    rintro ids s' rfl
    exact Effect.discardedOfInstance ref instanceId ids
  | mintRetryFromRow tab id capture =>
    refine wp_reply supply sweeps (mintRetryFromRow_spec supply h tab id capture) ?_
    rintro result s' (⟨hnone, rfl⟩ | ⟨source, fresh, hkey, hmint, hsome, rfl⟩)
    · exact Effect.idle (congrArg Reply.row hnone)
    · rw [hsome]
      exact Effect.retried tab capture hkey hmint
  | retargetOutbox fromRef toRef identity =>
    refine wp_reply supply sweeps (retargetOutbox_spec h fromRef toRef identity) ?_
    rintro moved s' (⟨href, rfl, rfl⟩ | hmoved)
    · exact Effect.idle ⟨href, rfl⟩
    · exact Effect.retargeted hmoved
  | settleReceipt id projectionState =>
    refine wp_reply supply sweeps (settleReceiptResult_spec h id projectionState) ?_
    rintro outcome s' (⟨rfl, rfl⟩ | ⟨k, rfl, hheld, hwire, hnamed, hsettled, hid, hsweeps, hs⟩)
    · exact Effect.idle rfl
    · exact Effect.settledReceipt projectionState ⟨hheld, hwire, hnamed, hsettled, hid, hsweeps⟩ hs
  | settleApplied id =>
    refine wp_reply supply sweeps (settleAppliedResult_spec h id) ?_
    rintro outcome s' (⟨rfl, rfl⟩ | ⟨k, rfl, hheld, hwire, hnamed, hsettled, hid, hsweeps, hs⟩)
    · exact Effect.idle rfl
    · exact Effect.settledApplied ⟨hheld, hwire, hnamed, hsettled, hid, hsweeps⟩ hs
  | sweep index =>
    rw [exec]
    split
    · next sweep hsweep =>
      refine wp_reply supply sweeps (runSweep_spec h sweep) ?_
      rintro ids s' rfl
      exact Effect.swept ids hsweep
    · exact Effect.idle rfl
  | markAttempted id =>
    refine wp_reply supply sweeps (markAttempted_spec h id) ?_
    rintro passed s' (⟨rfl, rfl⟩ | ⟨r, hr, hkey, hstate, ⟨rfl, hgate, rfl⟩ | ⟨rfl, hgated, hcrossed, rfl⟩⟩)
    · exact Effect.idle rfl
    · exact Effect.marked hr hkey hstate hgate
    · exact Effect.fenced hr hkey hstate hgated hcrossed
  | unmarkAttempted id =>
    refine wp_reply supply sweeps (unmarkAttempted_spec h id) ?_
    rintro b s' (⟨rfl, hother⟩ | ⟨r, hr, hkey, hstate, rfl⟩)
    · exact Effect.idle ⟨⟨b, rfl⟩, hother⟩
    · exact Effect.unmarked b hr hkey hstate
  | markUnknown id onlyAttempted =>
    refine wp_reply supply sweeps (markUnknown_spec h id onlyAttempted) ?_
    rintro b s' (rfl | ⟨r, hr, hkey, hstate, rfl⟩)
    · exact Effect.idle ⟨b, rfl⟩
    · exact Effect.blocked onlyAttempted b hr hkey hstate
  | restoreProvenAbsent tab ref ids =>
    refine wp_reply supply sweeps (restoreProvenAbsent_spec h tab ref ids) ?_
    exact fun result s' hrestores => Effect.restored tab ref ids hrestores
  | transferToRecovery id kind reason uncertain =>
    refine wp_reply supply sweeps (transferToRecovery_spec h id kind reason uncertain) ?_
    rintro result s' (⟨rfl, rfl⟩ | ⟨r, hr, hkey, ⟨copy, hcopy, rfl, hmethod, hwire, rfl⟩ |
      ⟨rfl, hnocopy, rfl⟩⟩)
    · exact Effect.idle rfl
    · exact Effect.coalesced kind reason uncertain hr hkey hcopy hmethod hwire
    · exact Effect.transferred kind reason uncertain hr hkey hnocopy
  | editQueuedMessage expected barrier =>
    refine wp_reply supply sweeps (editQueuedMessage_spec h expected barrier) ?_
    rintro result s' (⟨rfl, rfl⟩ | ⟨r, hr, hkey, hedit, c, rfl, rfl, ⟨hnocopy, rfl⟩ |
      ⟨carrier, hcarrier, hwire, howns, rfl⟩⟩)
    · exact Effect.idle rfl
    · exact Effect.edited expected barrier hr hkey hedit hnocopy
    · exact Effect.editedOver expected barrier hr hkey hedit hcarrier hwire howns
  | removeQueuedMessage expected barrier =>
    refine wp_reply supply sweeps (removeQueuedMessage_spec h expected barrier) ?_
    rintro ⟨b, ids⟩ s' (⟨hb, rfl⟩ | ⟨r, hr, hkey, hremove, hb, rfl⟩)
    · exact Effect.idle (congrArg Reply.flag hb)
    · have hb : b = true := hb
      rw [hb]
      exact Effect.removed expected barrier hr hkey hremove
  | updateRecoveryInput id update =>
    refine wp_reply supply sweeps (updateRecoveryInput_spec h id update) ?_
    rintro ⟨result, ids⟩ s' (⟨hnone, rfl⟩ | ⟨c, hc, hkey, sources, hsources, hheld, hsome, rfl⟩)
    · exact Effect.idle (congrArg Reply.recovery hnone)
    · have hsome : result = some (updatedRecovery update c) := hsome
      rw [hsome]
      exact Effect.updated update hc hkey hsources hheld
  | preserveRecoveryComposition tab base draft =>
    refine wp_reply supply sweeps (preserveRecoveryComposition_spec supply tab base draft) ?_
    rintro c s' (⟨hc, rfl⟩ | ⟨hc, hfree, rfl⟩)
    · exact Effect.idle ⟨c, hc, rfl⟩
    · exact Effect.preserved tab base draft hc hfree
  | discardRecovery id shouldDiscard expectedRevision =>
    refine wp_reply supply sweeps (discardRecovery_spec h id shouldDiscard expectedRevision) ?_
    rintro ⟨b, ids⟩ s' (⟨hb, rfl⟩ | ⟨c, hc, hkey, hb, rfl⟩)
    · exact Effect.idle (congrArg Reply.flag hb)
    · have hb : b = true := hb
      rw [hb]
      exact Effect.discardedRecovery shouldDiscard expectedRevision hc hkey
  | resendRecovery tab request =>
    refine wp_reply supply sweeps (resendRecoveryResult_spec supply h tab request) ?_
    rintro result s' (⟨hidle, rfl⟩ | ⟨consumed, row, ids, hresend, rfl, rfl⟩)
    · exact Effect.idle (hidle.imp (congrArg Reply.resent) (congrArg Reply.resent))
    · exact Effect.resent tab ids hresend

end Exec

/-! ## Tidiness over runs -/

section Tidy

variable {supply : Nat → String} {sweeps : List Sweep} {s s' : Db}

theorem Tidy.restores (h : Tidy s) {requeued : List (String × MutationOutboxRecord)}
    (hrestores : Restores supply s requeued s') : Tidy s' := by
  induction hrestores with
  | nil s => exact h
  | cons r hr _ hstep _ ih => exact ih (h.restoreStep hr hstep)

theorem Effect.tidy (h : Tidy s) {op : OutboxOp} {reply : Reply}
    (heffect : Effect supply sweeps s op reply s') : Tidy s' := by
  cases heffect with
  | idle _ => exact h
  | enqueued tab intent barrier _ hrow hfree =>
    subst hrow
    exact h.insertRow ⟨hfree, rfl⟩
  | interrupted tab intent hrow hfree =>
    subst hrow
    exact (h.stopped _).insertRow ⟨hfree, rfl⟩
  | stopped ref ids => exact h.stopped ref
  | discarded ref ids => exact h.dropRows _
  | discardedOfInstance ref instanceId ids => exact h.dropRows _
  | retried tab capture _ hmint => exact h.minted hmint
  | retargeted hmoved => exact hmoved.tidy
  | settledReceipt _ _ hsettling => exact hsettling.tidy
  | settledApplied _ hsettling => exact hsettling.tidy
  | swept ids _ =>
    unfold sweptDb
    split
    · exact h.dropRecovery _
    · exact h.dropRows _
  | marked hr _ _ _ => exact h.putOutbox hr ⟨rfl, rfl, rfl⟩
  | fenced hr _ _ _ _ => exact h.putOutbox hr (sameSlot_fencedRow _ _ _)
  | unmarked b hr _ _ => exact h.putOutbox hr (sameSlot_unmarkedRow _ _)
  | blocked onlyAttempted b hr _ _ => exact h.putOutbox hr ⟨rfl, rfl, rfl⟩
  | restored tab ref ids hrestores => exact h.restores hrestores
  | transferred kind reason uncertain hr _ _ => exact h.transferred hr ⟨rfl, rfl, rfl⟩
  | coalesced kind reason uncertain _ _ _ _ _ => exact h.filterOutbox _
  | edited expected barrier hr _ _ _ => exact h.transferred hr ⟨rfl, rfl, rfl⟩
  | editedOver expected barrier hr _ _ _ _ _ =>
    exact (h.dropRecovery _).transferred hr ⟨rfl, rfl, rfl⟩
  | removed expected barrier _ _ _ => exact ((h.dropRows _).dropRecovery _).dropRows _
  | updated update hc _ _ _ =>
    exact ((h.putRecovery (updatedRecovery update _) hc ⟨rfl, rfl, rfl⟩).dropRows
      _).dropRecovery _
  | preserved tab base draft hc hfree =>
    subst hc
    exact h.insertRecovery ⟨hfree, rfl⟩
  | discardedRecovery shouldDiscard expectedRevision _ _ => exact (h.dropRows _).dropRecovery _
  | resent tab ids hresend => exact h.resent supply hresend

theorem Restores.drawn_le {requeued : List (String × MutationOutboxRecord)}
    (hrestores : Restores supply s requeued s') : s.drawn ≤ s'.drawn := by
  induction hrestores with
  | nil s => exact le_rfl
  | cons r _ _ hstep _ ih => exact le_trans hstep.drawn ih

theorem Effect.drawn_le {op : OutboxOp} {reply : Reply}
    (heffect : Effect supply sweeps s op reply s') : s.drawn ≤ s'.drawn := by
  cases heffect with
  | enqueued | interrupted | preserved | resent => exact Nat.le_succ _
  | retried tab capture _ hmint =>
    rw [drawn_minted]
    exact Nat.le_succ _
  | retargeted hmoved => exact hmoved.drawn.ge
  | settledReceipt _ _ hsettling => exact hsettling.drawn.ge
  | settledApplied _ hsettling => exact hsettling.drawn.ge
  | swept ids _ =>
    unfold sweptDb
    split <;> exact le_rfl
  | restored tab ref ids hrestores => exact hrestores.drawn_le
  | _ => exact le_rfl

end Tidy

section Events

variable (supply : Nat → String)

/-- How an event went: it committed with an effect of its call, or it failed and the four stores
    are as they were. The unique index is never the reason. -/
theorem Event.outcome (event : Event) (h : Tidy event.before.db) :
    (∃ reply, (event.result supply).1 = .ok reply ∧
        Effect supply event.before.sweeps event.before.db event.step.op reply
          (event.after supply).db) ∨
      (∃ e n, (event.result supply).1 = .error e ∧ event.before.db.drawn ≤ n ∧
        (e ≠ .constraint ∨ event.step.fault = some e) ∧
        (event.after supply).db = { event.before.db with drawn := n }) := by
  have hspec := exec_spec supply event.before.sweeps h event.step.op
  show (∃ reply, (event.result supply).1 = .ok reply ∧ Effect supply event.before.sweeps
      event.before.db event.step.op reply (event.result supply).2) ∨
    (∃ e n, (event.result supply).1 = .error e ∧ event.before.db.drawn ≤ n ∧
      (e ≠ .constraint ∨ event.step.fault = some e) ∧
      (event.result supply).2 = { event.before.db with drawn := n })
  unfold Event.result Tx.runTransaction
  unfold Tx.wp at hspec
  split at hspec
  · next reply s' hbody =>
    cases hfault : event.step.fault with
    | none => exact Or.inl ⟨reply, by rw [hbody], by rw [hbody]; exact hspec⟩
    | some e =>
      refine Or.inr ⟨e, s'.drawn, by rw [hbody], hspec.drawn_le, Or.inr rfl, ?_⟩
      rw [hbody]
      rfl
  · next e s' hbody =>
    refine Or.inr ⟨e, s'.drawn, by rw [hbody], hspec.2, Or.inl hspec.1, ?_⟩
    rw [hbody]
    rfl

theorem Tidy.event (event : Event) (h : Tidy event.before.db) : Tidy (event.after supply).db := by
  rcases event.outcome supply h with ⟨reply, -, heffect⟩ | ⟨e, n, -, -, -, hafter⟩
  · exact heffect.tidy h
  · rw [hafter]
    exact h.withDrawn n

theorem tidy_run (steps : List Step) : Tidy (run supply {} steps).db :=
  run_induction supply (P := fun _ w => Tidy w.db) tidy_empty
    (fun _ w step h => Tidy.event supply ⟨w, step⟩ h) steps

end Events

end Evener.Outbox
