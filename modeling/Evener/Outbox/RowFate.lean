/-
  Where the outbox rows after a call come from: an old row that went one step of its life
  (`RowStep`), the row the call was about, or a row born in it (`Born`).
-/
import Evener.Outbox.Outcome

namespace Evener.Outbox

open Evener.Lib JsValue List Option

/-- The ref a call stops. -/
def OutboxOp.stopRef : OutboxOp → Option String
  | .enqueueInterruptAndCancel _ intent => some intent.targetRef
  | .cancelUnattempted targetRef => some targetRef
  | _ => none

/-- The key a mark or a refusal is about. -/
def OutboxOp.attemptId : OutboxOp → Option String
  | .markAttempted id => some id
  | .unmarkAttempted id => some id
  | _ => none

/-- Still to be sent, or sent with no answer. -/
def Waiting (r : MutationOutboxRecord) : Prop := r.state = .submitting ∨ r.state = .blockedUnknown

/-- A row carried on: only its state and its stop stamp may change, a waiting row may be parked,
    superseded or, when provably unattempted, canceled. -/
structure RowStep (r r' : MutationOutboxRecord) : Prop where
  record : r'.toMutationRecord = r.toMutationRecord
  attempted : r'.attempted = r.attempted
  unresolved : r'.unresolvedAttempts = r.unresolvedAttempts
  displayedRef : r'.displayedRef = r.displayedRef
  displayedEpoch : r'.displayedStopEpochAtEnqueue = r.displayedStopEpochAtEnqueue
  stopEpoch : r'.stopEpochAtEnqueue = r.stopEpochAtEnqueue
  state : r'.state = r.state ∨ (Waiting r ∧ (r'.state = .blockedUnknown ∨ r'.state = .superseded ∨
    (r'.state = .canceled ∧ r.attempted = some false)))

/-- A row born between two states, with the baselines of the later one. -/
structure Born (supply : Nat → String) (s s' : Db) (r : MutationOutboxRecord) : Prop where
  drawn : ∃ n, s.drawn ≤ n ∧ n < s'.drawn ∧ supply n = r.clientMutationId
  attempted : r.attempted = some false
  unresolved : r.unresolvedAttempts = none
  state : r.state = .submitting ∨ r.state = .canceled
  stopEpoch : r.stopEpochAtEnqueue = some (epochOf s'.sequences r.targetRef)
  displayedEpoch : ∀ ref, r.displayedRef = some ref →
    r.displayedStopEpochAtEnqueue = some (epochOf s'.sequences ref)

/-- The call is neither a mark nor a refusal that rewrote the row. -/
def Untouched (op : OutboxOp) (reply : Reply) (r : MutationOutboxRecord) : Prop :=
  (op = .markAttempted r.clientMutationId → reply = .flag false) ∧
    (op = .unmarkAttempted r.clientMutationId → ¬ Waiting r)

inductive Fate (supply : Nat → String) (s s' : Db) (op : OutboxOp) (reply : Reply) :
    MutationOutboxRecord → Prop where
  | stepped {r r' : MutationOutboxRecord} : r ∈ s.outbox → RowStep r r' →
      (∀ ref, op.stopRef = some ref → crossedBy ref r' = true → isCancelableByStop r' = false) →
      Untouched op reply r → Fate supply s s' op reply r'
  | marked {r : MutationOutboxRecord} : r ∈ s.outbox → op = .markAttempted r.clientMutationId →
      reply = .flag true → r.state = .submitting →
      (gated r = true → markCrossed s.toStores r = false) →
      Fate supply s s' op reply (markedRow r (keptBaseline s.toStores r))
  | fenced {r : MutationOutboxRecord} : r ∈ s.outbox → op = .markAttempted r.clientMutationId →
      reply = .flag false → r.state = .submitting → gated r = true →
      Fate supply s s' op reply (fencedRow r (markBaseline s.toStores r) (markUncertain r))
  | unmarked {r : MutationOutboxRecord} (crossed : Bool) : r ∈ s.outbox →
      op = .unmarkAttempted r.clientMutationId → Waiting r →
      Fate supply s s' op reply (unmarkedRow crossed r)
  | moved {r : MutationOutboxRecord} {fromRef toRef : String} {identity : ResumedIdentity}
      {mutations : RetargetedMutations} (n : Nat) : r ∈ s.outbox → r.state ≠ .canceled →
      op = .retargetOutbox fromRef toRef identity → reply = .moved mutations →
      movedRow toRef identity (epochOf s.sequences toRef) n r ∈ mutations.outbox →
      Fate supply s s' op reply (movedRow toRef identity (epochOf s.sequences toRef) n r)
  | born {r : MutationOutboxRecord} : Born supply s s' r → op.attemptId = none →
      Fate supply s s' op reply r

variable {r r' : MutationOutboxRecord} {requeued : List (String × MutationOutboxRecord)}

section Steps

theorem RowStep.refl (r : MutationOutboxRecord) : RowStep r r :=
  ⟨rfl, rfl, rfl, rfl, rfl, rfl, Or.inl rfl⟩

theorem RowStep.trans {r'' : MutationOutboxRecord} (h : RowStep r r') (h' : RowStep r' r'') :
    RowStep r r'' := by
  refine ⟨h'.record.trans h.record, h'.attempted.trans h.attempted,
    h'.unresolved.trans h.unresolved, h'.displayedRef.trans h.displayedRef,
    h'.displayedEpoch.trans h.displayedEpoch, h'.stopEpoch.trans h.stopEpoch, ?_⟩
  rcases h'.state with hsame | ⟨hwaiting, hstate⟩
  · rw [hsame]
    exact h.state
  · rw [h.attempted] at hstate
    rcases h.state with hr | ⟨hr, -⟩
    · unfold Waiting at hwaiting
      rw [hr] at hwaiting
      exact Or.inr ⟨hwaiting, hstate⟩
    · exact Or.inr ⟨hr, hstate⟩

/-- A row that waits after a step waited before it. -/
theorem RowStep.waiting (h : RowStep r r') (hw : Waiting r') : Waiting r := by
  rcases h.state with hsame | ⟨hwaiting, -⟩
  · unfold Waiting at hw ⊢
    rwa [hsame] at hw
  · exact hwaiting

theorem rowStep_cancelRow (hw : Waiting r) (hr : r.attempted = some false) :
    RowStep r (cancelRow r) :=
  ⟨rfl, rfl, rfl, rfl, rfl, rfl, Or.inr ⟨hw, Or.inr (Or.inr ⟨rfl, hr⟩)⟩⟩

theorem rowStep_supersedeRow (hr : r.state = .blockedUnknown) : RowStep r (supersedeRow r) :=
  ⟨rfl, rfl, rfl, rfl, rfl, rfl, Or.inr ⟨Or.inr hr, Or.inr (Or.inl rfl)⟩⟩

theorem rowStep_stampRow (hr : r.state = .blockedUnknown) : RowStep r (stampRow r) :=
  ⟨rfl, rfl, rfl, rfl, rfl, rfl, Or.inr ⟨Or.inr hr, Or.inl rfl⟩⟩

theorem rowStep_blockRow (hr : r.state = .submitting) : RowStep r (blockRow r) :=
  ⟨rfl, rfl, rfl, rfl, rfl, rfl, Or.inr ⟨Or.inl hr, Or.inl rfl⟩⟩

theorem isCancelableByStop_iff :
    isCancelableByStop r = true ↔ Waiting r ∧ r.attempted = some false := by
  simp [isCancelableByStop, Waiting]

end Steps

/-! ## The call's own rows -/

section Fates

variable {supply : Nat → String} {sweeps : List Sweep} {s s' : Db} {op : OutboxOp} {reply : Reply}

theorem Idle.stopRef (h : Idle s op reply) : op.stopRef = none := by
  cases op with
  | enqueueInterruptAndCancel _ _ => exact h.elim
  | cancelUnattempted _ => exact h.elim
  | _ => rfl

/-- A row that a call neither marks, refuses nor stops carries on as it is. -/
theorem Fate.kept (hr : r ∈ s.outbox) (hstop : op.stopRef = none)
    (huntouched : Untouched op reply r) : Fate supply s s' op reply r :=
  Fate.stepped hr (RowStep.refl r) (fun ref href => by rw [hstop] at href; exact nomatch href)
    huntouched

/-- Calls other than marks and refusals touch no row. -/
theorem untouched_of_none (hop : op.attemptId = none) (r : MutationOutboxRecord) :
    Untouched op reply r := by
  refine ⟨fun h => ?_, fun h => ?_⟩
  · rw [h] at hop
    exact nomatch hop
  · rw [h] at hop
    exact nomatch hop

/-- After a Stop, what crosses its ref is not cancelable any more. -/
theorem stopped_fate {ref : String} (hr' : r' ∈ (stopped ref s).outbox) :
    ∃ r ∈ s.outbox, RowStep r r' ∧
      (crossedBy ref r' = true → isCancelableByStop r' = false) := by
  rcases mem_rewriteRows.mp hr' with ⟨r, hr, hp, rfl⟩ | ⟨hr', hp⟩
  · obtain ⟨hw, hattempted⟩ := (isCancelableByStop_iff).mp (Bool.and_eq_true _ _ ▸ hp).2
    refine ⟨r, hr, rowStep_cancelRow hw hattempted, fun _ => ?_⟩
    simp [isCancelableByStop, cancelRow]
  · refine ⟨r', hr', RowStep.refl r', fun hcrossed => ?_⟩
    simpa [hcrossed] using hp

theorem born_insertRow {row : MutationOutboxRecord} (hkey : row.clientMutationId = supply s.drawn)
    (hattempted : row.attempted = some false) (hunresolved : row.unresolvedAttempts = none)
    (hstate : row.state = .submitting ∨ row.state = .canceled)
    (hepoch : row.stopEpochAtEnqueue = some (epochOf s.sequences row.targetRef))
    (hdisplayed : ∀ ref, row.displayedRef = some ref →
      row.displayedStopEpochAtEnqueue = some (epochOf s.sequences ref)) :
    Born supply s (insertRow s row) row := by
  have hepochs : ∀ ref, epochOf (insertRow s row).sequences ref = epochOf s.sequences ref :=
    fun ref => epochOf_withLastSequence _ _ _ _
  refine ⟨⟨s.drawn, le_rfl, Nat.lt_succ_self _, hkey.symm⟩, hattempted, hunresolved, hstate, ?_,
    fun ref href => ?_⟩
  · rw [hepochs]
    exact hepoch
  · rw [hepochs]
    exact hdisplayed ref href

theorem mintedRow_born {source fresh : MutationOutboxRecord} (h : MintOf supply s source fresh) :
    Born supply s (minted source fresh s) fresh := by
  obtain ⟨tab, bornCanceled, preserve, rfl⟩ := h.row
  refine ⟨⟨s.drawn, le_rfl, ?_, rfl⟩, rfl, rfl, ?_, ?_, ?_⟩
  · rw [drawn_minted]
    exact Nat.lt_succ_self _
  · cases bornCanceled
    · exact Or.inl rfl
    · exact Or.inr rfl
  · rw [epochOf_minted]
    rfl
  · intro ref href
    have href : source.displayedRef = some ref := href
    rw [epochOf_minted]
    simp [mintedRow, href]

/-- A birth is a birth of every longer stretch that keeps the epochs. -/
theorem Born.widen {s₀ s₁ : Db} (h : Born supply s s' r) (hbefore : s₀.drawn ≤ s.drawn)
    (hafter : s'.drawn ≤ s₁.drawn)
    (hepochs : ∀ ref, epochOf s₁.sequences ref = epochOf s'.sequences ref) :
    Born supply s₀ s₁ r := by
  obtain ⟨n, hle, hlt, hn⟩ := h.drawn
  refine ⟨⟨n, le_trans hbefore hle, lt_of_lt_of_le hlt hafter, hn⟩, h.attempted, h.unresolved,
    h.state, ?_, fun ref href => ?_⟩
  · rw [hepochs]
    exact h.stopEpoch
  · rw [hepochs]
    exact h.displayedEpoch ref href

/-- What a mint or a reconciliation may do to an old row: nothing, unless it was parked. -/
def ParkedStep (s : Db) (r' : MutationOutboxRecord) : Prop :=
  ∃ r ∈ s.outbox, RowStep r r' ∧ (r' = r ∨ r.state = .blockedUnknown)

theorem minted_fate (h : Tidy s) {source fresh : MutationOutboxRecord}
    (hmint : MintOf supply s source fresh) (hr' : r' ∈ (minted source fresh s).outbox) :
    ParkedStep s r' ∨ Born supply s (minted source fresh s) r' := by
  obtain ⟨hmem, -⟩ := (mem_minted h.outboxKeys).mp hr'
  rcases hmem with rfl | ⟨hstate, rfl⟩ | ⟨hr', -⟩
  · exact Or.inr (mintedRow_born hmint)
  · exact Or.inl ⟨source, hmint.held, rowStep_supersedeRow hstate, Or.inr hstate⟩
  · exact Or.inl ⟨r', hr', RowStep.refl r', Or.inl rfl⟩

theorem restoreStep_fate (h : Tidy s) (hr : r ∈ s.outbox) (hparked : r.state = .blockedUnknown)
    (hstep : RestoreStep supply r s requeued s') (hr' : r' ∈ s'.outbox) :
    ParkedStep s r' ∨ Born supply s s' r' := by
  have hput : ∀ x, RowStep r x → r' ∈ put outboxKey x s.outbox → ParkedStep s r' := by
    intro x hx hmem
    rcases mem_of_mem_put hmem with rfl | hmem
    · exact ⟨r, hr, hx, Or.inr hparked⟩
    · exact ⟨r', hmem, RowStep.refl r', Or.inl rfl⟩
  cases hstep with
  | canceled hattempted =>
    exact Or.inl (hput _ (rowStep_cancelRow (Or.inr hparked) hattempted) hr')
  | stamped _ => exact Or.inl (hput _ (rowStep_stampRow hparked) hr')
  | outranked _ => exact Or.inl (hput _ (rowStep_supersedeRow hparked) hr')
  | minted fresh hmint => exact minted_fate h hmint hr'

theorem Restores.epochs (hrestores : Restores supply s requeued s') (ref : String) :
    epochOf s'.sequences ref = epochOf s.sequences ref := by
  induction hrestores with
  | nil s => rfl
  | cons r _ _ hstep _ ih => rw [ih, hstep.epochs]

theorem restores_fate (h : Tidy s) (hrestores : Restores supply s requeued s')
    (hr' : r' ∈ s'.outbox) : ParkedStep s r' ∨ Born supply s s' r' := by
  induction hrestores with
  | nil s => exact Or.inl ⟨r', hr', RowStep.refl r', Or.inl rfl⟩
  | cons x hx hparked hstep hrest ih =>
    rcases ih (h.restoreStep hx hstep) hr' with ⟨r₁, hr₁, hstep₁, hsame₁⟩ | hborn
    · rcases restoreStep_fate h hx hparked hstep hr₁ with ⟨r, hr, hstep₀, hsame₀⟩ | hborn
      · refine Or.inl ⟨r, hr, hstep₀.trans hstep₁, ?_⟩
        rcases hsame₀ with rfl | hblocked
        · exact hsame₁
        · exact Or.inr hblocked
      · -- a row just born is not parked, so nothing in this pass rewrites it
        rcases hsame₁ with rfl | hblocked
        · exact Or.inr (hborn.widen le_rfl hrest.drawn_le hrest.epochs)
        · rcases hborn.state with hstate | hstate
          · exact absurd (hstate.symm.trans hblocked) (by decide)
          · exact absurd (hstate.symm.trans hblocked) (by decide)
    · exact Or.inr (hborn.widen hstep.drawn le_rfl fun _ => rfl)

theorem ParkedStep.fate (h : ParkedStep s r') (hstop : op.stopRef = none)
    (hop : op.attemptId = none) : Fate supply s s' op reply r' := by
  obtain ⟨r, hr, hstep, -⟩ := h
  exact Fate.stepped hr hstep (fun ref href => by rw [hstop] at href; exact nomatch href)
    (untouched_of_none hop r)

/-- Rows of a call that only drops rows. -/
theorem fate_of_subset (hsub : ∀ r ∈ s'.outbox, r ∈ s.outbox) (hstop : op.stopRef = none)
    (hop : op.attemptId = none) (hr' : r' ∈ s'.outbox) : Fate supply s s' op reply r' :=
  Fate.kept (hsub r' hr') hstop (untouched_of_none hop r')

theorem Settling.fate {k : SettleKey} (h : Settling s k s') (hstop : op.stopRef = none)
    (hop : op.attemptId = none) (hr' : r' ∈ s'.outbox) : Fate supply s s' op reply r' := by
  rcases h.rows r' hr' with hr | ⟨r, hr, hnote, rfl⟩
  · exact Fate.kept hr hstop (untouched_of_none hop r')
  · exact Fate.stepped hr (rowStep_supersedeRow hnote.2)
      (fun ref href => by rw [hstop] at href; exact nomatch href) (untouched_of_none hop r)

/-- Every row after a call has a fate. -/
theorem Effect.fate (h : Tidy s) (heffect : Effect supply sweeps s op reply s')
    (hr' : r' ∈ s'.outbox) : Fate supply s s' op reply r' := by
  cases heffect with
  | idle hidle =>
    refine Fate.kept hr' hidle.stopRef ⟨fun hop => ?_, fun hop => ?_⟩
    · subst hop
      exact hidle
    · subst hop
      exact fun hw => hw.elim (hidle.2 r' hr' rfl).1 (hidle.2 r' hr' rfl).2
  | enqueued tab intent barrier hstate hrow hfree =>
    rcases mem_append.mp hr' with hr' | hr'
    · exact Fate.kept hr' rfl (untouched_of_none rfl r')
    · rw [mem_singleton.mp hr']
      subst hrow
      exact Fate.born (born_insertRow rfl rfl rfl hstate rfl nofun) rfl
  | interrupted tab intent hrow hfree =>
    rcases mem_append.mp hr' with hr' | hr'
    · obtain ⟨r, hr, hstep, hcancel⟩ := stopped_fate hr'
      refine Fate.stepped hr hstep (fun ref href => ?_) (untouched_of_none rfl r)
      obtain rfl : intent.targetRef = ref := some.inj href
      exact hcancel
    · rw [mem_singleton.mp hr']
      subst hrow
      refine Fate.born (Born.widen (s := Outbox.stopped intent.targetRef s)
        (born_insertRow rfl rfl rfl (Or.inl rfl) rfl nofun) le_rfl le_rfl fun _ => rfl) rfl
  | stopped ref ids =>
    obtain ⟨r, hr, hstep, hcancel⟩ := stopped_fate hr'
    refine Fate.stepped hr hstep (fun ref' href => ?_) (untouched_of_none rfl r)
    obtain rfl : ref = ref' := some.inj href
    exact hcancel
  | discarded ref ids =>
    exact fate_of_subset (fun r hr => (mem_dropRows.mp hr).1) rfl rfl hr'
  | discardedOfInstance ref instanceId ids =>
    exact fate_of_subset (fun r hr => (mem_dropRows.mp hr).1) rfl rfl hr'
  | retried tab capture _ hmint =>
    rcases minted_fate h hmint hr' with hparked | hborn
    · exact hparked.fate rfl rfl
    · exact Fate.born hborn rfl
  | retargeted hmoved =>
    rcases (hmoved.rows.mem r').mp hr' with hr' | ⟨hr', -⟩
    · obtain ⟨n, r, hr, hp, rfl⟩ := hmoved.rows.source r' hr'
      simp only [retargetedRow, Bool.and_eq_true, decide_eq_true_eq] at hp
      exact Fate.moved n hr hp.2 rfl rfl hr'
    · exact Fate.kept hr' rfl (untouched_of_none rfl r')
  | settledReceipt _ _ hsettling => exact hsettling.fate rfl rfl hr'
  | settledApplied _ hsettling => exact hsettling.fate rfl rfl hr'
  | swept ids _ =>
    refine fate_of_subset (fun r hr => ?_) rfl rfl hr'
    unfold sweptDb at hr
    split at hr
    · exact hr
    · exact (mem_dropRows.mp hr).1
  | marked hr hkey hstate hgate =>
    subst hkey
    rcases (mem_put h.outboxKeys).mp hr' with rfl | ⟨hr', hne⟩
    · exact Fate.marked hr rfl rfl hstate hgate
    · refine Fate.kept hr' rfl ⟨fun hop => ?_, nofun⟩
      exact absurd (OutboxOp.markAttempted.inj hop).symm hne
  | fenced hr hkey hstate hgated hcrossed =>
    subst hkey
    rcases mem_of_mem_put hr' with rfl | hr'
    · exact Fate.fenced hr rfl rfl hstate hgated
    · exact Fate.kept hr' rfl ⟨fun _ => rfl, nofun⟩
  | unmarked b hr hkey hstate =>
    subst hkey
    rcases (mem_put h.outboxKeys).mp hr' with rfl | ⟨hr', hne⟩
    · exact Fate.unmarked _ hr rfl hstate
    · have hne : r'.clientMutationId ≠ _ := fun heq => hne (heq.trans (sameSlot_unmarkedRow _ _).key.symm)
      refine Fate.kept hr' rfl ⟨nofun, fun hop => ?_⟩
      exact absurd (OutboxOp.unmarkAttempted.inj hop).symm hne
  | blocked onlyAttempted b hr hkey hstate =>
    rcases mem_of_mem_put hr' with rfl | hr'
    · exact Fate.stepped hr (rowStep_blockRow hstate) nofun (untouched_of_none rfl _)
    · exact Fate.kept hr' rfl (untouched_of_none rfl r')
  | restored tab ref ids hrestores =>
    rcases restores_fate h hrestores hr' with hparked | hborn
    · exact hparked.fate rfl rfl
    · exact Fate.born hborn rfl
  | transferred kind reason uncertain _ _ _ =>
    exact fate_of_subset (fun r hr => (mem_erase.mp hr).1) rfl rfl hr'
  | coalesced kind reason uncertain _ _ _ _ _ =>
    exact fate_of_subset (fun r hr => (mem_erase.mp hr).1) rfl rfl hr'
  | edited expected barrier _ _ _ _ =>
    exact fate_of_subset (fun r hr => (mem_erase.mp hr).1) rfl rfl hr'
  | editedOver expected barrier _ _ _ _ _ _ =>
    exact fate_of_subset (fun r hr => (mem_erase.mp hr).1) rfl rfl hr'
  | removed expected barrier _ _ _ =>
    refine fate_of_subset (fun r hr => ?_) rfl rfl hr'
    exact (mem_dropRows.mp (mem_dropRows.mp hr).1).1
  | updated update _ _ _ _ =>
    refine fate_of_subset (fun r hr => ?_) rfl rfl hr'
    exact (mem_dropRows.mp hr).1
  | preserved tab base draft _ _ =>
    refine fate_of_subset (fun r hr => ?_) rfl rfl hr'
    exact hr
  | discardedRecovery shouldDiscard expectedRevision _ _ =>
    refine fate_of_subset (fun r hr => ?_) rfl rfl hr'
    exact (mem_dropRows.mp hr).1
  | resent tab ids hresend =>
    have hr' := (mem_dropRows.mp hr').1
    rcases mem_append.mp hr' with hr' | hr'
    · exact Fate.kept hr' rfl (untouched_of_none rfl r')
    · rw [mem_singleton.mp hr']
      obtain ⟨tab', rfl⟩ := hresend.row_eq
      refine Fate.born (Born.widen (s := s) (born_insertRow rfl rfl rfl ?_ rfl fun ref href => ?_)
        le_rfl le_rfl fun _ => rfl) rfl
      · exact (ite_eq_or_eq _ _ _).symm
      · obtain ⟨captured, hcaptured, rfl⟩ := map_eq_some_iff.mp href
        simp [resentRow, hcaptured]

theorem epochOf_stopped (ref other : String) :
    epochOf (stopped ref s).sequences other =
      epochOf s.sequences other + if ref = other then 1 else 0 := by
  show epochOf (withStopBump ref s.sequences) other = _
  rw [epochOf_withStopBump]
  split <;> rfl

/-- A call raises the epoch of the ref it stops by one, and no other. -/
theorem Effect.epochs (heffect : Effect supply sweeps s op reply s') (ref : String) :
    epochOf s'.sequences ref =
      epochOf s.sequences ref + if op.stopRef = some ref then 1 else 0 := by
  have hquiet : ∀ {s' : Db}, op.stopRef = none →
      epochOf s'.sequences ref = epochOf s.sequences ref →
      epochOf s'.sequences ref =
        epochOf s.sequences ref + if op.stopRef = some ref then 1 else 0 := by
    intro s' hstop heq
    rw [hstop, heq]
    rfl
  cases heffect with
  | interrupted tab intent _ _ =>
    show epochOf (withLastSequence _ _ (Outbox.stopped intent.targetRef s).sequences) ref = _
    rw [epochOf_withLastSequence, epochOf_stopped]
    simp [OutboxOp.stopRef]
  | stopped ref' ids =>
    rw [epochOf_stopped]
    simp [OutboxOp.stopRef]
  | idle hidle => exact hquiet hidle.stopRef rfl
  | enqueued => exact hquiet rfl (epochOf_withLastSequence _ _ _ _)
  | resent => exact hquiet rfl (epochOf_withLastSequence _ _ _ _)
  | preserved => exact hquiet rfl (epochOf_withLastSequence _ _ _ _)
  | retried => exact hquiet rfl (epochOf_minted _ _ _)
  | retargeted hmoved => exact hquiet rfl (hmoved.epochs ref)
  | settledReceipt _ _ hsettling => exact hquiet rfl (by rw [hsettling.sequences])
  | settledApplied _ hsettling => exact hquiet rfl (by rw [hsettling.sequences])
  | restored tab _ ids hrestores => exact hquiet rfl (hrestores.epochs ref)
  | swept ids _ =>
    refine hquiet rfl ?_
    unfold sweptDb
    split <;> rfl
  | _ => exact hquiet rfl rfl

end Fates

end Evener.Outbox
