/-
  What the transactions around the recovery store do to a tidy database, in closed form.
-/
import Evener.Outbox.Effects

namespace Evener.Outbox

open Evener.Lib JsValue Tx
open List hiding lookup

/-! ## Into recovery -/

/-- The row leaves the outbox and its recovery record is stored. -/
def transferred (r : MutationOutboxRecord) (c : MutationRecoveryRecord) (s : Db) : Db :=
  { s with
    outbox := erase outboxKey r.clientMutationId s.outbox
    recovery := s.recovery ++ [c] }

/-- No recovery row carries the wire. -/
def NoCopy (s : Stores) (wireId : String) : Prop :=
  ∀ c ∈ s.recovery, effectiveWireId c.toMutationRecord ≠ wireId

theorem erase_row_eq_drop (id : String) (s : Db) :
    { s with outbox := erase outboxKey id s.outbox } =
      dropRows (fun r => r.clientMutationId = id) s := by
  unfold dropRows erase
  simp only [ne_eq, decide_not]
  rfl

theorem erase_recovery_eq_drop (id : String) (s : Db) :
    { s with recovery := erase recoveryKey id s.recovery } =
      dropRecovery (fun c => c.clientMutationId = id) s := by
  unfold dropRecovery erase
  simp only [ne_eq, decide_not]
  rfl

variable {r : MutationOutboxRecord} {E : OutboxError → Db → Prop}

section Transfer

variable {s : Db}

theorem Tidy.put_recovery_new (h : Tidy s) (hr : r ∈ s.outbox) {c : MutationRecoveryRecord}
    (hkey : c.clientMutationId = r.clientMutationId) :
    put recoveryKey c s.recovery = s.recovery ++ [c] := by
  refine put_eq_append fun x hx => ?_
  show x.clientMutationId ≠ c.clientMutationId
  rw [hkey]
  exact (h.disjoint r hr x hx).symm

theorem Tidy.transferred (h : Tidy s) (hr : r ∈ s.outbox) {c : MutationRecoveryRecord}
    (hslot : SameSlot c.toMutationRecord r.toMutationRecord) : Tidy (Outbox.transferred r c s) := by
  have htransfer := h.transfer hr hslot
  rwa [h.put_recovery_new hr hslot.key] at htransfer

/-- The coalescing lookup of a row's wire: no copy at all, or some recovery row of the wire. -/
theorem wireCopyOf_wp (h : Tidy s) (hr : r ∈ s.outbox)
    {Q : Option MutationRecoveryRecord → Db → Prop}
    (hnone : NoCopy s.toStores (effectiveWireId r.toMutationRecord) → Q none s)
    (hsome : ∀ c ∈ s.recovery,
      effectiveWireId c.toMutationRecord = effectiveWireId r.toMutationRecord → Q (some c) s) :
    Tx.wp (wireCopyOf r) s Q E := by
  unfold wireCopyOf resolveWireFamily
  simp only [wp_bind, wp_getAllOutbox, wp_getAllOptimistic, wp_getAllRecovery, wp_pure,
    if_true]
  cases hfind : List.find? (fun existing : MutationRecoveryRecord =>
      decide (existing.clientMutationId ≠ r.clientMutationId))
      ((inKeyOrder recoveryKey s.recovery).filter fun record =>
        carriesWire (effectiveWireId r.toMutationRecord) record.toMutationRecord) with
  | none =>
    refine hnone fun c hc hwire => ?_
    have hsel := find?_eq_none.mp hfind c (mem_selection.mpr ⟨hc, by simp [carriesWire, hwire]⟩)
    simp only [ne_eq, decide_not, Bool.not_eq_eq_eq_not, Bool.not_true, decide_eq_false_iff_not,
      not_not] at hsel
    exact h.disjoint r hr c hc hsel.symm
  | some c =>
    obtain ⟨hc, hwire⟩ := mem_selection.mp (mem_of_find?_eq_some hfind)
    exact hsome c hc (by simpa [carriesWire] using hwire)

/-- A transfer moves the row into recovery, or drops it beside the recovery row its wire already
    has. -/
theorem transferToRecovery_spec (h : Tidy s) (id : String) (kind : MutationRecoveryKind)
    (reason : Option String) (uncertain : Bool) :
    Tx.wp (transferToRecovery id kind reason uncertain) s (fun result s' =>
      (result = none ∧ s' = s) ∨ ∃ r ∈ s.outbox, r.clientMutationId = id ∧
        ((∃ copy ∈ s.recovery, result = some copy ∧ r.method ≠ humanNoteMethod ∧
            effectiveWireId copy.toMutationRecord = effectiveWireId r.toMutationRecord ∧
            s' = { s with outbox := erase outboxKey id s.outbox }) ∨
          (result = some (recoveryOf r kind reason uncertain) ∧
            (r.method ≠ humanNoteMethod →
              NoCopy s.toStores (effectiveWireId r.toMutationRecord)) ∧
            s' = transferred r (recoveryOf r kind reason uncertain) s))) (Refused s) := by
  unfold transferToRecovery
  rw [wp_bind, wp_getOutbox]
  cases hlookup : lookup outboxKey id s.outbox with
  | none => exact Or.inl ⟨rfl, rfl⟩
  | some r =>
    have hr := mem_of_lookup hlookup
    have hkey : outboxKey r = id := key_of_lookup hlookup
    have hput := h.put_recovery_new hr
      (c := recoveryOf r kind reason uncertain) rfl
    have hmoved : Db.mk { s.toStores with
        recovery := put recoveryKey (recoveryOf r kind reason uncertain) s.recovery
        outbox := erase outboxKey id s.outbox } s.drawn =
        transferred r (recoveryOf r kind reason uncertain) s := by
      rw [hput, ← hkey]
      rfl
    simp only [wp_bind, wp_getRecovery]
    refine wireCopyOf_wp h hr (fun hnocopy => ?_) fun copy hcopy hwire => ?_
    · split
      · split
        · exact Or.inl ⟨rfl, rfl⟩
        · exact Or.inr ⟨r, hr, hkey, Or.inr ⟨rfl, fun _ => hnocopy, hmoved⟩⟩
      · exact Or.inr ⟨r, hr, hkey, Or.inr ⟨rfl, fun _ => hnocopy, hmoved⟩⟩
    · split
      · next hmethod =>
        split
        · exact Or.inl ⟨rfl, rfl⟩
        · exact Or.inr ⟨r, hr, hkey, Or.inl ⟨copy, hcopy, rfl, hmethod, hwire, rfl⟩⟩
      · next hmethod =>
        exact Or.inr ⟨r, hr, hkey, Or.inr ⟨rfl, fun hne => absurd hne hmethod, hmoved⟩⟩

/-- An edit moves a local row into recovery and retires the unedited copy its wire had there. -/
theorem editQueuedMessage_spec (h : Tidy s) (expected : MutationOutboxRecord) (barrier : Nat) :
    Tx.wp (editQueuedMessage expected barrier) s (fun result s' =>
      (result = none ∧ s' = s) ∨ ∃ r ∈ s.outbox, r.clientMutationId = expected.clientMutationId ∧
        canEditQueuedMessage r = true ∧ ∃ c, c = recoveryOf r .editing none
          (wireIdentityUncertain r (effectiveWireId r.toMutationRecord)) ∧ result = some c ∧
        ((NoCopy s.toStores (effectiveWireId r.toMutationRecord) ∧ s' = transferred r c s) ∨
          ∃ carrier ∈ s.recovery,
            effectiveWireId carrier.toMutationRecord = effectiveWireId r.toMutationRecord ∧
            ownsEditing carrier = false ∧ s' = transferred r c
              (dropRecovery (fun x => x.clientMutationId = carrier.clientMutationId) s)))
      (Refused s) := by
  unfold editQueuedMessage
  rw [wp_bind, wp_getOutbox]
  cases hlookup : lookup outboxKey expected.clientMutationId s.outbox with
  | none => exact Or.inl ⟨rfl, rfl⟩
  | some r =>
    have hr := mem_of_lookup hlookup
    have hkey : outboxKey r = expected.clientMutationId := key_of_lookup hlookup
    simp only [wp_bind, wp_stopEpochOf, wp_getRecovery]
    have hput := h.put_recovery_new hr (c := recoveryOf r .editing none
      (wireIdentityUncertain r (effectiveWireId r.toMutationRecord))) rfl
    refine wireCopyOf_wp h hr (fun hnocopy => ?_) fun carrier hcarrier hwire => ?_
    · split
      · exact Or.inl ⟨rfl, rfl⟩
      · next hguard =>
        simp only [Bool.or_eq_true, not_or, Bool.not_eq_eq_eq_not, Bool.not_true,
          Bool.not_eq_false] at hguard
        refine Or.inr ⟨r, hr, hkey, hguard.1.1.1.2, _, rfl, rfl, Or.inl ⟨hnocopy, ?_⟩⟩
        rw [transferred, ← hput]
    · split
      · exact Or.inl ⟨rfl, rfl⟩
      · next hguard =>
        simp only [Bool.or_eq_true, not_or, Bool.not_eq_eq_eq_not, Bool.not_true,
          Bool.not_eq_false, Option.any_some, Bool.not_eq_true] at hguard
        refine Or.inr ⟨r, hr, hkey, hguard.1.1.1.2, _, rfl, rfl,
          Or.inr ⟨carrier, hcarrier, hwire, hguard.2, ?_⟩⟩
        have hne : recoveryKey (recoveryOf r .editing none
            (wireIdentityUncertain r (effectiveWireId r.toMutationRecord))) ≠
            carrier.clientMutationId := h.disjoint r hr carrier hcarrier
        have hrecovery : ∀ c : MutationRecoveryRecord, recoveryKey c ≠ carrier.clientMutationId →
            erase recoveryKey carrier.clientMutationId (s.recovery ++ [c]) =
            erase recoveryKey carrier.clientMutationId s.recovery ++ [c] := by
          intro c hc
          rw [erase, erase, filter_append]
          simp [hc]
        rw [← erase_recovery_eq_drop, transferred]
        dsimp only
        rw [hput, hrecovery _ hne]

end Transfer

/-! ## Ends of a wire -/

section Ends

variable {s : Db}

/-- A removal takes every outbox row of the wire, and its unedited recovery rows. -/
theorem removeQueuedMessage_spec (h : Tidy s) (expected : MutationOutboxRecord) (barrier : Nat) :
    Tx.wp (removeQueuedMessage expected barrier) s (fun result s' =>
      (result.1 = false ∧ s' = s) ∨ ∃ r ∈ s.outbox,
        r.clientMutationId = expected.clientMutationId ∧ canRemoveQueuedMessage r = true ∧
        result.1 = true ∧ s' = dropRows (fun x => x.clientMutationId = r.clientMutationId)
          (dropRecovery
            (sweptRecovery (effectiveWireId r.toMutationRecord) [r.clientMutationId])
            (dropRows (sweptRow (effectiveWireId r.toMutationRecord) [r.clientMutationId] false)
              s))) (Refused s) := by
  unfold removeQueuedMessage
  rw [wp_bind, wp_getOutbox]
  cases hlookup : lookup outboxKey expected.clientMutationId s.outbox with
  | none => exact Or.inl ⟨rfl, rfl⟩
  | some r =>
    have hr := mem_of_lookup hlookup
    have hkey : outboxKey r = expected.clientMutationId := key_of_lookup hlookup
    simp only [wp_bind, wp_stopEpochOf]
    split
    · exact Or.inl ⟨rfl, rfl⟩
    · next hguard =>
      simp only [Bool.or_eq_true, not_or, Bool.not_eq_eq_eq_not, Bool.not_true,
        Bool.not_eq_false] at hguard
      rw [wp_bind]
      refine retireWireSiblings_wp h rfl fun ids => ?_
      refine Or.inr ⟨r, hr, hkey, hguard.1.2, rfl, ?_⟩
      exact erase_row_eq_drop _ _

/-- A discard takes the recovery row it names and every outbox row of its wire. -/
theorem discardRecovery_spec (h : Tidy s) (id : String) (shouldDiscard : Bool)
    (expectedRevision : Option Nat) :
    Tx.wp (discardRecovery id shouldDiscard expectedRevision) s (fun result s' =>
      (result.1 = false ∧ s' = s) ∨ ∃ c ∈ s.recovery, c.clientMutationId = id ∧
        result.1 = true ∧ s' = dropRecovery (fun x => x.clientMutationId = id)
          (dropRows (sweptRow (effectiveWireId c.toMutationRecord) [id] false) s))
      (Refused s) := by
  unfold discardRecovery
  rw [wp_bind, wp_getRecovery]
  cases hlookup : lookup recoveryKey id s.recovery with
  | none => exact Or.inl ⟨rfl, rfl⟩
  | some c =>
    have hc := mem_of_lookup hlookup
    have hkey : recoveryKey c = id := key_of_lookup hlookup
    dsimp only
    split
    · exact Or.inl ⟨rfl, rfl⟩
    · rw [wp_bind]
      refine retireWireRows_wp h fun ids => ?_
      refine Or.inr ⟨c, hc, hkey, rfl, ?_⟩
      exact erase_recovery_eq_drop _ _

end Ends

/-! ## Consumption -/

section Consume

variable {s : Db}

/-- The outbox rows the sweep of several wires takes. -/
def sweptByAny (wireIds excludeKeys : List String) (r : MutationOutboxRecord) : Bool :=
  wireIds.any fun wireId => sweptRow wireId excludeKeys false r

theorem retireConsumedWires_wp (h : Tidy s) (excludeKeys wireIds : List String)
    {Q : List String → Db → Prop} (hQ : ∀ ids, Q ids (dropRows (sweptByAny wireIds excludeKeys) s)) :
    Tx.wp (retireConsumedWires excludeKeys wireIds) s Q E := by
  unfold retireConsumedWires
  rw [wp_bind]
  -- the sweeps in turn are one sweep of all the wires
  have hloop : ∀ (wireIds : List String) {s : Db}, Tidy s →
      ∀ {Q : List (List String) → Db → Prop},
      (∀ ids, Q ids (dropRows (sweptByAny wireIds excludeKeys) s)) →
      Tx.wp (Tx.forEach (fun wireId => retireWireSiblings wireId
        ⟨excludeKeys, false, false, false⟩) wireIds) s Q E := by
    intro wireIds
    induction wireIds with
    | nil =>
      intro s _ Q hQ
      have hall := hQ []
      simp only [dropRows, sweptByAny, any_nil, Bool.not_false, filter_true] at hall
      exact hall
    | cons wireId wireIds ih =>
      intro s h Q hQ
      rw [Tx.forEach, wp_bind]
      refine retireWireRows_wp h fun ids => ?_
      rw [wp_bind]
      refine ih (h.dropRows _) fun ids' => ?_
      have hfilter : dropRows (sweptByAny wireIds excludeKeys)
          (dropRows (sweptRow wireId excludeKeys false) s) =
          dropRows (sweptByAny (wireId :: wireIds) excludeKeys) s := by
        simp only [dropRows, filter_filter, sweptByAny, any_cons, Bool.not_or,
          Bool.and_comm]
      rw [hfilter]
      exact hQ _
  exact hloop wireIds h fun ids => hQ _

theorem each_deleteRecovery_wp (ids : List String) {Q : Unit → Db → Prop}
    (hQ : Q () (dropRecovery (fun c => ids.contains c.clientMutationId) s)) :
    Tx.wp (Tx.each deleteRecovery ids) s Q E := by
  refine wp_each_deleteRecovery ids ?_
  have hfilter : s.recovery.filter (fun c => recoveryKey c ∉ ids) =
      s.recovery.filter fun c => !ids.contains c.clientMutationId := by
    refine filter_congr fun c _ => ?_
    by_cases hc : c.clientMutationId ∈ ids <;> simp [recoveryKey, hc]
  rw [hfilter]
  exact hQ

/-- The recovery rows an update consumes beside its owner. -/
def consumedSources (update : RecoveryUpdate) (owner : String) : List String :=
  update.consumeRecoveryIds.eraseDups.filter fun id => id ≠ owner

/-- The wires of the recovery rows held under some keys. -/
def wiresOf (recovery : List MutationRecoveryRecord) (ids : List String) : List String :=
  ((ids.filterMap fun id => lookup recoveryKey id recovery).map fun source =>
    effectiveWireId source.toMutationRecord).eraseDups

/-- An update rewrites its owner, sweeps the wires of the rows it consumes and deletes them. -/
theorem updateRecoveryInput_spec (h : Tidy s) (id : String) (update : RecoveryUpdate) :
    Tx.wp (updateRecoveryInput id update) s (fun result s' =>
      (result.1 = none ∧ s' = s) ∨ ∃ c ∈ s.recovery, c.clientMutationId = id ∧
        ∃ sources, sources = consumedSources update id ∧
        (∀ source ∈ sources, ∃ c' ∈ s.recovery, c'.clientMutationId = source) ∧
        result.1 = some (updatedRecovery update c) ∧
        s' = dropRecovery (fun x => sources.contains x.clientMutationId)
          (dropRows (sweptByAny (wiresOf s.recovery sources) (id :: sources))
            { s with recovery := put recoveryKey (updatedRecovery update c) s.recovery }))
      (Refused s) := by
  unfold updateRecoveryInput
  rw [wp_bind, wp_getRecovery]
  cases hlookup : lookup recoveryKey id s.recovery with
  | none => exact Or.inl ⟨rfl, rfl⟩
  | some c =>
    have hc := mem_of_lookup hlookup
    have hkey : recoveryKey c = id := key_of_lookup hlookup
    rw [wp_bind, wp_read]
    dsimp only
    split
    · exact Or.inl ⟨rfl, rfl⟩
    · next hguard =>
      simp only [Bool.or_eq_true, not_or, Bool.not_eq_true', Bool.not_eq_false] at hguard
      have hsources := all_eq_true.mp hguard.2
      simp only [wp_bind, wp_putRecovery]
      refine retireConsumedWires_wp
        (h.putRecovery (updatedRecovery update c) hc ⟨rfl, rfl, rfl⟩) _ _ fun ids => ?_
      refine each_deleteRecovery_wp _ ?_
      refine Or.inr ⟨c, hc, hkey, _, rfl, fun source hsource => ?_, rfl, rfl⟩
      have hheld := hsources source hsource
      unfold consumable at hheld
      cases hfound : lookup recoveryKey source s.recovery with
      | none =>
        rw [hfound] at hheld
        exact absurd hheld Bool.false_ne_true
      | some c' =>
        have hkey' : recoveryKey c' = source := key_of_lookup hfound
        exact ⟨c', mem_of_lookup hfound, hkey'⟩

/-- A preserved draft is a new recovery row beside the one it was typed over, unless that row
    already says the same. -/
theorem preserveRecoveryComposition_spec (supply : Nat → String) (tab : Tab)
    (base : MutationRecoveryRecord) (draft : PreservedComposition) :
    Tx.wp (preserveRecoveryComposition supply tab base draft) s (fun result s' =>
      (result ∈ s.recovery ∧ s' = s) ∨
        (result = preservedRecovery tab base draft (supply s.drawn)
            (lastSequenceOf s.sequences base.targetRef + 1)
            (epochOf s.sequences base.targetRef) ∧
          KeyFree s.toStores (supply s.drawn) ∧ s' = insertRecovery s result)) (Refused s) := by
  unfold preserveRecoveryComposition
  rw [wp_bind, wp_getRecovery]
  dsimp only
  split
  · next stale hstale =>
    refine Or.inl ⟨?_, rfl⟩
    obtain ⟨hfound, -⟩ := Option.filter_eq_some_iff.mp hstale
    exact mem_of_lookup hfound
  · simp only [wp_bind, wp_allocateSequence, wp_createMutationId]
    refine wp_assertMutationIdAvailable _ (fun hfree => ?_) (refused_idActive s _ (Nat.le_succ _))
    rw [wp_stopEpochOf, wp_putRecovery, wp_pure, epochOf_withLastSequence]
    refine Or.inr ⟨rfl, hfree, ?_⟩
    have hput : put recoveryKey (preservedRecovery tab base draft (supply s.drawn)
        (lastSequenceOf s.sequences base.targetRef + 1) (epochOf s.sequences base.targetRef))
        s.recovery = s.recovery ++ [_] :=
      put_eq_append fun c hc => hfree _ (recovery_mem_recordsOf hc)
    rw [hput]
    rfl

/-- What a resend that goes through reads and writes: it holds every row it names, they are on
    its ref, and `row` is what it sends. -/
structure ResendOf (supply : Nat → String) (s : Db) (request : ResendRequest)
    (consumed : List MutationRecoveryRecord) (row : MutationOutboxRecord) : Prop where
  consumed_eq : consumed =
    request.sourceIds.eraseDups.filterMap fun id => lookup recoveryKey id s.recovery
  held : ∀ id ∈ request.sourceIds, ∃ c ∈ consumed, c.clientMutationId = id
  nonempty : request.sourceIds ≠ []
  sameRef : ∀ c ∈ consumed, c.targetRef = request.intent.targetRef
  row_eq : ∃ tab, row = resentRow tab request (uncertainReplay request.intent consumed)
    (supply s.drawn) (lastSequenceOf s.sequences request.intent.targetRef + 1)
    (epochOf s.sequences request.intent.targetRef)
    ((request.displayedBarrier.map fun captured =>
      epochOf s.sequences captured.displayedRef).getD 0)
  free : KeyFree s.toStores (supply s.drawn)

/-- The database after a resend: the row is inserted, the wires of the consumed rows are swept
    and the consumed rows are gone. -/
def resent (request : ResendRequest) (consumed : List MutationRecoveryRecord)
    (row : MutationOutboxRecord) (s : Db) : Db :=
  let ids := request.sourceIds.eraseDups
  dropRecovery (fun c => ids.contains c.clientMutationId)
    (dropRows (sweptByAny (consumed.map fun c => effectiveWireId c.toMutationRecord).eraseDups
      (row.clientMutationId :: ids)) (insertRow s row))

theorem Tidy.resent (supply : Nat → String) (h : Tidy s) {request : ResendRequest}
    {consumed : List MutationRecoveryRecord} {row : MutationOutboxRecord}
    (hresend : ResendOf supply s request consumed row) : Tidy (Outbox.resent request consumed row s) := by
  obtain ⟨tab, rfl⟩ := hresend.row_eq
  exact ((h.insertRow ⟨hresend.free, rfl⟩).dropRows _).dropRecovery _

theorem resendRecoveryResult_spec (supply : Nat → String) (h : Tidy s) (tab : Tab)
    (request : ResendRequest) :
    Tx.wp (resendRecoveryResult supply tab request) s (fun result s' =>
      ((result = .refused ∨ result = .consumed) ∧ s' = s) ∨
        ∃ consumed row ids, ResendOf supply s request consumed row ∧ result = .sent row ids ∧
          s' = resent request consumed row s) (Refused s) := by
  unfold resendRecoveryResult
  split
  · exact refused_targetRef s
  · rw [wp_bind, wp_read]
    dsimp only
    split
    · exact Or.inl ⟨Or.inl rfl, rfl⟩
    · next hrefused =>
      split
      · exact Or.inl ⟨Or.inr rfl, rfl⟩
      · next hconsumed =>
        simp only [Bool.or_eq_true, not_or, Bool.not_eq_true] at hrefused
        have hheld : ∀ id ∈ request.sourceIds, ∃ c, lookup recoveryKey id s.recovery = some c := by
          intro id hid
          rw [Bool.not_eq_true, any_eq_false] at hconsumed
          have hsome := hconsumed id (mem_eraseDups.mpr hid)
          rwa [Option.isNone_iff_eq_none, ← ne_eq, Option.ne_none_iff_exists'] at hsome
        simp only [wp_bind, wp_allocateSequence, wp_createMutationId]
        refine wp_assertMutationIdAvailable _ (fun hfree => ?_)
          (refused_idActive s _ (Nat.le_succ _))
        rw [wp_read]
        simp only [epochOf_withLastSequence]
        have hnew : ∀ consumed, NewSlot s (resentRow tab request
            (uncertainReplay request.intent consumed)
            (supply s.drawn) (lastSequenceOf s.sequences request.intent.targetRef + 1)
            (epochOf s.sequences request.intent.targetRef)
            ((request.displayedBarrier.map fun captured =>
              epochOf s.sequences captured.displayedRef).getD 0)).toMutationRecord :=
          fun _ => ⟨hfree, rfl⟩
        refine wp_addOutbox h (hnew _) ?_
        refine retireConsumedWires_wp (h.insertRow (hnew _)) _ _ fun ids => ?_
        refine each_deleteRecovery_wp _ ?_
        refine Or.inr ⟨_, _, ids, ⟨rfl, ?_, ?_, ?_, ⟨tab, rfl⟩, hfree⟩, rfl, rfl⟩
        · intro id hid
          obtain ⟨c, hc⟩ := hheld id hid
          have hkey : recoveryKey c = id := key_of_lookup hc
          exact ⟨c, mem_filterMap.mpr ⟨id, mem_eraseDups.mpr hid, hc⟩, hkey⟩
        · intro hnil
          rw [hnil] at hrefused
          exact absurd hrefused.1 (by decide)
        · intro c hc
          have hc' := any_eq_false.mp hrefused.2 c hc
          simp only [resendRefused, Bool.or_eq_true, not_or, decide_eq_true_eq, not_not] at hc'
          exact hc'.1.1

end Consume

end Evener.Outbox
