/-
  What each transaction of the outbox does to a tidy database, in closed form.

  Every `*_spec` below says the same of one method: its body either fails without the unique index
  having refused a write (`Refused`), or returns with the database rewritten as a whole by the
  edits named here. The invariants never open a body again.
-/
import Evener.Outbox.Requests

namespace Evener.Outbox

open Evener.Lib JsValue Tx
open List hiding lookup

/-! ## Edits -/

def dropRows (p : MutationOutboxRecord → Bool) (s : Db) : Db :=
  { s with outbox := s.outbox.filter fun r => !p r }

def dropRecovery (p : MutationRecoveryRecord → Bool) (s : Db) : Db :=
  { s with recovery := s.recovery.filter fun c => !p c }

/-- The rows a condition picks, rewritten. -/
def rewriteRows (p : MutationOutboxRecord → Bool) (f : MutationOutboxRecord → MutationOutboxRecord)
    (s : Db) : Db :=
  { s with outbox := s.outbox.map fun r => if p r then f r else r }

def cancelRow (r : MutationOutboxRecord) : MutationOutboxRecord := { r with state := .canceled }

def supersedeRow (r : MutationOutboxRecord) : MutationOutboxRecord :=
  { r with state := .superseded }

/-- A Stop on `ref`: its cancelable rows are canceled and its epoch is one higher. -/
def stopped (ref : String) (s : Db) : Db :=
  let canceled := rewriteRows (fun r => crossedBy ref r && isCancelableByStop r) cancelRow s
  { canceled with sequences := withStopBump ref s.sequences }

/-- The outbox rows a sweep of a wire takes. -/
def sweptRow (wireId : String) (excludeKeys : List String) (onlySuperseded : Bool)
    (r : MutationOutboxRecord) : Bool :=
  carriesWire wireId r.toMutationRecord && !excludeKeys.contains r.clientMutationId &&
    (!onlySuperseded || r.state = .superseded)

/-- The recovery rows a sweep of a wire takes: the unedited ones. -/
def sweptRecovery (wireId : String) (excludeKeys : List String) (c : MutationRecoveryRecord) :
    Bool :=
  carriesWire wireId c.toMutationRecord && !excludeKeys.contains c.clientMutationId &&
    settlementRetiresRecovery c

/-- How a body fails: never because of the unique index, and without giving ids back. -/
def Refused (s : Db) (e : OutboxError) (s' : Db) : Prop := e ≠ .constraint ∧ s.drawn ≤ s'.drawn

variable {s' : Db} {f : MutationOutboxRecord → MutationOutboxRecord}
  {r source : MutationOutboxRecord} {Q : Unit → Db → Prop}
  {requeued : List (String × MutationOutboxRecord)}

theorem refused_idActive (s : Db) (id : String) (h : s.drawn ≤ s'.drawn) :
    Refused s (.idActive id) s' := ⟨nofun, h⟩

theorem refused_targetRef (s : Db) : Refused s .targetRefRequired s := ⟨nofun, le_rfl⟩

section Tidy

variable {s : Db}

theorem Tidy.dropRows (h : Tidy s) (p : MutationOutboxRecord → Bool) :
    Tidy (Outbox.dropRows p s) := h.filterOutbox _

theorem Tidy.dropRecovery (h : Tidy s) (p : MutationRecoveryRecord → Bool) :
    Tidy (Outbox.dropRecovery p s) := h.filterRecovery _

theorem Tidy.rewriteRows (h : Tidy s) (p : MutationOutboxRecord → Bool)
    (hf : ∀ r, SameSlot (f r).toMutationRecord r.toMutationRecord) :
    Tidy (Outbox.rewriteRows p f s) := by
  refine h.mapOutbox fun r => ?_
  split
  · exact hf r
  · exact SameSlot.refl _

theorem Tidy.stopped (h : Tidy s) (ref : String) : Tidy (Outbox.stopped ref s) :=
  (h.rewriteRows _ (f := cancelRow) fun _ => ⟨rfl, rfl, rfl⟩).stopBump ref

theorem mem_rewriteRows {p : MutationOutboxRecord → Bool} {r' : MutationOutboxRecord} :
    r' ∈ (rewriteRows p f s).outbox ↔
      (∃ r ∈ s.outbox, p r = true ∧ r' = f r) ∨ (r' ∈ s.outbox ∧ p r' = false) := by
  unfold rewriteRows
  rw [mem_map]
  constructor
  · rintro ⟨r, hr, rfl⟩
    by_cases hp : p r = true
    · exact Or.inl ⟨r, hr, hp, by simp [hp]⟩
    · rw [if_neg hp]
      exact Or.inr ⟨hr, by simpa using hp⟩
  · rintro (⟨r, hr, hp, rfl⟩ | ⟨hr, hp⟩)
    · exact ⟨r, hr, by simp [hp]⟩
    · exact ⟨r', hr, by simp [hp]⟩

theorem mem_dropRows {p : MutationOutboxRecord → Bool} :
    r ∈ (dropRows p s).outbox ↔ r ∈ s.outbox ∧ p r = false := by
  simp [dropRows]

theorem mem_dropRecovery {p : MutationRecoveryRecord → Bool} {c : MutationRecoveryRecord} :
    c ∈ (dropRecovery p s).recovery ↔ c ∈ s.recovery ∧ p c = false := by
  simp [dropRecovery]

end Tidy

/-! ## Loops over a tidy database -/

section Loops

variable {s : Db} {E : OutboxError → Db → Prop}

theorem keysNodup_selection {ν : Type} {key : ν → String} {l : List ν} (h : KeysNodup key l)
    (p : ν → Bool) : KeysNodup key ((inKeyOrder key l).filter p) :=
  (h.perm (perm_insertionSort _ l).symm).sublist filter_sublist

theorem mem_selection {ν : Type} {key : ν → String} {l : List ν} {p : ν → Bool} {v : ν} :
    v ∈ (inKeyOrder key l).filter p ↔ v ∈ l ∧ p v = true := by
  rw [mem_filter, mem_inKeyOrder]

/-- A loop that rewrites the rows a condition picks. -/
theorem wp_rewriteSelection (h : Tidy s)
    (hf : ∀ r, SameSlot (f r).toMutationRecord r.toMutationRecord) (p : MutationOutboxRecord → Bool)
    (hQ : Q () (rewriteRows p f s)) :
    Tx.wp (Tx.each (fun r => putOutbox (f r)) ((inKeyOrder outboxKey s.outbox).filter p)) s Q E := by
  refine wp_each_rewrite h hf (fun r hr => ((mem_selection).mp hr).1)
    (keysNodup_selection h.outboxKeys p) ?_
  rw [map_key_mem h.outboxKeys (fun _ => mem_selection)]
  exact hQ

theorem wp_dropSelection (h : Tidy s) (p : MutationOutboxRecord → Bool) (hQ : Q () (dropRows p s)) :
    Tx.wp (Tx.each (fun r => deleteOutbox r.clientMutationId)
      ((inKeyOrder outboxKey s.outbox).filter p)) s Q E := by
  refine wp_each_deleteOutbox _ ?_
  rw [filter_key_not_mem h.outboxKeys (fun _ => mem_selection)]
  exact hQ

theorem wp_dropRecoverySelection (h : Tidy s) (p : MutationRecoveryRecord → Bool)
    (hQ : Q () (dropRecovery p s)) :
    Tx.wp (Tx.each (fun c => deleteRecovery c.clientMutationId)
      ((inKeyOrder recoveryKey s.recovery).filter p)) s Q E := by
  show Tx.wp (Tx.each (fun c => deleteRecovery (recoveryKey c)) _) s Q E
  rw [each_map]
  refine wp_each_deleteRecovery _ ?_
  rw [filter_key_not_mem h.recoveryKeys (fun _ => mem_selection)]
  exact hQ

end Loops

/-! ## Enqueue, Stop and discards -/

section Specs

variable (supply : Nat → String) {s : Db}

theorem cancelUnattemptedRows_wp (h : Tidy s) (ref : String) {E : OutboxError → Db → Prop}
    {Q : List String → Db → Prop} (hQ : ∀ ids, Q ids
      (rewriteRows (fun r => crossedBy ref r && isCancelableByStop r) cancelRow s)) :
    Tx.wp (cancelUnattemptedRows ref) s Q E := by
  unfold cancelUnattemptedRows
  simp only [wp_bind, wp_getAllOutbox]
  refine wp_rewriteSelection (f := cancelRow) h (fun _ => ⟨rfl, rfl, rfl⟩) _ ?_
  exact hQ _

/-- An enqueue inserts the row of its intent, canceled when a Stop beat it. -/
theorem enqueueIntent_spec (h : Tidy s) (tab : Tab) (intent : MutationIntent)
    (barrier : Option Nat) :
    Tx.wp (enqueueIntent supply tab intent barrier) s (fun row s' =>
      ∃ state, (state = .submitting ∨ state = .canceled) ∧
        row = enqueuedRow tab intent (supply s.drawn)
          (lastSequenceOf s.sequences intent.targetRef + 1)
          (epochOf s.sequences intent.targetRef) state ∧
        KeyFree s.toStores (supply s.drawn) ∧ s' = insertRow s row) (Refused s) := by
  unfold enqueueIntent
  split
  · exact refused_targetRef s
  · simp only [wp_bind, wp_stopEpochOf, wp_allocateSequence, wp_createMutationId]
    refine wp_assertMutationIdAvailable _ (fun hfree => ?_)
      (refused_idActive s _ (Nat.le_succ _))
    refine wp_addOutbox h ⟨hfree, rfl⟩ ?_
    refine ⟨_, ?_, rfl, hfree, rfl⟩
    split
    · exact Or.inr rfl
    · exact Or.inl rfl

/-- A Stop with its interrupt: the cancel scan and the bump, then the interrupt's own row. -/
theorem enqueueInterruptAndCancel_spec (h : Tidy s) (tab : Tab) (intent : MutationIntent) :
    Tx.wp (enqueueInterruptAndCancel supply tab intent) s (fun result s' =>
      let s₁ := stopped intent.targetRef s
      result.1 = enqueuedRow tab intent (supply s.drawn)
        (lastSequenceOf s₁.sequences intent.targetRef + 1)
        (epochOf s₁.sequences intent.targetRef) .submitting ∧
      KeyFree s₁.toStores (supply s.drawn) ∧ s' = insertRow s₁ result.1) (Refused s) := by
  unfold enqueueInterruptAndCancel
  split
  · exact refused_targetRef s
  · rw [wp_bind]
    refine cancelUnattemptedRows_wp h intent.targetRef fun ids => ?_
    simp only [wp_bind, wp_bumpStopEpoch, wp_allocateSequence, wp_createMutationId]
    refine wp_assertMutationIdAvailable _ (fun hfree => ?_)
      (refused_idActive s _ (Nat.le_succ _))
    rw [wp_stopEpochOf]
    have hstop := h.stopped intent.targetRef
    have hepoch := epochOf_withLastSequence (stopped intent.targetRef s).sequences
      intent.targetRef intent.targetRef
      (lastSequenceOf (stopped intent.targetRef s).sequences intent.targetRef + 1)
    refine wp_addOutbox hstop ⟨hfree, rfl⟩ ?_
    refine ⟨?_, hfree, rfl⟩
    exact congrArg (fun epoch => enqueuedRow tab intent (supply s.drawn)
      (lastSequenceOf (stopped intent.targetRef s).sequences intent.targetRef + 1) epoch
      .submitting) hepoch

theorem cancelUnattempted_spec (h : Tidy s) (ref : String) :
    Tx.wp (cancelUnattempted ref) s (fun _ s' => s' = stopped ref s) (Refused s) := by
  unfold cancelUnattempted
  rw [wp_bind]
  exact cancelUnattemptedRows_wp h ref fun ids => rfl

theorem discardRows_spec (h : Tidy s) (p : MutationOutboxRecord → Bool) :
    Tx.wp (discardRows p) s (fun _ s' => s' = dropRows p s) (Refused s) := by
  unfold discardRows
  simp only [wp_bind, wp_getAllOutbox]
  exact wp_dropSelection h p rfl

end Specs

/-! ## The wire family -/

section Family

variable {s : Db} {E : OutboxError → Db → Prop}

/-- The outbox rows, accepted copies and recovery rows a retirement takes from its family. -/
def retiredRows (family : WireFamily) (options : RetireOptions) : List MutationOutboxRecord :=
  family.outbox.filter fun record =>
    !options.excludeKeys.contains record.clientMutationId &&
      (!options.onlySuperseded || record.state = .superseded)

def retiredCopies (family : WireFamily) (options : RetireOptions) :
    List MutationOptimisticRecord :=
  family.optimistic.filter fun record =>
    options.sweepOptimistic && !options.excludeKeys.contains record.clientMutationId

def retiredRecoveries (family : WireFamily) (options : RetireOptions) :
    List MutationRecoveryRecord :=
  family.recovery.filter fun record =>
    options.sweepRecovery && !options.excludeKeys.contains record.clientMutationId &&
      settlementRetiresRecovery record

theorem retireWireFamily_wp {family : WireFamily} {options : RetireOptions}
    {Q : List String → Db → Prop}
    (hQ : ∀ ids, Q ids { s with
      outbox := s.outbox.filter fun r =>
        outboxKey r ∉ (retiredRows family options).map outboxKey
      optimistic := s.optimistic.filter fun o =>
        optimisticKey o ∉ (retiredCopies family options).map optimisticKey
      recovery := s.recovery.filter fun c =>
        recoveryKey c ∉ (retiredRecoveries family options).map recoveryKey }) :
    Tx.wp (retireWireFamily family options) s Q E := by
  unfold retireWireFamily
  simp only [wp_bind]
  refine wp_each_deleteOutbox _ (wp_each_deleteOptimistic _ ?_)
  show Tx.wp (Tx.each (fun c => deleteRecovery (recoveryKey c)) _) _ _ E
  rw [each_map]
  exact wp_each_deleteRecovery _ (hQ _)

/-- A sweep of one wire, over the database it is resolved from. -/
theorem retireWireSiblings_wp (h : Tidy s) {wireId : String} {options : RetireOptions}
    (hopt : options.sweepOptimistic = false) {Q : List String → Db → Prop}
    (hQ : ∀ ids, Q ids (dropRecovery
      (fun c => options.sweepRecovery && sweptRecovery wireId options.excludeKeys c)
      (dropRows (sweptRow wireId options.excludeKeys options.onlySuperseded) s))) :
    Tx.wp (retireWireSiblings wireId options) s Q E := by
  unfold retireWireSiblings resolveWireFamily
  simp only [wp_bind, wp_getAllOutbox, wp_getAllOptimistic, wp_getAllRecovery, wp_pure]
  refine retireWireFamily_wp fun ids => ?_
  rw [filter_key_not_mem h.outboxKeys (p := sweptRow wireId options.excludeKeys
      options.onlySuperseded) fun r => by
        simp [retiredRows, sweptRow, mem_inKeyOrder, and_assoc, and_comm, and_left_comm],
    filter_key_not_mem h.optimisticKeys (p := fun _ => false) fun o => by
      simp [retiredCopies, hopt],
    filter_key_not_mem h.recoveryKeys (p := fun c => options.sweepRecovery &&
      sweptRecovery wireId options.excludeKeys c) fun c => by
        cases hsweep : options.sweepRecovery <;>
          simp [retiredRecoveries, sweptRecovery, mem_inKeyOrder, hsweep, and_assoc, and_comm, and_left_comm]]
  simpa [dropRecovery, dropRows] using hQ ids

/-- The sweep that reads the outbox alone. -/
theorem retireWireRows_wp (h : Tidy s) {wireId : String} {excludeKeys : List String}
    {onlySuperseded : Bool} {Q : List String → Db → Prop}
    (hQ : ∀ ids, Q ids (dropRows (sweptRow wireId excludeKeys onlySuperseded) s)) :
    Tx.wp (retireWireSiblings wireId ⟨excludeKeys, false, false, onlySuperseded⟩) s Q E := by
  refine retireWireSiblings_wp h rfl fun ids => ?_
  simpa [dropRecovery] using hQ ids

end Family

/-! ## Mints -/

/-- A mint's source after its terminal settlement. -/
def settledSource (source : MutationOutboxRecord) (s : Db) : Db :=
  if source.state = .blockedUnknown then
    { s with outbox := put outboxKey (supersedeRow source) s.outbox }
  else { s with outbox := erase outboxKey source.clientMutationId s.outbox }

/-- The database after a mint of `fresh` from `source`: the source is settled, the row is
    inserted, and older superseded rows of the wire are gone. -/
def minted (source fresh : MutationOutboxRecord) (s : Db) : Db :=
  dropRows (sweptRow (effectiveWireId source.toMutationRecord)
    [source.clientMutationId, fresh.clientMutationId] true)
    (insertRow (settledSource source s) fresh)

/-- `fresh` is a row minted from `source` at `s`. -/
structure MintOf (supply : Nat → String) (s : Db) (source fresh : MutationOutboxRecord) :
    Prop where
  held : source ∈ s.outbox
  state : source.state = .canceled ∨ source.state = .blockedUnknown
  row : ∃ tab bornCanceled preserveOriginClientId, fresh =
    mintedRow tab source (supply s.drawn) (lastSequenceOf s.sequences source.targetRef + 1)
      (epochOf s.sequences source.targetRef) (source.displayedRef.map (epochOf s.sequences))
      bornCanceled preserveOriginClientId
  free : KeyFree (settledSource source s).toStores (supply s.drawn)

section Mint

variable (supply : Nat → String) {s : Db}

theorem settledSource_sequences (source : MutationOutboxRecord) :
    (settledSource source s).sequences = s.sequences := by
  unfold settledSource
  split <;> rfl

theorem settledSource_drawn (source : MutationOutboxRecord) :
    (settledSource source s).drawn = s.drawn := by
  unfold settledSource
  split <;> rfl

theorem Tidy.settledSource (h : Tidy s) (hsource : source ∈ s.outbox) :
    Tidy (Outbox.settledSource source s) := by
  unfold Outbox.settledSource
  split
  · exact h.putOutbox hsource ⟨rfl, rfl, rfl⟩
  · exact h.filterOutbox _

theorem settleMintSource_wp (h : Tidy s) (hsource : source ∈ s.outbox) {E : OutboxError → Db → Prop}
    (hQ : Q () (settledSource source s)) : Tx.wp (settleMintSource source) s Q E := by
  unfold settleMintSource settledSource at *
  split
  · next hstate =>
    rw [if_pos hstate] at hQ
    exact wp_rewriteRow h (supersedeRow source) hsource ⟨rfl, rfl, rfl⟩ hQ
  · next hstate =>
    rw [if_neg hstate] at hQ
    exact hQ

theorem mintFreshRow_wp (h : Tidy s) (tab : Tab) (source : MutationOutboxRecord)
    (stopEpoch : Nat) (displayedStopEpoch : Option Nat) (bornCanceled preserve : Bool)
    {E : OutboxError → Db → Prop} {Q : MutationOutboxRecord × List String → Db → Prop}
    (hQ : ∀ fresh ids, fresh = mintedRow tab source (supply s.drawn)
        (lastSequenceOf s.sequences source.targetRef + 1) stopEpoch displayedStopEpoch
        bornCanceled preserve → KeyFree s.toStores (supply s.drawn) →
      Q (fresh, ids) (dropRows (sweptRow (effectiveWireId source.toMutationRecord)
        [source.clientMutationId, fresh.clientMutationId] true) (insertRow s fresh)))
    (hE : ∀ s', s.drawn ≤ s'.drawn → E (.idActive (supply s.drawn)) s') :
    Tx.wp (mintFreshRow supply tab source stopEpoch displayedStopEpoch bornCanceled preserve)
      s Q E := by
  unfold mintFreshRow
  simp only [wp_bind, wp_allocateSequence, wp_createMutationId]
  refine wp_assertMutationIdAvailable _ (fun hfree => ?_) (hE _ (Nat.le_succ _))
  have hnew : NewSlot s (mintedRow tab source (supply s.drawn)
      (lastSequenceOf s.sequences source.targetRef + 1) stopEpoch displayedStopEpoch bornCanceled
      preserve).toMutationRecord := ⟨hfree, rfl⟩
  refine wp_addOutbox h hnew ?_
  exact retireWireRows_wp (h.insertRow hnew) fun ids => hQ _ ids rfl hfree

/-- A Retry mints one fresh row from the parked row it names, or changes nothing. -/
theorem mintRetryFromRow_spec (h : Tidy s) (tab : Tab) (id : String)
    (capture : MutationRetryCapture) :
    Tx.wp (mintRetryFromRow supply tab id capture) s (fun result s' =>
      (result.1 = none ∧ s' = s) ∨
        ∃ source fresh, source.clientMutationId = id ∧ MintOf supply s source fresh ∧
          result.1 = some fresh ∧ s' = minted source fresh s) (Refused s) := by
  unfold mintRetryFromRow
  rw [wp_bind, wp_getOutbox]
  cases hlookup : lookup outboxKey id s.outbox with
  | none => exact Or.inl ⟨rfl, rfl⟩
  | some source =>
    have hheld := mem_of_lookup hlookup
    have hkey : outboxKey source = id := key_of_lookup hlookup
    dsimp only
    split
    · next hguard =>
      simp only [Bool.and_eq_true, Bool.or_eq_true, decide_eq_true_eq] at hguard
      rw [wp_bind]
      refine settleMintSource_wp h hheld ?_
      simp only [wp_bind, wp_stopEpochOf, wp_read]
      refine mintFreshRow_wp supply (h.settledSource hheld) _ _ _ _ _ _ (fun fresh ids hrow hfree => ?_)
        fun s' hs' => ?_
      · rw [settledSource_sequences, settledSource_drawn] at hrow
        rw [settledSource_drawn] at hfree
        exact Or.inr ⟨source, fresh, hkey, ⟨hheld, hguard.1, ⟨_, _, _, hrow⟩, hfree⟩, rfl, rfl⟩
      · rw [settledSource_drawn] at hs'
        exact refused_idActive s _ hs'
    · exact Or.inl ⟨rfl, rfl⟩

end Mint

/-! ## Attempts -/

/-- Whether a mark compares epochs before it lets the row out. -/
def gated (r : MutationOutboxRecord) : Bool :=
  evidenced r || r.unresolvedAttempts.isSome || r.stopEpochAtEnqueue.isNone

/-- The baseline a gated mark compares against. -/
def markBaseline (s : Stores) (r : MutationOutboxRecord) : Nat :=
  if r.stopEpochAtEnqueue.isNone && provablyUnattempted r then epochOf s.sequences r.targetRef
  else r.stopEpochAtEnqueue.getD 0

/-- The verdict of a gated mark. -/
def markCrossed (s : Stores) (r : MutationOutboxRecord) : Bool :=
  fenceCrossed { r with stopEpochAtEnqueue := some (markBaseline s r) }
    (epochOf s.sequences r.targetRef) (displayedEpochOf s.sequences r)

/-- Whether a row that is not gated keeps the baseline it was born with, or a gated one takes
    the one it was compared against. -/
def keptBaseline (s : Stores) (r : MutationOutboxRecord) : Option Nat :=
  if gated r then some (markBaseline s r) else r.stopEpochAtEnqueue

/-- Whether a crossed mark leaves its row uncertain. -/
def markUncertain (r : MutationOutboxRecord) : Bool :=
  evidenced r || (r.stopEpochAtEnqueue.isNone && !provablyUnattempted r)

/-- What a refusal makes of the row whose attempt it answers. -/
def unmarkedRow (crossed : Bool) (r : MutationOutboxRecord) : MutationOutboxRecord :=
  let prior := priorUnresolvedAttempts r
  if r.state = .submitting then
    if crossed then
      if 0 < prior - 1 then
        { r with
          state := .blockedUnknown
          attempted := some true
          unresolvedAttempts := some (prior - 1)
          stopFenced := some true }
      else drainedRow r .canceled
    else
      { r with
        attempted := some (decide (0 < prior - 1))
        unresolvedAttempts := some (prior - 1) }
  else if 1 < prior then
    { r with
      unresolvedAttempts := some (prior - 1)
      stopFenced := if crossed then some true else r.stopFenced }
  else if crossed then drainedRow r .canceled
  else drainedRow r .submitting

def blockRow (r : MutationOutboxRecord) : MutationOutboxRecord := { r with state := .blockedUnknown }

def stampRow (r : MutationOutboxRecord) : MutationOutboxRecord :=
  { r with state := .blockedUnknown, stopFenced := some true }

theorem sameSlot_unmarkedRow (crossed : Bool) (r : MutationOutboxRecord) :
    SameSlot (unmarkedRow crossed r).toMutationRecord r.toMutationRecord := by
  unfold unmarkedRow drainedRow
  dsimp only
  repeat' split
  all_goals exact ⟨rfl, rfl, rfl⟩

theorem sameSlot_fencedRow (r : MutationOutboxRecord) (n : Nat) (uncertain : Bool) :
    SameSlot (fencedRow r n uncertain).toMutationRecord r.toMutationRecord := by
  unfold fencedRow
  split <;> exact ⟨rfl, rfl, rfl⟩

section Attempts

variable {s : Db}

/-- A mark lets a submitting row out when it is not gated or no Stop crossed it; a crossed row
    is parked or canceled instead, and any other row is left alone. -/
theorem markAttempted_spec (h : Tidy s) (id : String) :
    Tx.wp (markAttempted id) s (fun passed s' =>
      (passed = false ∧ s' = s) ∨
        ∃ r ∈ s.outbox, r.clientMutationId = id ∧ r.state = .submitting ∧
          ((passed = true ∧ (gated r = true → markCrossed s.toStores r = false) ∧
              s' = { s with
                outbox := put outboxKey (markedRow r (keptBaseline s.toStores r)) s.outbox }) ∨
            (passed = false ∧ gated r = true ∧ markCrossed s.toStores r = true ∧
              s' = { s with
                outbox := put outboxKey (fencedRow r (markBaseline s.toStores r) (markUncertain r))
                  s.outbox }))) (Refused s) := by
  unfold markAttempted
  rw [wp_bind, wp_getOutbox]
  cases hlookup : lookup outboxKey id s.outbox with
  | none => exact Or.inl ⟨rfl, rfl⟩
  | some r =>
    have hheld := mem_of_lookup hlookup
    have hkey : outboxKey r = id := key_of_lookup hlookup
    dsimp only
    split
    · next hstate =>
      split
      · next hif =>
        have hgated : gated r = true := hif
        have hkept : keptBaseline s.toStores r = some (markBaseline s.toStores r) := by
          rw [keptBaseline, if_pos hgated]
        rw [wp_bind, wp_read]
        refine (wp_ite _ _).mpr ⟨fun hcrossed => ?_, fun hcrossed => ?_⟩
        · rw [wp_bind]
          refine wp_rewriteRow h _ hheld (sameSlot_fencedRow r _ _) ?_
          exact Or.inr ⟨r, hheld, hkey, hstate, Or.inr ⟨rfl, hgated, hcrossed, rfl⟩⟩
        · have hpass : markCrossed s.toStores r = false := Bool.eq_false_iff.mpr hcrossed
          rw [wp_bind]
          refine wp_rewriteRow h _ hheld ⟨rfl, rfl, rfl⟩ ?_
          refine Or.inr ⟨r, hheld, hkey, hstate, Or.inl ⟨rfl, fun _ => hpass, ?_⟩⟩
          rw [hkept]
          rfl
      · next hif =>
        have hgated : ¬ gated r = true := hif
        have hkept : keptBaseline s.toStores r = r.stopEpochAtEnqueue := by
          rw [keptBaseline, if_neg hgated]
        rw [wp_bind]
        refine wp_rewriteRow h _ hheld ⟨rfl, rfl, rfl⟩ ?_
        refine Or.inr ⟨r, hheld, hkey, hstate, Or.inl ⟨rfl, fun hg => absurd hg hgated, ?_⟩⟩
        rw [hkept]
    · exact Or.inl ⟨rfl, rfl⟩

/-- A refusal rewrites the row it names while that row is submitting or uncertain. -/
def Unmarked (s : Db) (id : String) (s' : Db) : Prop :=
  (s' = s ∧ ∀ r ∈ s.outbox, r.clientMutationId = id →
    r.state ≠ .submitting ∧ r.state ≠ .blockedUnknown) ∨
    ∃ r ∈ s.outbox, r.clientMutationId = id ∧ (r.state = .submitting ∨ r.state = .blockedUnknown) ∧
      s' = { s with outbox := put outboxKey (unmarkedRow (fenceCrossed r
        (epochOf s.sequences r.targetRef) (displayedEpochOf s.sequences r)) r) s.outbox }

theorem unmarkAttempted_spec (h : Tidy s) (id : String) {E : OutboxError → Db → Prop} :
    Tx.wp (unmarkAttempted id) s (fun _ s' => Unmarked s id s') E := by
  unfold unmarkAttempted
  rw [wp_bind, wp_getOutbox]
  cases hlookup : lookup outboxKey id s.outbox with
  | none => exact Or.inl ⟨rfl, fun r hr hkey => absurd hkey (lookup_eq_none.mp hlookup r hr)⟩
  | some r =>
    have hheld := mem_of_lookup hlookup
    have hkey : outboxKey r = id := key_of_lookup hlookup
    -- every branch that writes, writes `unmarkedRow`
    have hwrite : ∀ (r' : MutationOutboxRecord) (clean : Bool),
        (r.state = .submitting ∨ r.state = .blockedUnknown) →
        unmarkedRow (fenceCrossed r (epochOf s.sequences r.targetRef)
          (displayedEpochOf s.sequences r)) r = r' →
        Tx.wp (putOutbox r' >>= fun _ => pure clean) s (fun _ s' => Unmarked s id s') E := by
      intro r' clean hstate hrow
      subst hrow
      rw [wp_bind]
      exact wp_rewriteRow h _ hheld (sameSlot_unmarkedRow _ r)
        (Or.inr ⟨r, hheld, hkey, hstate, rfl⟩)
    dsimp only
    split
    · next hsub =>
      rw [wp_bind, wp_fenceCrossedSinceEnqueue]
      split
      · next hcrossed =>
        split
        · next hpos => exact hwrite _ _ (Or.inl hsub) (by simp [unmarkedRow, hsub, hcrossed, hpos])
        · next hpos => exact hwrite _ _ (Or.inl hsub) (by simp [unmarkedRow, hsub, hcrossed, hpos])
      · next hcrossed => exact hwrite _ _ (Or.inl hsub) (by simp [unmarkedRow, hsub, hcrossed])
    · next hsub =>
      split
      · next hblocked =>
        rw [wp_bind, wp_fenceCrossedSinceEnqueue]
        split
        · next hmany =>
          exact hwrite _ _ (Or.inr hblocked) (by simp [unmarkedRow, hblocked, hmany])
        · next hmany =>
          split
          · next hcrossed =>
            exact hwrite _ _ (Or.inr hblocked) (by simp [unmarkedRow, hblocked, hmany, hcrossed])
          · next hcrossed =>
            exact hwrite _ _ (Or.inr hblocked) (by simp [unmarkedRow, hblocked, hmany, hcrossed])
      · next hblocked =>
        refine Or.inl ⟨rfl, fun x hx hxkey => ?_⟩
        rw [h.outboxKeys.eq_of_key hx hheld (hxkey.trans hkey.symm)]
        exact ⟨hsub, hblocked⟩

theorem markUnknown_spec (h : Tidy s) (id : String) (onlyAttempted : Bool) :
    Tx.wp (markUnknown id onlyAttempted) s (fun _ s' =>
      s' = s ∨ ∃ r ∈ s.outbox, r.clientMutationId = id ∧ r.state = .submitting ∧
        s' = { s with outbox := put outboxKey (blockRow r) s.outbox }) (Refused s) := by
  unfold markUnknown
  rw [wp_bind, wp_getOutbox]
  cases hlookup : lookup outboxKey id s.outbox with
  | none => exact Or.inl rfl
  | some r =>
    have hheld := mem_of_lookup hlookup
    have hkey : outboxKey r = id := key_of_lookup hlookup
    dsimp only
    split
    · exact Or.inl rfl
    · split
      · exact Or.inl rfl
      · next hlive =>
        split
        · next hstate =>
          simp only [Bool.or_eq_true, decide_eq_true_eq, not_or] at hlive
          have hsub : r.state = .submitting := by
            cases hr : r.state <;> simp_all
          rw [wp_bind]
          refine wp_rewriteRow h (blockRow r) hheld ⟨rfl, rfl, rfl⟩ ?_
          exact Or.inr ⟨r, hheld, hkey, hsub, rfl⟩
        · exact Or.inl rfl

end Attempts

/-! ## Reconciliation -/

/-- What a reconciliation does with one parked row. -/
inductive RestoreStep (supply : Nat → String) (r : MutationOutboxRecord) (s : Db) :
    List (String × MutationOutboxRecord) → Db → Prop where
  | canceled : r.attempted = some false →
      RestoreStep supply r s [(r.clientMutationId, cancelRow r)]
        { s with outbox := put outboxKey (cancelRow r) s.outbox }
  | stamped : r.attempted ≠ some false →
      RestoreStep supply r s [] { s with outbox := put outboxKey (stampRow r) s.outbox }
  | outranked : r.method = humanNoteMethod →
      RestoreStep supply r s [] { s with outbox := put outboxKey (supersedeRow r) s.outbox }
  | minted (fresh : MutationOutboxRecord) : MintOf supply s r fresh →
      RestoreStep supply r s [(r.clientMutationId, fresh)] (minted r fresh s)

/-- The parked rows of a reconciliation, one after the other. -/
inductive Restores (supply : Nat → String) : Db → List (String × MutationOutboxRecord) → Db → Prop
    where
  | nil (s : Db) : Restores supply s [] s
  | cons {s s₁ s₂ : Db} {requeued rest : List (String × MutationOutboxRecord)}
      (r : MutationOutboxRecord) : r ∈ s.outbox → r.state = .blockedUnknown →
      RestoreStep supply r s requeued s₁ → Restores supply s₁ rest s₂ →
      Restores supply s (requeued ++ rest) s₂

section Restore

variable {supply : Nat → String} {s : Db}

theorem Tidy.minted (h : Tidy s) {fresh : MutationOutboxRecord}
    (hmint : MintOf supply s source fresh) : Tidy (Outbox.minted source fresh s) := by
  obtain ⟨tab, bornCanceled, preserve, rfl⟩ := hmint.row
  refine ((h.settledSource hmint.held).insertRow ⟨?_, ?_⟩).dropRows _
  · exact hmint.free
  · rw [settledSource_sequences]
    rfl

theorem Tidy.restoreStep (h : Tidy s) (hr : r ∈ s.outbox)
    (hstep : RestoreStep supply r s requeued s') : Tidy s' := by
  cases hstep with
  | canceled _ => exact h.putOutbox hr ⟨rfl, rfl, rfl⟩
  | stamped _ => exact h.putOutbox hr ⟨rfl, rfl, rfl⟩
  | outranked _ => exact h.putOutbox hr ⟨rfl, rfl, rfl⟩
  | minted fresh hmint => exact h.minted hmint

theorem epochOf_minted (source fresh : MutationOutboxRecord) (ref : String) :
    epochOf (minted source fresh s).sequences ref = epochOf s.sequences ref := by
  show epochOf (withLastSequence fresh.targetRef fresh.intentSequence
    (settledSource source s).sequences) ref = _
  rw [epochOf_withLastSequence, settledSource_sequences]

theorem drawn_minted (source fresh : MutationOutboxRecord) :
    (minted source fresh s).drawn = s.drawn + 1 := by
  show (settledSource source s).drawn + 1 = _
  rw [settledSource_drawn]

theorem RestoreStep.epochs (hstep : RestoreStep supply r s requeued s') (ref : String) :
    epochOf s'.sequences ref = epochOf s.sequences ref := by
  cases hstep with
  | canceled _ => rfl
  | stamped _ => rfl
  | outranked _ => rfl
  | minted fresh _ => exact epochOf_minted r fresh ref

theorem RestoreStep.drawn (hstep : RestoreStep supply r s requeued s') : s.drawn ≤ s'.drawn := by
  cases hstep with
  | canceled _ => exact le_rfl
  | stamped _ => exact le_rfl
  | outranked _ => exact le_rfl
  | minted fresh _ =>
    rw [drawn_minted]
    exact Nat.le_succ _

theorem mem_settledSource (hkeys : KeysNodup outboxKey s.outbox) :
    r ∈ (settledSource source s).outbox ↔
      (source.state = .blockedUnknown ∧ r = supersedeRow source) ∨
        (r ∈ s.outbox ∧ r.clientMutationId ≠ source.clientMutationId) := by
  unfold settledSource
  split
  · next hstate =>
    rw [mem_put hkeys]
    simp [hstate, outboxKey, supersedeRow]
  · next hstate =>
    rw [mem_erase]
    simp [hstate, outboxKey]

theorem mem_minted {fresh : MutationOutboxRecord} (hkeys : KeysNodup outboxKey s.outbox) :
    r ∈ (minted source fresh s).outbox ↔
      (r = fresh ∨ (source.state = .blockedUnknown ∧ r = supersedeRow source) ∨
        (r ∈ s.outbox ∧ r.clientMutationId ≠ source.clientMutationId)) ∧
      sweptRow (effectiveWireId source.toMutationRecord)
        [source.clientMutationId, fresh.clientMutationId] true r = false := by
  unfold minted
  rw [mem_dropRows]
  have hinsert : r ∈ (insertRow (settledSource source s) fresh).outbox ↔
      r ∈ (settledSource source s).outbox ∨ r = fresh := by
    unfold insertRow
    rw [mem_append, mem_singleton]
  rw [hinsert, mem_settledSource hkeys]
  tauto

/-- A row still parked is not touched by the reconciliation of another row. -/
theorem RestoreStep.keeps (h : Tidy s) {x : MutationOutboxRecord}
    (hstep : RestoreStep supply r s requeued s') (hx : x ∈ s.outbox)
    (hparked : x.state = .blockedUnknown) (hne : x.clientMutationId ≠ r.clientMutationId) :
    x ∈ s'.outbox := by
  cases hstep with
  | canceled _ => exact mem_put_of_ne hx hne
  | stamped _ => exact mem_put_of_ne hx hne
  | outranked _ => exact mem_put_of_ne hx hne
  | minted fresh _ =>
    refine (mem_minted h.outboxKeys).mpr ⟨Or.inr (Or.inr ⟨hx, hne⟩), ?_⟩
    simp [sweptRow, hparked]

/-- The rest of `restoreRow`, whatever the note check answered. -/
def restoreRest (supply : Nat → String) (tab : Tab) (record : MutationOutboxRecord) (stopEpoch : Nat)
    (displayedStopEpoch : Option Nat) (outranked : Bool) :
    DbTx (List (String × MutationOutboxRecord) × List String) := do
  putOutbox (supersedeRow record)
  if outranked then
    return ([], [record.clientMutationId])
  else
    let (fresh, swept) ← mintFreshRow supply tab record stopEpoch displayedStopEpoch false true
    return ([(record.clientMutationId, fresh)], record.clientMutationId :: swept)

theorem restoreRow_wp (h : Tidy s) (tab : Tab) {sequences : List TargetSequence}
    (hepochs : ∀ ref, epochOf sequences ref = epochOf s.sequences ref) (hr : r ∈ s.outbox)
    (hparked : r.state = .blockedUnknown) :
    Tx.wp (restoreRow supply tab sequences r) s
      (fun result s' => RestoreStep supply r s result.1 s') (Refused s) := by
  have hdisplayed : r.displayedRef.map (epochOf sequences) =
      r.displayedRef.map (epochOf s.sequences) := by
    rw [show epochOf sequences = epochOf s.sequences from funext hepochs]
  unfold restoreRow
  rw [hepochs, hdisplayed]
  dsimp only
  split
  · split
    · next hunattempted =>
      rw [wp_bind]
      exact wp_rewriteRow h (cancelRow r) hr ⟨rfl, rfl, rfl⟩
        (RestoreStep.canceled hunattempted)
    · next hattempted =>
      rw [wp_bind]
      exact wp_rewriteRow h (stampRow r) hr ⟨rfl, rfl, rfl⟩
        (RestoreStep.stamped hattempted)
  · have hsettled : settledSource r s =
        { s with outbox := put outboxKey (supersedeRow r) s.outbox } := by
      unfold settledSource
      rw [if_pos hparked]
    have hrest : ∀ outranked : Bool, (outranked = true → r.method = humanNoteMethod) →
        Tx.wp (restoreRest supply tab r (epochOf s.sequences r.targetRef)
          (r.displayedRef.map (epochOf s.sequences)) outranked) s
          (fun result s' => RestoreStep supply r s result.1 s') (Refused s) := by
      intro outranked hnote
      unfold restoreRest
      rw [wp_bind]
      refine wp_rewriteRow h _ hr ⟨rfl, rfl, rfl⟩ ?_
      split
      · next ho => exact RestoreStep.outranked (hnote ho)
      · rw [← hsettled, wp_bind]
        refine mintFreshRow_wp supply (h.settledSource hr) _ _ _ _ _ _
          (fun fresh ids hrow hfree => ?_) fun s' hs' => ?_
        · rw [settledSource_sequences, settledSource_drawn] at hrow
          rw [settledSource_drawn] at hfree
          exact RestoreStep.minted fresh ⟨hr, Or.inr hparked, ⟨_, _, _, hrow⟩, hfree⟩
        · rw [settledSource_drawn] at hs'
          exact refused_idActive s _ hs'
    split
    · next hnote =>
      rw [wp_bind]
      exact hrest _ fun _ => hnote
    · exact hrest false (fun hfalse => absurd hfalse Bool.false_ne_true)

theorem restoreRows_wp (tab : Tab) {sequences : List TargetSequence} {s₀ : Db}
    (parked : List MutationOutboxRecord) (h : Tidy s) (hdrawn : s₀.drawn ≤ s.drawn)
    (hepochs : ∀ ref, epochOf sequences ref = epochOf s.sequences ref)
    (hheld : ∀ r ∈ parked, r ∈ s.outbox ∧ r.state = .blockedUnknown)
    (hnodup : KeysNodup outboxKey parked) :
    Tx.wp (Tx.forEach (restoreRow supply tab sequences) parked) s
      (fun outcomes s' => Restores supply s (outcomes.flatMap Prod.fst) s') (Refused s₀) := by
  induction parked generalizing s with
  | nil => exact Restores.nil s
  | cons r parked ih =>
    obtain ⟨hne, hnodup'⟩ := keysNodup_cons.mp hnodup
    obtain ⟨hr, hparked⟩ := hheld r mem_cons_self
    rw [Tx.forEach, wp_bind]
    refine wp_mono (restoreRow_wp h tab hepochs hr hparked) ?_ ?_
    · intro result s₁ hstep
      rw [wp_bind]
      refine wp_mono (ih (h.restoreStep hr hstep) (le_trans hdrawn hstep.drawn) ?_ ?_ hnodup')
        ?_ fun _ _ hrefused => hrefused
      · intro ref
        rw [hepochs, hstep.epochs]
      · intro x hx
        obtain ⟨hxs, hxparked⟩ := hheld x (mem_cons_of_mem _ hx)
        exact ⟨hstep.keeps h hxs hxparked (hne x hx), hxparked⟩
      · intro outcomes s₂ hrest
        rw [wp_pure, flatMap_cons]
        exact Restores.cons r hr hparked hstep hrest
    · intro e s' hrefused
      exact ⟨hrefused.1, le_trans hdrawn hrefused.2⟩

theorem restoreProvenAbsent_spec (h : Tidy s) (tab : Tab) (ref : String) (ids : List String) :
    Tx.wp (restoreProvenAbsent supply tab ref ids) s
      (fun result s' => Restores supply s result.1 s') (Refused s) := by
  unfold restoreProvenAbsent
  simp only [wp_bind, wp_getAllOutbox, wp_read]
  refine wp_mono (restoreRows_wp tab _ h le_rfl (fun _ => rfl) ?_
    (keysNodup_selection h.outboxKeys _)) (fun outcomes s' hrest => hrest) fun _ _ hr => hr
  intro r hr
  obtain ⟨hheld, hp⟩ := mem_selection.mp hr
  simp only [Bool.and_eq_true, decide_eq_true_eq] at hp
  exact ⟨hheld, hp.1.2⟩

end Restore

end Evener.Outbox
