/-
  What a settlement and its later sweeps do to a tidy database.

  `Settling` says what every deletion around one wire id keeps: nothing is added but the accepted
  copy, and a record that the settlement does not name is spared.
-/
import Evener.Outbox.RecoveryEffects

namespace Evener.Outbox

open Evener.Lib JsValue Tx Option
open List hiding lookup

/-- The id, the wire and the record a settlement is about. -/
structure SettleKey where
  id : String
  wireId : String
  subject : MutationRecord

/-- A record no deletion of the settlement is aimed at. -/
structure SettleKey.Spares (k : SettleKey) (a : MutationRecord) : Prop where
  wire : effectiveWireId a ≠ k.wireId
  id : a.clientMutationId ≠ k.id
  subject : a.clientMutationId ≠ k.subject.clientMutationId

theorem SettleKey.Spares.ne {k : SettleKey} {a : MutationRecord} {id : String} (h : k.Spares a)
    (hid : id = k.id ∨ id = k.subject.clientMutationId) : a.clientMutationId ≠ id := by
  rcases hid with rfl | rfl
  · exact h.id
  · exact h.subject

/-- A note whose outcome is not known. -/
def ParkedNote (r : MutationOutboxRecord) : Prop :=
  r.method = humanNoteMethod ∧ r.state = .blockedUnknown

/-- `s` is `s₀` with some of the settlement's edits made. -/
structure Settling (s₀ : Db) (k : SettleKey) (s : Db) : Prop where
  tidy : Tidy s
  sequences : s.sequences = s₀.sequences
  drawn : s.drawn = s₀.drawn
  rows : ∀ r' ∈ s.outbox, r' ∈ s₀.outbox ∨ ∃ r ∈ s₀.outbox, ParkedNote r ∧ r' = supersedeRow r
  copies : ∀ o ∈ s.optimistic, o ∈ s₀.optimistic ∨ o = acceptedRecord k.subject
  recovery : ∀ c ∈ s.recovery, c ∈ s₀.recovery
  keepsRow : ∀ r ∈ s₀.outbox, k.Spares r.toMutationRecord →
    r ∈ s.outbox ∨ (ParkedNote r ∧ supersedeRow r ∈ s.outbox)
  keepsCopy : ∀ o ∈ s₀.optimistic, k.Spares o.toMutationRecord → o ∈ s.optimistic
  keepsRecovery : ∀ c ∈ s₀.recovery, k.Spares c.toMutationRecord → c.method ≠ humanNoteMethod →
    c ∈ s.recovery

variable {id : String} {named : Option MutationRecord} {found : Settlement}

section Settling

variable {s₀ s : Db} {k : SettleKey}

theorem Settling.refl (h : Tidy s₀) : Settling s₀ k s₀ :=
  ⟨h, rfl, rfl, fun _ hr => Or.inl hr, fun _ ho => Or.inl ho, fun _ hc => hc,
    fun _ hr _ => Or.inl hr, fun _ ho _ => ho, fun _ hc _ _ => hc⟩

/-- Every row of the settlement is a row of the start, but perhaps for its state. -/
theorem Settling.row_record (h : Settling s₀ k s) {r' : MutationOutboxRecord}
    (hr' : r' ∈ s.outbox) : ∃ r ∈ s₀.outbox, r.toMutationRecord = r'.toMutationRecord := by
  rcases h.rows r' hr' with hr | ⟨r, hr, -, rfl⟩
  · exact ⟨r', hr, rfl⟩
  · exact ⟨r, hr, rfl⟩

theorem Settling.keepRows (h : Settling s₀ k s) {q : MutationOutboxRecord → Bool}
    (hq : ∀ r ∈ s.outbox, k.Spares r.toMutationRecord → q r = true) :
    Settling s₀ k { s with outbox := s.outbox.filter q } := by
  refine ⟨h.tidy.filterOutbox q, h.sequences, h.drawn,
    fun r hr => h.rows r (mem_filter.mp hr).1, h.copies, h.recovery, ?_, h.keepsCopy,
    h.keepsRecovery⟩
  intro r hr hspared
  rcases h.keepsRow r hr hspared with hkept | ⟨hnote, hkept⟩
  · exact Or.inl (mem_filter.mpr ⟨hkept, hq r hkept hspared⟩)
  · exact Or.inr ⟨hnote, mem_filter.mpr ⟨hkept, hq _ hkept hspared⟩⟩

theorem Settling.keepCopies (h : Settling s₀ k s) {q : MutationOptimisticRecord → Bool}
    (hq : ∀ o ∈ s.optimistic, k.Spares o.toMutationRecord → q o = true) :
    Settling s₀ k { s with optimistic := s.optimistic.filter q } :=
  ⟨h.tidy.filterOptimistic q, h.sequences, h.drawn, h.rows,
    fun o ho => h.copies o (mem_filter.mp ho).1, h.recovery, h.keepsRow,
    fun o ho hspared => mem_filter.mpr
      ⟨h.keepsCopy o ho hspared, hq o (h.keepsCopy o ho hspared) hspared⟩, h.keepsRecovery⟩

theorem Settling.keepRecovery (h : Settling s₀ k s) {q : MutationRecoveryRecord → Bool}
    (hq : ∀ c ∈ s.recovery, k.Spares c.toMutationRecord → c.method ≠ humanNoteMethod →
      q c = true) :
    Settling s₀ k { s with recovery := s.recovery.filter q } :=
  ⟨h.tidy.filterRecovery q, h.sequences, h.drawn, h.rows, h.copies,
    fun c hc => h.recovery c (mem_filter.mp hc).1, h.keepsRow, h.keepsCopy,
    fun c hc hspared hnote => mem_filter.mpr
      ⟨h.keepsRecovery c hc hspared hnote, hq c (h.keepsRecovery c hc hspared hnote) hspared hnote⟩⟩

theorem Settling.eraseRow (h : Settling s₀ k s) (hid : id = k.id ∨ id = k.subject.clientMutationId) :
    Settling s₀ k { s with outbox := erase outboxKey id s.outbox } := by
  exact h.keepRows fun r _ hspared => decide_eq_true (hspared.ne hid)

theorem Settling.eraseCopy (h : Settling s₀ k s) (hid : id = k.id ∨ id = k.subject.clientMutationId) :
    Settling s₀ k { s with optimistic := erase optimisticKey id s.optimistic } := by
  exact h.keepCopies fun o _ hspared => decide_eq_true (hspared.ne hid)

theorem Settling.eraseRecovery (h : Settling s₀ k s)
    (hid : id = k.id ∨ id = k.subject.clientMutationId) :
    Settling s₀ k { s with recovery := erase recoveryKey id s.recovery } := by
  exact h.keepRecovery fun c _ hspared _ => decide_eq_true (hspared.ne hid)

theorem Settling.fits (h : Settling s₀ k s) (hstart : Tidy s₀)
    (hsubject : k.subject ∈ recordsOf s₀.toStores) : Fits s k.subject := by
  refine ⟨fun b hb href hseq => ?_, ?_⟩
  · rcases mem_recordsOf.mp hb with ⟨r, hr, rfl⟩ | ⟨o, ho, rfl⟩ | ⟨c, hc, rfl⟩
    · obtain ⟨r₀, hr₀, heq⟩ := h.row_record hr
      rw [← heq] at href hseq ⊢
      exact hstart.slots _ (row_mem_recordsOf hr₀) _ hsubject href hseq
    · rcases h.copies o ho with ho | rfl
      · exact hstart.slots _ (copy_mem_recordsOf ho) _ hsubject href hseq
      · rfl
    · exact hstart.slots _ (recovery_mem_recordsOf (h.recovery c hc)) _ hsubject href hseq
  · rw [h.sequences]
    exact hstart.bounded _ hsubject

theorem Settling.putAccepted (h : Settling s₀ k s) (hstart : Tidy s₀)
    (hsubject : k.subject ∈ recordsOf s₀.toStores) :
    Settling s₀ k { s with
      optimistic := put optimisticKey (acceptedRecord k.subject) s.optimistic } := by
  refine ⟨h.tidy.putOptimistic (fits_of_sameSlot (h.fits hstart hsubject) ⟨rfl, rfl, rfl⟩),
    h.sequences, h.drawn, h.rows, fun o ho => ?_, h.recovery, h.keepsRow, fun o ho hspared => ?_,
    h.keepsRecovery⟩
  · rcases mem_of_mem_put ho with rfl | ho
    · exact Or.inr rfl
    · exact h.copies o ho
  · exact mem_put_of_ne (h.keepsCopy o ho hspared) hspared.subject

/-- Parked notes settled as superseded. -/
theorem Settling.supersede (h : Settling s₀ k s) {p : MutationOutboxRecord → Bool}
    (hp : ∀ r, p r = true → ParkedNote r) : Settling s₀ k (rewriteRows p supersedeRow s) := by
  refine ⟨h.tidy.rewriteRows p fun _ => ⟨rfl, rfl, rfl⟩, h.sequences, h.drawn, fun r' hr' => ?_,
    h.copies, h.recovery, fun r hr hspared => ?_, h.keepsCopy, h.keepsRecovery⟩
  · rcases mem_rewriteRows.mp hr' with ⟨r, hr, hpr, rfl⟩ | ⟨hr', -⟩
    · rcases h.rows r hr with hr | ⟨r₀, hr₀, hnote, rfl⟩
      · exact Or.inr ⟨r, hr, hp r hpr, rfl⟩
      · exact Or.inr ⟨r₀, hr₀, hnote, rfl⟩
    · exact h.rows r' hr'
  · rcases h.keepsRow r hr hspared with hkept | ⟨hnote, hkept⟩
    · by_cases hpr : p r = true
      · exact Or.inr ⟨hp r hpr, mem_rewriteRows.mpr (Or.inl ⟨r, hkept, hpr, rfl⟩)⟩
      · exact Or.inl (mem_rewriteRows.mpr (Or.inr ⟨hkept, by simpa using hpr⟩))
    · refine Or.inr ⟨hnote, mem_rewriteRows.mpr (Or.inr ⟨hkept, ?_⟩)⟩
      rw [← Bool.not_eq_true]
      intro hpr
      exact absurd (hp _ hpr).2 (by simp [supersedeRow])

end Settling

/-! ## The two settlements -/

/-- What a settlement found: its subject carries the wire, its family is the wire's, and some
    record of the id it names carries the wire too. -/
structure FoundAt (s : Db) (named : Option MutationRecord) (k : SettleKey) (found : Settlement) :
    Prop where
  key_eq : k = ⟨k.id, found.wireId, found.subject⟩
  subject_mem : found.subject ∈ recordsOf s.toStores
  subject_wire : effectiveWireId found.subject = found.wireId
  named_eq : ∀ a, named = some a → found.subject = a
  rows : ∀ r ∈ found.family.outbox,
    r ∈ s.outbox ∧ effectiveWireId r.toMutationRecord = found.wireId
  copies : ∀ o ∈ found.family.optimistic,
    o ∈ s.optimistic ∧ effectiveWireId o.toMutationRecord = found.wireId
  noRecovery : found.family.recovery = []

section Settle

variable {s₀ s : Db} {k : SettleKey} {E : OutboxError → Db → Prop}

theorem mem_carriers {ν : Type} {key : ν → String} {l : List ν} {record : ν → MutationRecord}
    {wireId : String} {v : ν}
    (h : v ∈ (inKeyOrder key l).filter fun v => carriesWire wireId (record v)) :
    v ∈ l ∧ effectiveWireId (record v) = wireId :=
  (mem_selection.mp h).imp_right of_decide_eq_true

/-- The records the settlement of an id may settle when nothing is stored under the id itself. -/
theorem mem_siblings {wireId : String} {a : MutationRecord}
    (h : a ∈ ((((inKeyOrder outboxKey s.outbox).filter fun record =>
      carriesWire wireId record.toMutationRecord).map (·.toMutationRecord)) ++
        (((inKeyOrder optimisticKey s.optimistic).filter fun record =>
          carriesWire wireId record.toMutationRecord).map (·.toMutationRecord))).filter fun record =>
            decide (record.clientMutationId ≠ id)) :
    a ∈ recordsOf s.toStores ∧ effectiveWireId a = wireId := by
  rcases mem_append.mp (mem_filter.mp h).1 with h | h
  · obtain ⟨r, hr, rfl⟩ := mem_map.mp h
    exact (mem_carriers hr).imp_left row_mem_recordsOf
  · obtain ⟨o, ho, rfl⟩ := mem_map.mp h
    exact (mem_carriers ho).imp_left copy_mem_recordsOf

theorem findSettlement_wp (id : String) (named : Option MutationRecord)
    (hnamed : ∀ a, named = some a → a ∈ recordsOf s.toStores)
    {Q : Option Settlement → Db → Prop} (hnone : Q none s)
    (hsome : ∀ found, FoundAt s named ⟨id, found.wireId, found.subject⟩ found →
      Q (some found) s) : Tx.wp (findSettlement id named) s Q E := by
  unfold findSettlement resolveWireFamily
  simp only [wp_bind, wp_getAllOutbox, wp_getAllOptimistic, wp_getAllRecovery, wp_pure,
    if_true]
  cases named with
  | some a =>
    exact hsome _ ⟨rfl, hnamed a rfl, rfl, fun b hb => some.inj hb, fun _ => mem_carriers,
      fun _ => mem_carriers, rfl⟩
  | none =>
    -- whatever subject was picked, it carries the wire, which is the id itself
    have hpick : ∀ (subject : Option MutationRecord) (carriers : List MutationRecoveryRecord),
        (∀ a, subject = some a → a ∈ recordsOf s.toStores ∧ effectiveWireId a = id) →
        Q (subject.map fun subject => ⟨subject, id,
          ⟨(inKeyOrder outboxKey s.outbox).filter fun record =>
              carriesWire id record.toMutationRecord,
            (inKeyOrder optimisticKey s.optimistic).filter fun record =>
              carriesWire id record.toMutationRecord, []⟩, carriers⟩) s := by
      intro subject carriers hgood
      cases subject with
      | none => exact hnone
      | some a =>
        exact hsome _ ⟨rfl, (hgood a rfl).1, (hgood a rfl).2,
          fun b hb => absurd hb.symm (some_ne_none b), fun _ => mem_carriers,
          fun _ => mem_carriers, rfl⟩
    refine hpick _ _ fun a ha => ?_
    simp only [map_none, getD_none, orElse_eq_or,
      none_or, or_eq_some_iff, isNone_none, Bool.true_and] at ha
    rcases ha with ha | ⟨-, ha⟩
    · exact mem_siblings (mem_of_head? ha)
    · obtain ⟨c, hc, rfl⟩ := map_eq_some_iff.mp ha
      have hc := mem_of_head? hc
      split at hc
      · exact (mem_carriers (mem_filter.mp hc).1).imp_left recovery_mem_recordsOf
      · exact absurd hc not_mem_nil

/-- A step of a settlement: it makes only edits `Settling` allows, and returns a value of `P`. -/
def Settles (s₀ : Db) (k : SettleKey) {α : Type} (P : α → Prop) (x : DbTx α) : Prop :=
  ∀ s, Settling s₀ k s → Tx.wp x s (fun a s' => P a ∧ Settling s₀ k s') fun _ _ => False

section Steps

variable {α β : Type} {P : α → Prop} {R : β → Prop}

theorem Settles.pure {a : α} (ha : P a) : Settles s₀ k P (pure a) := fun _ h => ⟨ha, h⟩

theorem Settles.bind {x : DbTx α} {f : α → DbTx β} (hx : Settles s₀ k P x)
    (hf : ∀ a, Settles s₀ k R (f a)) : Settles s₀ k R (x >>= f) := by
  intro s h
  rw [wp_bind]
  exact wp_mono (hx s h) (fun a s' h' => hf a s' h'.2) fun _ _ hfalse => hfalse

theorem Settles.ite {p : Prop} [Decidable p] {x y : DbTx α} (hx : Settles s₀ k P x)
    (hy : Settles s₀ k P y) : Settles s₀ k P (if p then x else y) := by
  split
  · exact hx
  · exact hy

end Steps

theorem discardSupersededNoteRecovery_settles (a : MutationRecord) :
    Settles s₀ k (fun _ => True) (discardSupersededNoteRecovery a) := by
  intro s h
  unfold discardSupersededNoteRecovery
  split
  · rw [wp_bind, wp_getAllRecovery]
    refine wp_dropRecoverySelection h.tidy _ ⟨trivial, h.keepRecovery fun c _ _ hnote => ?_⟩
    simp [hnote]
  · exact ⟨trivial, h⟩

theorem retireOlderBlockedNoteRows_settles (a : MutationRecord) :
    Settles s₀ k (fun _ => True) (retireOlderBlockedNoteRows a) := by
  intro s h
  unfold retireOlderBlockedNoteRows
  split
  · rw [wp_bind, wp_getAllOutbox, wp_bind]
    refine wp_rewriteSelection (f := supersedeRow) h.tidy (fun _ => ⟨rfl, rfl, rfl⟩) _
      ⟨trivial, h.supersede fun r hr => ?_⟩
    simp only [Bool.and_eq_true, decide_eq_true_eq] at hr
    exact ⟨hr.1.1.1, hr.2⟩
  · exact ⟨trivial, h⟩

theorem putAccepted_settles (hstart : Tidy s₀) (hsubject : k.subject ∈ recordsOf s₀.toStores) :
    Settles s₀ k (fun _ => True) (putOptimistic (acceptedRecord k.subject)) := fun _ h =>
  wp_putOptimistic (fits_of_sameSlot (h.fits hstart hsubject) ⟨rfl, rfl, rfl⟩)
    ⟨trivial, h.putAccepted hstart hsubject⟩

theorem deleteOutbox_settles (hid : id = k.id ∨ id = k.subject.clientMutationId) :
    Settles s₀ k (fun _ => True) (deleteOutbox id) := fun _ h => ⟨trivial, h.eraseRow hid⟩

theorem deleteOptimistic_settles (hid : id = k.id ∨ id = k.subject.clientMutationId) :
    Settles s₀ k (fun _ => True) (deleteOptimistic id) := fun _ h => ⟨trivial, h.eraseCopy hid⟩

theorem deleteRecovery_settles (hid : id = k.id ∨ id = k.subject.clientMutationId) :
    Settles s₀ k (fun _ => True) (deleteRecovery id) := fun _ h => ⟨trivial, h.eraseRecovery hid⟩

theorem retireNamedRecovery_settles {record : Option MutationRecoveryRecord}
    (hrecord : ∀ c, record = some c → c.clientMutationId = k.id) :
    Settles s₀ k (fun _ => True) (retireNamedRecovery record) := by
  cases record with
  | none => exact Settles.pure trivial
  | some c =>
    exact Settles.ite (deleteRecovery_settles (Or.inl (hrecord c rfl))) (Settles.pure trivial)

theorem retireSettledFamily_settles (hstart : Tidy s₀) (hfound : FoundAt s₀ named k found) :
    Settles s₀ k (fun _ => True) (retireSettledFamily k.id found) := by
  intro s h
  have hwire : k.wireId = found.wireId := by rw [hfound.key_eq]
  have hrows : ∀ options, ∀ r ∈ s.outbox, k.Spares r.toMutationRecord →
      decide (outboxKey r ∉ (retiredRows found.family options).map outboxKey) = true := by
    intro options r hr hspared
    refine decide_eq_true fun hmem => ?_
    obtain ⟨x, hx, hkey⟩ := mem_map.mp hmem
    obtain ⟨hx, hxwire⟩ := hfound.rows x (mem_filter.mp hx).1
    obtain ⟨r₀, hr₀, heq⟩ := h.row_record hr
    have hkey' : outboxKey x = outboxKey r₀ := by
      rw [hkey]
      exact congrArg MutationRecord.clientMutationId heq.symm
    rw [hstart.outboxKeys.eq_of_key hx hr₀ hkey', heq] at hxwire
    exact hspared.wire (hxwire.trans hwire.symm)
  have hcopies : ∀ options, ∀ o ∈ s.optimistic, k.Spares o.toMutationRecord →
      decide (optimisticKey o ∉ (retiredCopies found.family options).map optimisticKey) = true := by
    intro options o ho hspared
    refine decide_eq_true fun hmem => ?_
    obtain ⟨x, hx, hkey⟩ := mem_map.mp hmem
    obtain ⟨hx, hxwire⟩ := hfound.copies x (mem_filter.mp hx).1
    rcases h.copies o ho with ho | rfl
    · rw [hstart.optimisticKeys.eq_of_key hx ho hkey] at hxwire
      exact hspared.wire (hxwire.trans hwire.symm)
    · exact hspared.subject rfl
  have hrecovery : ∀ options, ∀ c : MutationRecoveryRecord,
      decide (recoveryKey c ∉ (retiredRecoveries found.family options).map recoveryKey) = true := by
    intro options c
    simp [retiredRecoveries, hfound.noRecovery]
  refine retireWireFamily_wp fun ids => ?_
  exact ⟨trivial,
    ((h.keepRows (hrows _)).keepCopies (hcopies _)).keepRecovery fun c _ _ _ => hrecovery _ c⟩

/-- What a settlement reports and leaves: nothing was found, or its edits were made. -/
def SettledTo (s : Db) (id : String) (outcome : SettleOutcome) (s' : Db) : Prop :=
  (outcome = notSettled ∧ s' = s) ∨ ∃ k : SettleKey, k.id = id ∧
    k.subject ∈ recordsOf s.toStores ∧ effectiveWireId k.subject = k.wireId ∧
    (∀ a ∈ recordsOf s.toStores, a.clientMutationId = id →
      k.subject.clientMutationId = id) ∧
    outcome.settled = true ∧ outcome.wireId = some k.wireId ∧
    outcome.sweeps = .recoverySiblings k.wireId [id, k.subject.clientMutationId] ::
      (if k.subject.method = humanNoteMethod then
        [.canceledNotes k.subject.targetRef k.subject.intentSequence] else []) ∧
    Settling s k s'

/-- `named` is a record stored under the id, if there is one. -/
structure NamedAt (s : Db) (id : String) (named : Option MutationRecord) : Prop where
  held : ∀ a, named = some a → a ∈ recordsOf s.toStores ∧ a.clientMutationId = id
  free : named = none → KeyFree s.toStores id

theorem lookup_named (s : Db) (id : String) {a : MutationRecord}
    (h : (lookup outboxKey id s.outbox).map (·.toMutationRecord) = some a ∨
      (lookup optimisticKey id s.optimistic).map (·.toMutationRecord) = some a ∨
      (lookup recoveryKey id s.recovery).map (·.toMutationRecord) = some a) :
    a ∈ recordsOf s.toStores ∧ a.clientMutationId = id := by
  rcases h with h | h | h
  · obtain ⟨r, hr, rfl⟩ := map_eq_some_iff.mp h
    have hkey : outboxKey r = id := key_of_lookup hr
    exact ⟨row_mem_recordsOf (mem_of_lookup hr), hkey⟩
  · obtain ⟨o, ho, rfl⟩ := map_eq_some_iff.mp h
    have hkey : optimisticKey o = id := key_of_lookup ho
    exact ⟨copy_mem_recordsOf (mem_of_lookup ho), hkey⟩
  · obtain ⟨r, hr, rfl⟩ := map_eq_some_iff.mp h
    have hkey : recoveryKey r = id := key_of_lookup hr
    exact ⟨recovery_mem_recordsOf (mem_of_lookup hr), hkey⟩

/-- The report of the settlement of an id. -/
def Reports (id : String) (found : Settlement) (outcome : SettleOutcome) : Prop :=
  ∃ b swept ids, outcome = settledOutcome id b found swept ids

/-- Both settlements discard and retire notes first; steps of a settlement behind that settle. -/
theorem settledTo_of_settles (h : Tidy s) (hnamed : NamedAt s id named)
    (hfound : FoundAt s named ⟨id, found.wireId, found.subject⟩ found)
    {tail : List String → DbTx SettleOutcome}
    (htail : ∀ noteIds, Settles s ⟨id, found.wireId, found.subject⟩ (Reports id found) (tail noteIds)) :
    Tx.wp (discardSupersededNoteRecovery found.subject >>= fun _ =>
      retireOlderBlockedNoteRows found.subject >>= tail) s (SettledTo s id) (Refused s) := by
  have hsteps := (discardSupersededNoteRecovery_settles found.subject).bind fun _ =>
    (retireOlderBlockedNoteRows_settles found.subject).bind htail
  refine wp_mono (hsteps s (Settling.refl h)) ?_ fun _ _ hfalse => hfalse.elim
  rintro outcome s' ⟨⟨b, swept, ids, rfl⟩, hsettling⟩
  refine Or.inr ⟨_, rfl, hfound.subject_mem, hfound.subject_wire, fun a ha hkey => ?_, rfl, rfl,
    rfl, hsettling⟩
  cases hn : named with
  | none => exact absurd hkey (hnamed.free hn a ha)
  | some x =>
    show found.subject.clientMutationId = id
    rw [hfound.named_eq x hn]
    exact (hnamed.held x hn).2

/-- The sweep and the report both settlements end with. -/
theorem settles_end (h : Tidy s) (hfound : FoundAt s named ⟨id, found.wireId, found.subject⟩ found)
    (b : Bool) (noteIds : List String) :
    Settles s ⟨id, found.wireId, found.subject⟩ (Reports id found) (do
      let swept ← retireSettledFamily id found
      return settledOutcome id b found swept noteIds) :=
  (retireSettledFamily_settles h hfound).bind fun swept => Settles.pure ⟨b, swept, noteIds, rfl⟩

theorem lookup_recovery_key (k : SettleKey) (hk : k.id = id) :
    ∀ c, lookup recoveryKey id s.recovery = some c → c.clientMutationId = k.id := by
  intro c hc
  have hkey : recoveryKey c = id := key_of_lookup hc
  rw [hk]
  exact hkey

theorem settleAppliedResult_spec (h : Tidy s) (id : String) :
    Tx.wp (settleAppliedResult id) s (SettledTo s id) (Refused s) := by
  unfold settleAppliedResult
  simp only [wp_bind, wp_getOutbox, wp_getOptimistic, wp_getRecovery]
  generalize hn : ((((lookup outboxKey id s.outbox).map (·.toMutationRecord)).orElse fun _ =>
    (lookup optimisticKey id s.optimistic).map (·.toMutationRecord)).orElse fun _ =>
      (lookup recoveryKey id s.recovery).map (·.toMutationRecord)) = named
  have hnamed : NamedAt s id named := by
    subst hn
    refine ⟨fun a ha => lookup_named s id ?_, fun hnone => ?_⟩
    · simp only [orElse_eq_or, or_eq_some_iff] at ha
      tauto
    · simp only [orElse_eq_or, or_eq_none_iff, map_eq_none_iff] at hnone
      exact keyFree_of_lookup hnone.1.1 hnone.1.2 hnone.2
  refine findSettlement_wp id named (fun a ha => (hnamed.held a ha).1) (Or.inl ⟨rfl, rfl⟩)
    fun found hfound => ?_
  refine settledTo_of_settles h hnamed hfound fun noteIds => ?_
  have hend := settles_end h hfound named.isSome noteIds
  refine Settles.ite ?_ (Settles.ite ?_ ?_)
  · refine (deleteOutbox_settles (Or.inl rfl)).bind fun _ => ?_
    refine (deleteOptimistic_settles (Or.inl rfl)).bind fun _ => ?_
    exact (retireNamedRecovery_settles (lookup_recovery_key _ rfl)).bind fun _ => hend
  · exact (deleteRecovery_settles (Or.inr rfl)).bind fun _ => hend
  · refine (deleteOutbox_settles (Or.inr rfl)).bind fun _ => ?_
    exact (deleteOptimistic_settles (Or.inr rfl)).bind fun _ => hend

theorem settleReceiptResult_spec (h : Tidy s) (id projectionState : String) :
    Tx.wp (settleReceiptResult id projectionState) s (SettledTo s id) (Refused s) := by
  unfold settleReceiptResult
  simp only [wp_bind, wp_getOutbox, wp_getOptimistic, wp_getRecovery]
  generalize hn : ((((lookup outboxKey id s.outbox).map (·.toMutationRecord)).orElse fun _ =>
    (lookup recoveryKey id s.recovery).map (·.toMutationRecord)).orElse fun _ =>
      (lookup optimisticKey id s.optimistic).map (·.toMutationRecord)) = named
  have hnamed : NamedAt s id named := by
    subst hn
    refine ⟨fun a ha => lookup_named s id ?_, fun hnone => ?_⟩
    · simp only [orElse_eq_or, or_eq_some_iff] at ha
      tauto
    · simp only [orElse_eq_or, or_eq_none_iff, map_eq_none_iff] at hnone
      exact keyFree_of_lookup hnone.1.1 hnone.2 hnone.1.2
  refine findSettlement_wp id named (fun a ha => (hnamed.held a ha).1) (Or.inl ⟨rfl, rfl⟩)
    fun found hfound => ?_
  refine settledTo_of_settles h hnamed hfound fun noteIds => ?_
  have hend := settles_end h hfound named.isSome noteIds
  have hdelete : Settles s ⟨id, found.wireId, found.subject⟩ (Reports id found)
      (if named.isSome = true then do
        deleteOutbox id
        retireNamedRecovery (lookup recoveryKey id s.recovery)
        let swept ← retireSettledFamily id found
        return settledOutcome id named.isSome found swept noteIds
      else if (!found.wireCarriers.isEmpty) = true then do
        deleteRecovery found.subject.clientMutationId
        let swept ← retireSettledFamily id found
        return settledOutcome id named.isSome found swept noteIds
      else do
        deleteOutbox found.subject.clientMutationId
        if (!retainsAcceptedCopy found.subject projectionState) = true then
          deleteOptimistic found.subject.clientMutationId
        let swept ← retireSettledFamily id found
        return settledOutcome id named.isSome found swept noteIds) := by
    refine Settles.ite ?_ (Settles.ite ?_ ?_)
    · refine (deleteOutbox_settles (Or.inl rfl)).bind fun _ => ?_
      exact (retireNamedRecovery_settles (lookup_recovery_key _ rfl)).bind fun _ => hend
    · exact (deleteRecovery_settles (Or.inr rfl)).bind fun _ => hend
    · refine (deleteOutbox_settles (Or.inr rfl)).bind fun _ => ?_
      exact Settles.ite ((deleteOptimistic_settles (Or.inr rfl)).bind fun _ => hend) hend
  refine Settles.ite ?_ (Settles.ite ?_ hdelete)
  · exact (putAccepted_settles h hfound.subject_mem).bind fun _ => hdelete
  · exact (deleteOptimistic_settles (Or.inl rfl)).bind fun _ => hdelete

/-! ## The sweeps a settlement leaves -/

/-- The notes a later settled note discards once they are canceled. -/
def outdatedNote (targetRef : String) (intentSequence : Nat) (r : MutationOutboxRecord) : Bool :=
  r.method = humanNoteMethod && r.targetRef = targetRef && r.state = .canceled &&
    r.intentSequence < intentSequence

theorem runSweep_spec (h : Tidy s) (sweep : Sweep) :
    Tx.wp (runSweep sweep) s (fun _ s' => s' = match sweep with
      | .recoverySiblings wireId exclude => dropRecovery (sweptRecovery wireId exclude) s
      | .canceledNotes targetRef intentSequence =>
        dropRows (outdatedNote targetRef intentSequence) s) (Refused s) := by
  cases sweep with
  | recoverySiblings wireId exclude =>
    show Tx.wp (resolveWireFamily wireId false false true >>= fun family =>
      retireWireFamily family ⟨exclude, false, true, false⟩) s _ _
    unfold resolveWireFamily
    simp only [wp_bind, wp_getAllOutbox, wp_getAllOptimistic, wp_getAllRecovery, wp_pure]
    refine retireWireFamily_wp fun ids => ?_
    rw [filter_key_not_mem h.recoveryKeys (p := sweptRecovery wireId exclude) fun c => by
      simp [retiredRecoveries, sweptRecovery, mem_inKeyOrder, and_assoc, and_comm, and_left_comm]]
    simp [retiredRows, retiredCopies, dropRecovery]
  | canceledNotes targetRef intentSequence => exact discardRows_spec h _

end Settle

end Evener.Outbox
