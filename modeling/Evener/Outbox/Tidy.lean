/-
  Tidy databases: what every transaction of the outbox relies on, and what it needs of no id
  beyond that it is not active.

  In a tidy database the unique index refuses no write the outbox makes.
-/
import Evener.Outbox.Run

namespace Evener.Outbox

open Evener.Lib JsValue List

/-- The records of the three record stores. -/
def recordsOf (s : Stores) : List MutationRecord :=
  s.outbox.map (·.toMutationRecord) ++ s.optimistic.map (·.toMutationRecord) ++
    s.recovery.map (·.toMutationRecord)

structure Tidy (s : Db) : Prop where
  outboxKeys : KeysNodup outboxKey s.outbox
  optimisticKeys : KeysNodup optimisticKey s.optimistic
  recoveryKeys : KeysNodup recoveryKey s.recovery
  disjoint : ∀ r ∈ s.outbox, ∀ c ∈ s.recovery, r.clientMutationId ≠ c.clientMutationId
  slots : ∀ a ∈ recordsOf s.toStores, ∀ b ∈ recordsOf s.toStores, a.targetRef = b.targetRef →
    a.intentSequence = b.intentSequence → a.clientMutationId = b.clientMutationId
  bounded : ∀ a ∈ recordsOf s.toStores,
    a.intentSequence ≤ lastSequenceOf s.sequences a.targetRef

/-- Two records of one key in one slot. -/
structure SameSlot (a b : MutationRecord) : Prop where
  key : a.clientMutationId = b.clientMutationId
  ref : a.targetRef = b.targetRef
  sequence : a.intentSequence = b.intentSequence

theorem SameSlot.refl (a : MutationRecord) : SameSlot a a := ⟨rfl, rfl, rfl⟩

/-- No record of the three stores has the key. -/
def KeyFree (s : Stores) (id : String) : Prop := ∀ a ∈ recordsOf s, a.clientMutationId ≠ id

theorem tidy_empty : Tidy {} :=
  ⟨keysNodup_nil, keysNodup_nil, keysNodup_nil, by simp, by simp [recordsOf], by simp [recordsOf]⟩

variable {a : MutationRecord} {r : MutationOutboxRecord} {c : MutationRecoveryRecord}

section Records

variable {s : Stores}

theorem mem_recordsOf :
    a ∈ recordsOf s ↔ (∃ r ∈ s.outbox, r.toMutationRecord = a) ∨
      (∃ o ∈ s.optimistic, o.toMutationRecord = a) ∨
      (∃ c ∈ s.recovery, c.toMutationRecord = a) := by
  simp [recordsOf]

theorem row_mem_recordsOf (h : r ∈ s.outbox) : r.toMutationRecord ∈ recordsOf s :=
  (mem_recordsOf).mpr (Or.inl ⟨r, h, rfl⟩)

theorem copy_mem_recordsOf {o : MutationOptimisticRecord} (h : o ∈ s.optimistic) :
    o.toMutationRecord ∈ recordsOf s :=
  (mem_recordsOf).mpr (Or.inr (Or.inl ⟨o, h, rfl⟩))

theorem recovery_mem_recordsOf (h : c ∈ s.recovery) : c.toMutationRecord ∈ recordsOf s :=
  (mem_recordsOf).mpr (Or.inr (Or.inr ⟨c, h, rfl⟩))

end Records

/-! ## Sequence rows -/

section Sequences

variable (sequences : List TargetSequence) (ref other : String)

theorem lastSequenceOf_withLastSequence (n : Nat) :
    lastSequenceOf (withLastSequence ref n sequences) other =
      if ref = other then n else lastSequenceOf sequences other := by
  unfold lastSequenceOf withLastSequence sequenceOf
  rw [lookup_put]
  split <;> rfl

theorem epochOf_withLastSequence (n : Nat) :
    epochOf (withLastSequence ref n sequences) other = epochOf sequences other := by
  unfold epochOf withLastSequence sequenceOf
  rw [lookup_put]
  split
  · next h =>
    subst h
    rfl
  · rfl

theorem lastSequenceOf_withStopBump :
    lastSequenceOf (withStopBump ref sequences) other = lastSequenceOf sequences other := by
  unfold withStopBump
  rw [lastSequenceOf, sequenceOf, lookup_put]
  split
  · next h =>
    subst h
    rfl
  · rfl

theorem epochOf_withStopBump :
    epochOf (withStopBump ref sequences) other =
      if ref = other then epochOf sequences other + 1 else epochOf sequences other := by
  unfold withStopBump
  rw [epochOf, sequenceOf, lookup_put]
  split
  · next h =>
    subst h
    rfl
  · rfl

end Sequences

/-! ## Writes that keep a database tidy -/

section Tidy

variable {s : Db}

/-- Records that only take slots already held keep a database tidy. -/
theorem Tidy.of_slots {s' : Db} (h : Tidy s) (hout : KeysNodup outboxKey s'.outbox)
    (hopt : KeysNodup optimisticKey s'.optimistic) (hrec : KeysNodup recoveryKey s'.recovery)
    (hdisj : ∀ r ∈ s'.outbox, ∀ c ∈ s'.recovery, r.clientMutationId ≠ c.clientMutationId)
    (hslots : ∀ a ∈ recordsOf s'.toStores, ∃ b ∈ recordsOf s.toStores, SameSlot a b)
    (hseq : ∀ ref, lastSequenceOf s.sequences ref ≤ lastSequenceOf s'.sequences ref) :
    Tidy s' := by
  refine ⟨hout, hopt, hrec, hdisj, ?_, ?_⟩
  · intro a ha b hb href hsequence
    obtain ⟨a', ha', hslot⟩ := hslots a ha
    obtain ⟨b', hb', hslot'⟩ := hslots b hb
    rw [hslot.key, hslot'.key]
    exact h.slots a' ha' b' hb' (by rw [← hslot.ref, ← hslot'.ref, href])
      (by rw [← hslot.sequence, ← hslot'.sequence, hsequence])
  · intro a ha
    obtain ⟨b, hb, hslot⟩ := hslots a ha
    rw [hslot.sequence, hslot.ref]
    exact le_trans (h.bounded b hb) (hseq _)

/-- Dropping records from the stores keeps a database tidy. -/
theorem Tidy.drop (h : Tidy s) {outbox : List MutationOutboxRecord}
    {optimistic : List MutationOptimisticRecord} {recovery : List MutationRecoveryRecord}
    (hout : outbox.Sublist s.outbox) (hopt : optimistic.Sublist s.optimistic)
    (hrec : recovery.Sublist s.recovery) :
    Tidy { s with outbox := outbox, optimistic := optimistic, recovery := recovery } := by
  refine h.of_slots (h.outboxKeys.sublist hout) (h.optimisticKeys.sublist hopt)
    (h.recoveryKeys.sublist hrec)
    (fun r hr c hc => h.disjoint r (hout.subset hr) c (hrec.subset hc)) ?_ fun _ => le_rfl
  intro a ha
  refine ⟨a, ?_, SameSlot.refl a⟩
  rcases mem_recordsOf.mp ha with ⟨r, hr, rfl⟩ | ⟨o, ho, rfl⟩ | ⟨c, hc, rfl⟩
  · exact row_mem_recordsOf (hout.subset hr)
  · exact copy_mem_recordsOf (hopt.subset ho)
  · exact recovery_mem_recordsOf (hrec.subset hc)

theorem Tidy.filterOutbox (h : Tidy s) (p : MutationOutboxRecord → Bool) :
    Tidy { s with outbox := s.outbox.filter p } :=
  h.drop filter_sublist (List.Sublist.refl _) (List.Sublist.refl _)

theorem Tidy.filterRecovery (h : Tidy s) (p : MutationRecoveryRecord → Bool) :
    Tidy { s with recovery := s.recovery.filter p } :=
  h.drop (List.Sublist.refl _) (List.Sublist.refl _) filter_sublist

theorem Tidy.filterOptimistic (h : Tidy s) (p : MutationOptimisticRecord → Bool) :
    Tidy { s with optimistic := s.optimistic.filter p } :=
  h.drop (List.Sublist.refl _) filter_sublist (List.Sublist.refl _)

/-- Rewriting rows in their slots keeps a database tidy. -/
theorem Tidy.mapOutbox (h : Tidy s) {f : MutationOutboxRecord → MutationOutboxRecord}
    (hf : ∀ r, SameSlot (f r).toMutationRecord r.toMutationRecord) :
    Tidy { s with outbox := s.outbox.map f } := by
  have hkeys : (s.outbox.map f).map outboxKey = s.outbox.map outboxKey := by
    rw [map_map]
    exact map_congr_left fun r _ => (hf r).key
  refine h.of_slots ?_ h.optimisticKeys h.recoveryKeys ?_ ?_ fun _ => le_rfl
  · unfold KeysNodup
    rw [hkeys]
    exact h.outboxKeys
  · intro r hr c hc
    obtain ⟨r', hr', rfl⟩ := mem_map.mp hr
    rw [(hf r').key]
    exact h.disjoint r' hr' c hc
  · intro a ha
    rcases mem_recordsOf.mp ha with ⟨r, hr, rfl⟩ | ⟨o, ho, rfl⟩ | ⟨c, hc, rfl⟩
    · obtain ⟨r', hr', rfl⟩ := mem_map.mp hr
      exact ⟨_, row_mem_recordsOf hr', hf r'⟩
    · exact ⟨_, copy_mem_recordsOf ho, SameSlot.refl _⟩
    · exact ⟨_, recovery_mem_recordsOf hc, SameSlot.refl _⟩

theorem Tidy.sequences (h : Tidy s) {sequences : List TargetSequence}
    (hseq : ∀ ref, lastSequenceOf s.sequences ref ≤ lastSequenceOf sequences ref) :
    Tidy { s with sequences := sequences } :=
  h.of_slots h.outboxKeys h.optimisticKeys h.recoveryKeys h.disjoint
    (fun a ha => ⟨a, ha, SameSlot.refl a⟩) hseq

theorem Tidy.withDrawn (h : Tidy s) (n : Nat) : Tidy { s with drawn := n } :=
  ⟨h.outboxKeys, h.optimisticKeys, h.recoveryKeys, h.disjoint, h.slots, h.bounded⟩

theorem Tidy.stopBump (h : Tidy s) (ref : String) :
    Tidy { s with sequences := withStopBump ref s.sequences } :=
  h.sequences fun other => by rw [lastSequenceOf_withStopBump]

/-- A row written over the row of its key, in the same slot. -/
theorem Tidy.putOutbox (h : Tidy s) {r' : MutationOutboxRecord} (hr : r ∈ s.outbox)
    (hslot : SameSlot r'.toMutationRecord r.toMutationRecord) :
    Tidy { s with outbox := put outboxKey r' s.outbox } := by
  refine h.of_slots (keysNodup_put h.outboxKeys r') h.optimisticKeys h.recoveryKeys ?_ ?_
    fun _ => le_rfl
  · intro x hx c hc
    rcases (mem_put h.outboxKeys).mp hx with rfl | ⟨hx, -⟩
    · rw [hslot.key]
      exact h.disjoint r hr c hc
    · exact h.disjoint x hx c hc
  · intro a ha
    rcases mem_recordsOf.mp ha with ⟨x, hx, rfl⟩ | ⟨o, ho, rfl⟩ | ⟨c, hc, rfl⟩
    · rcases (mem_put h.outboxKeys).mp hx with rfl | ⟨hx, -⟩
      · exact ⟨_, row_mem_recordsOf hr, hslot⟩
      · exact ⟨_, row_mem_recordsOf hx, SameSlot.refl _⟩
    · exact ⟨_, copy_mem_recordsOf ho, SameSlot.refl _⟩
    · exact ⟨_, recovery_mem_recordsOf hc, SameSlot.refl _⟩

theorem Tidy.putRecovery (h : Tidy s) (c' : MutationRecoveryRecord) (hc : c ∈ s.recovery)
    (hslot : SameSlot c'.toMutationRecord c.toMutationRecord) :
    Tidy { s with recovery := put recoveryKey c' s.recovery } := by
  refine h.of_slots h.outboxKeys h.optimisticKeys (keysNodup_put h.recoveryKeys c') ?_ ?_
    fun _ => le_rfl
  · intro r hr x hx
    rcases (mem_put h.recoveryKeys).mp hx with rfl | ⟨hx, -⟩
    · rw [hslot.key]
      exact h.disjoint r hr c hc
    · exact h.disjoint r hr x hx
  · intro a ha
    rcases mem_recordsOf.mp ha with ⟨r, hr, rfl⟩ | ⟨o, ho, rfl⟩ | ⟨x, hx, rfl⟩
    · exact ⟨_, row_mem_recordsOf hr, SameSlot.refl _⟩
    · exact ⟨_, copy_mem_recordsOf ho, SameSlot.refl _⟩
    · rcases (mem_put h.recoveryKeys).mp hx with rfl | ⟨hx, -⟩
      · exact ⟨_, recovery_mem_recordsOf hc, hslot⟩
      · exact ⟨_, recovery_mem_recordsOf hx, SameSlot.refl _⟩

/-- A row that leaves the outbox for recovery, under its key and in its slot. -/
theorem Tidy.transfer (h : Tidy s) (hr : r ∈ s.outbox)
    (hslot : SameSlot c.toMutationRecord r.toMutationRecord) :
    Tidy { s with
      outbox := erase outboxKey r.clientMutationId s.outbox
      recovery := put recoveryKey c s.recovery } := by
  refine h.of_slots (keysNodup_erase h.outboxKeys _) h.optimisticKeys
    (keysNodup_put h.recoveryKeys c) ?_ ?_ fun _ => le_rfl
  · intro x hx y hy
    obtain ⟨hx, hkey⟩ := mem_erase.mp hx
    rcases (mem_put h.recoveryKeys).mp hy with rfl | ⟨hy, -⟩
    · rw [hslot.key]
      exact hkey
    · exact h.disjoint x hx y hy
  · intro a ha
    rcases mem_recordsOf.mp ha with ⟨x, hx, rfl⟩ | ⟨o, ho, rfl⟩ | ⟨y, hy, rfl⟩
    · exact ⟨_, row_mem_recordsOf (mem_erase.mp hx).1, SameSlot.refl _⟩
    · exact ⟨_, copy_mem_recordsOf ho, SameSlot.refl _⟩
    · rcases (mem_put h.recoveryKeys).mp hy with rfl | ⟨hy, -⟩
      · exact ⟨_, row_mem_recordsOf hr, hslot⟩
      · exact ⟨_, recovery_mem_recordsOf hy, SameSlot.refl _⟩

/-- A record that takes a slot of its own key: nothing else holds it. -/
def Fits (s : Db) (a : MutationRecord) : Prop :=
  (∀ b ∈ recordsOf s.toStores, b.targetRef = a.targetRef → b.intentSequence = a.intentSequence →
    b.clientMutationId = a.clientMutationId) ∧
    a.intentSequence ≤ lastSequenceOf s.sequences a.targetRef

theorem Tidy.fits (h : Tidy s) (ha : a ∈ recordsOf s.toStores) : Fits s a :=
  ⟨fun b hb href hseq => h.slots b hb a ha href hseq, h.bounded a ha⟩

/-- An accepted copy beside the record it copies. -/
theorem Tidy.putOptimistic (h : Tidy s) {o : MutationOptimisticRecord}
    (hfits : Fits s o.toMutationRecord) :
    Tidy { s with optimistic := put optimisticKey o s.optimistic } := by
  have hmem : ∀ a ∈ recordsOf (Db.toStores { s with
      optimistic := put optimisticKey o s.optimistic }),
      a = o.toMutationRecord ∨ a ∈ recordsOf s.toStores := by
    intro a ha
    rcases mem_recordsOf.mp ha with ⟨r, hr, rfl⟩ | ⟨x, hx, rfl⟩ | ⟨c, hc, rfl⟩
    · exact Or.inr (row_mem_recordsOf hr)
    · rcases mem_of_mem_put hx with rfl | hx
      · exact Or.inl rfl
      · exact Or.inr (copy_mem_recordsOf hx)
    · exact Or.inr (recovery_mem_recordsOf hc)
  refine ⟨h.outboxKeys, keysNodup_put h.optimisticKeys o, h.recoveryKeys, h.disjoint, ?_, ?_⟩
  · intro a ha b hb href hseq
    rcases hmem a ha with rfl | ha <;> rcases hmem b hb with rfl | hb
    · rfl
    · exact (hfits.1 b hb href.symm hseq.symm).symm
    · exact hfits.1 a ha href hseq
    · exact h.slots a ha b hb href hseq
  · intro a ha
    rcases hmem a ha with rfl | ha
    · exact hfits.2
    · exact h.bounded a ha

/-! ## Insertions -/

/-- The database with a new row at the tail of its ref's queue. -/
def insertRow (s : Db) (row : MutationOutboxRecord) : Db :=
  { s with
    outbox := s.outbox ++ [row]
    sequences := withLastSequence row.targetRef row.intentSequence s.sequences
    drawn := s.drawn + 1 }

/-- The database with a new recovery row at the tail of its ref's sequence. -/
def insertRecovery (s : Db) (record : MutationRecoveryRecord) : Db :=
  { s with
    recovery := s.recovery ++ [record]
    sequences := withLastSequence record.targetRef record.intentSequence s.sequences
    drawn := s.drawn + 1 }

/-- The key is active nowhere, and the slot is the next one of its ref. -/
structure NewSlot (s : Db) (a : MutationRecord) : Prop where
  free : KeyFree s.toStores a.clientMutationId
  next : a.intentSequence = lastSequenceOf s.sequences a.targetRef + 1

theorem lastSequence_le_insert (h : NewSlot s a) (ref : String) :
    lastSequenceOf s.sequences ref ≤
      lastSequenceOf (withLastSequence a.targetRef a.intentSequence s.sequences) ref := by
  rw [lastSequenceOf_withLastSequence]
  split
  · next href =>
    subst href
    rw [h.next]
    omega
  · exact le_rfl

/-- One record more than a tidy database holds, in a new slot, keeps slots and bounds. -/
theorem Tidy.slots_insert (h : Tidy s) {new : MutationRecord} (hnew : NewSlot s new)
    {b : MutationRecord} (ha : a = new ∨ a ∈ recordsOf s.toStores)
    (hb : b = new ∨ b ∈ recordsOf s.toStores) (href : a.targetRef = b.targetRef)
    (hseq : a.intentSequence = b.intentSequence) : a.clientMutationId = b.clientMutationId := by
  have hlt : ∀ x ∈ recordsOf s.toStores, x.targetRef = new.targetRef →
      x.intentSequence < new.intentSequence := by
    intro x hx hxref
    have hx' := h.bounded x hx
    rw [hxref] at hx'
    rw [hnew.next]
    omega
  rcases ha with rfl | ha <;> rcases hb with rfl | hb
  · rfl
  · have := hlt b hb href.symm
    omega
  · have := hlt a ha href
    omega
  · exact h.slots a ha b hb href hseq

theorem Tidy.bounded_insert (h : Tidy s) {new : MutationRecord} (hnew : NewSlot s new)
    (ha : a = new ∨ a ∈ recordsOf s.toStores) :
    a.intentSequence ≤ lastSequenceOf
      (withLastSequence new.targetRef new.intentSequence s.sequences) a.targetRef := by
  rcases ha with rfl | ha
  · rw [lastSequenceOf_withLastSequence, if_pos rfl]
  · exact le_trans (h.bounded a ha) (lastSequence_le_insert hnew _)

theorem Tidy.insertRow (h : Tidy s) {row : MutationOutboxRecord}
    (hnew : NewSlot s row.toMutationRecord) : Tidy (insertRow s row) := by
  have hmem : ∀ a ∈ recordsOf (Outbox.insertRow s row).toStores,
      a = row.toMutationRecord ∨ a ∈ recordsOf s.toStores := by
    intro a ha
    rcases mem_recordsOf.mp ha with ⟨r, hr, rfl⟩ | ⟨o, ho, rfl⟩ | ⟨c, hc, rfl⟩
    · rcases mem_append.mp hr with hr | hr
      · exact Or.inr (row_mem_recordsOf hr)
      · exact Or.inl (by rw [mem_singleton.mp hr])
    · exact Or.inr (copy_mem_recordsOf ho)
    · exact Or.inr (recovery_mem_recordsOf hc)
  refine ⟨?_, h.optimisticKeys, h.recoveryKeys, ?_,
    fun a ha b hb => h.slots_insert hnew (hmem a ha) (hmem b hb),
    fun a ha => h.bounded_insert hnew (hmem a ha)⟩
  · have hne : ∀ r ∈ s.outbox, outboxKey r ≠ outboxKey row :=
      fun r hr => hnew.free _ (row_mem_recordsOf hr)
    have hput := keysNodup_put h.outboxKeys row
    rwa [put_eq_append hne] at hput
  · intro r hr c hc
    rcases mem_append.mp hr with hr | hr
    · exact h.disjoint r hr c hc
    · rw [mem_singleton.mp hr]
      exact (hnew.free _ (recovery_mem_recordsOf hc)).symm

theorem Tidy.insertRecovery (h : Tidy s) {record : MutationRecoveryRecord}
    (hnew : NewSlot s record.toMutationRecord) : Tidy (insertRecovery s record) := by
  have hmem : ∀ a ∈ recordsOf (Outbox.insertRecovery s record).toStores,
      a = record.toMutationRecord ∨ a ∈ recordsOf s.toStores := by
    intro a ha
    rcases mem_recordsOf.mp ha with ⟨r, hr, rfl⟩ | ⟨o, ho, rfl⟩ | ⟨c, hc, rfl⟩
    · exact Or.inr (row_mem_recordsOf hr)
    · exact Or.inr (copy_mem_recordsOf ho)
    · rcases mem_append.mp hc with hc | hc
      · exact Or.inr (recovery_mem_recordsOf hc)
      · exact Or.inl (by rw [mem_singleton.mp hc])
  refine ⟨h.outboxKeys, h.optimisticKeys, ?_, ?_,
    fun a ha b hb => h.slots_insert hnew (hmem a ha) (hmem b hb),
    fun a ha => h.bounded_insert hnew (hmem a ha)⟩
  · have hne : ∀ c ∈ s.recovery, recoveryKey c ≠ recoveryKey record :=
      fun c hc => hnew.free _ (recovery_mem_recordsOf hc)
    have hput := keysNodup_put h.recoveryKeys record
    rwa [put_eq_append hne] at hput
  · intro r hr c hc
    rcases mem_append.mp hc with hc | hc
    · exact h.disjoint r hr c hc
    · rw [mem_singleton.mp hc]
      exact hnew.free _ (row_mem_recordsOf hr)

end Tidy

end Evener.Outbox
