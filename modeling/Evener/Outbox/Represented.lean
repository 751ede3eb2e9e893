/-
  What the stores of the outbox hold about one wire id (`Rep`), and the edits that keep it.
-/
import Evener.Outbox.Attempts

namespace Evener.Outbox

open Evener.Lib JsValue List

/-- The records that stand for work still to do: rows and recovery rows. -/
def workOf (s : Stores) : List MutationRecord :=
  s.outbox.map (·.toMutationRecord) ++ s.recovery.map (·.toMutationRecord)

variable {a : MutationRecord} {r row source : MutationOutboxRecord} {c : MutationRecoveryRecord}
  {request : ResendRequest}

theorem mem_workOf {s : Stores} :
    a ∈ workOf s ↔ (∃ r ∈ s.outbox, r.toMutationRecord = a) ∨
      (∃ c ∈ s.recovery, c.toMutationRecord = a) := by
  simp [workOf]

/-- One key, one wire and one method. -/
structure SameWork (a b : MutationRecord) : Prop where
  key : a.clientMutationId = b.clientMutationId
  wire : effectiveWireId a = effectiveWireId b
  method : a.method = b.method

theorem SameWork.refl (a : MutationRecord) : SameWork a a := ⟨rfl, rfl, rfl⟩

theorem SameWork.of_eq {b : MutationRecord} (h : a = b) : SameWork a b := by
  subst h
  exact SameWork.refl a

theorem SameWork.trans {b c : MutationRecord} (h : SameWork a b) (h' : SameWork b c) :
    SameWork a c := ⟨h.key.trans h'.key, h.wire.trans h'.wire, h.method.trans h'.method⟩

structure Rep (supply : Nat → String) (s : Db) : Prop where
  /-- Wires are ids handed out before. -/
  wires : ∀ a ∈ workOf s.toStores, Drawn supply s (effectiveWireId a)
  methods : ∀ a ∈ workOf s.toStores, ∀ b ∈ workOf s.toStores,
    effectiveWireId a = effectiveWireId b → a.method = b.method
  keyWires : ∀ a ∈ recordsOf s.toStores, ∀ b ∈ recordsOf s.toStores,
    a.clientMutationId = b.clientMutationId → effectiveWireId a = effectiveWireId b
  live : ∀ r₁ ∈ s.outbox, ∀ r₂ ∈ s.outbox, r₁.state ≠ .superseded → r₂.state ≠ .superseded →
    effectiveWireId r₁.toMutationRecord = effectiveWireId r₂.toMutationRecord →
    r₁.clientMutationId = r₂.clientMutationId
  superseded : ∀ r₁ ∈ s.outbox, ∀ r₂ ∈ s.outbox, r₁.method ≠ humanNoteMethod →
    r₁.state = .superseded → r₂.state = .superseded →
    effectiveWireId r₁.toMutationRecord = effectiveWireId r₂.toMutationRecord →
    r₁.clientMutationId = r₂.clientMutationId
  recoveries : ∀ c₁ ∈ s.recovery, ∀ c₂ ∈ s.recovery, c₁.method ≠ humanNoteMethod →
    effectiveWireId c₁.toMutationRecord = effectiveWireId c₂.toMutationRecord →
    c₁.clientMutationId = c₂.clientMutationId

/-! ## Stores that only lose work -/

/-- Every record of `s'` is one of `s` under its key, wire and method, and only notes become
    superseded. -/
structure Shrinks (s s' : Db) : Prop where
  rows : ∀ r' ∈ s'.outbox, ∃ r ∈ s.outbox, SameWork r'.toMutationRecord r.toMutationRecord ∧
    (r'.state ≠ .superseded → r.state ≠ .superseded) ∧
    (r'.state = .superseded → r.method ≠ humanNoteMethod → r.state = .superseded)
  copies : ∀ o' ∈ s'.optimistic, ∃ a ∈ recordsOf s.toStores, SameWork o'.toMutationRecord a
  recovery : ∀ c' ∈ s'.recovery, ∃ c ∈ s.recovery,
    SameWork c'.toMutationRecord c.toMutationRecord
  drawn : s.drawn ≤ s'.drawn

section Shrinks

variable {supply : Nat → String} {s s' : Db}

theorem Shrinks.work (h : Shrinks s s') (ha : a ∈ workOf s'.toStores) :
    ∃ b ∈ workOf s.toStores, SameWork a b := by
  rcases (mem_workOf).mp ha with ⟨r, hr, rfl⟩ | ⟨c, hc, rfl⟩
  · obtain ⟨r₀, hr₀, hsame, -⟩ := h.rows r hr
    exact ⟨_, (mem_workOf).mpr (Or.inl ⟨r₀, hr₀, rfl⟩), hsame⟩
  · obtain ⟨c₀, hc₀, hsame⟩ := h.recovery c hc
    exact ⟨_, (mem_workOf).mpr (Or.inr ⟨c₀, hc₀, rfl⟩), hsame⟩

theorem Shrinks.records (h : Shrinks s s') (ha : a ∈ recordsOf s'.toStores) :
    ∃ b ∈ recordsOf s.toStores, SameWork a b := by
  rcases mem_recordsOf.mp ha with ⟨r, hr, rfl⟩ | ⟨o, ho, rfl⟩ | ⟨c, hc, rfl⟩
  · obtain ⟨r₀, hr₀, hsame, -⟩ := h.rows r hr
    exact ⟨_, row_mem_recordsOf hr₀, hsame⟩
  · exact h.copies o ho
  · obtain ⟨c₀, hc₀, hsame⟩ := h.recovery c hc
    exact ⟨_, recovery_mem_recordsOf hc₀, hsame⟩

/-- Three fields only look at keys, wires and methods. -/
theorem Rep.of_maps (h : Rep supply s)
    (hwork : ∀ a ∈ workOf s'.toStores, ∃ b ∈ workOf s.toStores, SameWork a b)
    (hrecords : ∀ a ∈ recordsOf s'.toStores, ∃ b ∈ recordsOf s.toStores, SameWork a b)
    (hdrawn : s.drawn ≤ s'.drawn)
    (hlive : ∀ r₁ ∈ s'.outbox, ∀ r₂ ∈ s'.outbox, r₁.state ≠ .superseded →
      r₂.state ≠ .superseded →
      effectiveWireId r₁.toMutationRecord = effectiveWireId r₂.toMutationRecord →
      r₁.clientMutationId = r₂.clientMutationId)
    (hsuperseded : ∀ r₁ ∈ s'.outbox, ∀ r₂ ∈ s'.outbox, r₁.method ≠ humanNoteMethod →
      r₁.state = .superseded → r₂.state = .superseded →
      effectiveWireId r₁.toMutationRecord = effectiveWireId r₂.toMutationRecord →
      r₁.clientMutationId = r₂.clientMutationId)
    (hrecoveries : ∀ c₁ ∈ s'.recovery, ∀ c₂ ∈ s'.recovery, c₁.method ≠ humanNoteMethod →
      effectiveWireId c₁.toMutationRecord = effectiveWireId c₂.toMutationRecord →
      c₁.clientMutationId = c₂.clientMutationId) : Rep supply s' := by
  refine ⟨?_, ?_, ?_, hlive, hsuperseded, hrecoveries⟩
  · intro a ha
    obtain ⟨b, hb, hsame⟩ := hwork a ha
    rw [hsame.wire]
    exact (h.wires b hb).mono hdrawn
  · intro a ha b hb hwire
    obtain ⟨a₀, ha₀, hsame⟩ := hwork a ha
    obtain ⟨b₀, hb₀, hsame'⟩ := hwork b hb
    rw [hsame.method, hsame'.method]
    exact h.methods a₀ ha₀ b₀ hb₀ (by rw [← hsame.wire, ← hsame'.wire, hwire])
  · intro a ha b hb hkey
    obtain ⟨a₀, ha₀, hsame⟩ := hrecords a ha
    obtain ⟨b₀, hb₀, hsame'⟩ := hrecords b hb
    rw [hsame.wire, hsame'.wire]
    exact h.keyWires a₀ ha₀ b₀ hb₀ (by rw [← hsame.key, ← hsame'.key, hkey])

/-- Rows of one wire have one method. -/
theorem Rep.row_methods (h : Rep supply s) {r₁ r₂ : MutationOutboxRecord} (hr₁ : r₁ ∈ s.outbox)
    (hr₂ : r₂ ∈ s.outbox)
    (hwire : effectiveWireId r₁.toMutationRecord = effectiveWireId r₂.toMutationRecord) :
    r₁.method = r₂.method :=
  h.methods _ (mem_workOf.mpr (Or.inl ⟨r₁, hr₁, rfl⟩)) _ (mem_workOf.mpr (Or.inl ⟨r₂, hr₂, rfl⟩))
    hwire

theorem Rep.shrink (h : Rep supply s) (hs : Shrinks s s') : Rep supply s' := by
  refine h.of_maps (fun a ha => hs.work ha) (fun a ha => hs.records ha) hs.drawn ?_ ?_ ?_
  · intro r₁ hr₁ r₂ hr₂ hlive₁ hlive₂ hwire
    obtain ⟨x₁, hx₁, hsame₁, hback₁, -⟩ := hs.rows r₁ hr₁
    obtain ⟨x₂, hx₂, hsame₂, hback₂, -⟩ := hs.rows r₂ hr₂
    rw [hsame₁.key, hsame₂.key]
    exact h.live x₁ hx₁ x₂ hx₂ (hback₁ hlive₁) (hback₂ hlive₂)
      (by rw [← hsame₁.wire, ← hsame₂.wire, hwire])
  · intro r₁ hr₁ r₂ hr₂ hnote hsup₁ hsup₂ hwire
    obtain ⟨x₁, hx₁, hsame₁, -, hback₁⟩ := hs.rows r₁ hr₁
    obtain ⟨x₂, hx₂, hsame₂, -, hback₂⟩ := hs.rows r₂ hr₂
    have hwire' : effectiveWireId x₁.toMutationRecord = effectiveWireId x₂.toMutationRecord := by
      rw [← hsame₁.wire, ← hsame₂.wire, hwire]
    have hnote₁ : x₁.method ≠ humanNoteMethod := hsame₁.method ▸ hnote
    rw [hsame₁.key, hsame₂.key]
    exact h.superseded x₁ hx₁ x₂ hx₂ hnote₁ (hback₁ hsup₁ hnote₁)
      (hback₂ hsup₂ (h.row_methods hx₁ hx₂ hwire' ▸ hnote₁)) hwire'
  · intro c₁ hc₁ c₂ hc₂ hnote hwire
    obtain ⟨x₁, hx₁, hsame₁⟩ := hs.recovery c₁ hc₁
    obtain ⟨x₂, hx₂, hsame₂⟩ := hs.recovery c₂ hc₂
    rw [hsame₁.key, hsame₂.key]
    exact h.recoveries x₁ hx₁ x₂ hx₂ (hsame₁.method ▸ hnote)
      (by rw [← hsame₁.wire, ← hsame₂.wire, hwire])

/-- A row as it was, under the same state. -/
theorem shrinks_self (hr : r ∈ s.outbox) :
    ∃ r₀ ∈ s.outbox, SameWork r.toMutationRecord r₀.toMutationRecord ∧
      (r.state ≠ .superseded → r₀.state ≠ .superseded) ∧
      (r.state = .superseded → r₀.method ≠ humanNoteMethod → r₀.state = .superseded) :=
  ⟨r, hr, SameWork.refl _, id, fun h _ => h⟩

theorem Shrinks.refl (s : Db) : Shrinks s s :=
  ⟨fun _ hr => shrinks_self hr, fun _ ho => ⟨_, copy_mem_recordsOf ho, SameWork.refl _⟩,
    fun c hc => ⟨c, hc, SameWork.refl _⟩, le_rfl⟩

theorem Shrinks.trans {s'' : Db} (h : Shrinks s s') (h' : Shrinks s' s'') : Shrinks s s'' := by
  refine ⟨fun r hr => ?_, fun o ho => ?_, fun c hc => ?_, le_trans h.drawn h'.drawn⟩
  · obtain ⟨r₁, hr₁, hsame₁, hlive₁, hsup₁⟩ := h'.rows r hr
    obtain ⟨r₀, hr₀, hsame₀, hlive₀, hsup₀⟩ := h.rows r₁ hr₁
    refine ⟨r₀, hr₀, hsame₁.trans hsame₀, fun hl => hlive₀ (hlive₁ hl), fun hs hnote => ?_⟩
    exact hsup₀ (hsup₁ hs (hsame₀.method ▸ hnote)) hnote
  · obtain ⟨a, ha, hsame⟩ := h'.copies o ho
    obtain ⟨b, hb, hsame'⟩ := h.records ha
    exact ⟨b, hb, hsame.trans hsame'⟩
  · obtain ⟨c₁, hc₁, hsame₁⟩ := h'.recovery c hc
    obtain ⟨c₀, hc₀, hsame₀⟩ := h.recovery c₁ hc₁
    exact ⟨c₀, hc₀, hsame₁.trans hsame₀⟩

theorem shrinks_dropRows (p : MutationOutboxRecord → Bool) (s : Db) : Shrinks s (dropRows p s) :=
  ⟨fun _ hr => shrinks_self (mem_dropRows.mp hr).1, (Shrinks.refl s).copies,
    (Shrinks.refl s).recovery, le_rfl⟩

theorem shrinks_dropRecovery (p : MutationRecoveryRecord → Bool) (s : Db) :
    Shrinks s (dropRecovery p s) :=
  ⟨(Shrinks.refl s).rows, (Shrinks.refl s).copies,
    fun c hc => ⟨c, (mem_dropRecovery.mp hc).1, SameWork.refl _⟩, le_rfl⟩

/-- A row written over itself, not superseded unless it is a note or was superseded. -/
theorem shrinks_put {r' : MutationOutboxRecord} (hr : r ∈ s.outbox)
    (hsame : SameWork r'.toMutationRecord r.toMutationRecord)
    (hlive : r'.state ≠ .superseded → r.state ≠ .superseded)
    (hsup : r'.state = .superseded → r.method ≠ humanNoteMethod → r.state = .superseded) :
    Shrinks s { s with outbox := put outboxKey r' s.outbox } := by
  refine ⟨fun x hx => ?_, (Shrinks.refl s).copies, (Shrinks.refl s).recovery, le_rfl⟩
  rcases mem_of_mem_put hx with rfl | hx
  · exact ⟨r, hr, hsame, hlive, hsup⟩
  · exact shrinks_self hx

end Shrinks

/-! ## New work -/

section Insert

variable {supply : Nat → String} {s : Db}

/-- An id not handed out yet is no record's wire. -/
theorem Rep.fresh_wire (h : Rep supply s) (hinj : Function.Injective supply)
    (ha : a ∈ workOf s.toStores) : effectiveWireId a ≠ supply s.drawn := by
  intro hwire
  obtain ⟨n, hn, hid⟩ := h.wires a ha
  have := hinj (hid.trans hwire)
  omega

theorem drawn_next (n : Nat) {s' : Db} (h : s'.drawn = n + 1) : Drawn supply s' (supply n) :=
  ⟨n, by omega, rfl⟩

/-- A new record beside the old ones, on a wire whose records have its method. -/
theorem Rep.first_fields (h : Rep supply s) {new : MutationRecord} {s' : Db}
    (hdrawn : s'.drawn = s.drawn + 1) (hfree : KeyFree s.toStores new.clientMutationId)
    (hwork : ∀ a ∈ workOf s'.toStores, a = new ∨ a ∈ workOf s.toStores)
    (hrecords : ∀ a ∈ recordsOf s'.toStores, a = new ∨ a ∈ recordsOf s.toStores)
    (hwire : Drawn supply s' (effectiveWireId new))
    (hmethod : ∀ a ∈ workOf s.toStores, effectiveWireId a = effectiveWireId new →
      a.method = new.method) :
    (∀ a ∈ workOf s'.toStores, Drawn supply s' (effectiveWireId a)) ∧
    (∀ a ∈ workOf s'.toStores, ∀ b ∈ workOf s'.toStores,
      effectiveWireId a = effectiveWireId b → a.method = b.method) ∧
    (∀ a ∈ recordsOf s'.toStores, ∀ b ∈ recordsOf s'.toStores,
      a.clientMutationId = b.clientMutationId → effectiveWireId a = effectiveWireId b) := by
  refine ⟨?_, ?_, ?_⟩
  · intro a ha
    rcases hwork a ha with rfl | ha
    · exact hwire
    · exact (h.wires a ha).mono (by omega)
  · intro a ha b hb heq
    rcases hwork a ha with rfl | ha <;> rcases hwork b hb with rfl | hb
    · rfl
    · exact (hmethod b hb heq.symm).symm
    · exact hmethod a ha heq
    · exact h.methods a ha b hb heq
  · intro a ha b hb heq
    rcases hrecords a ha with rfl | ha <;> rcases hrecords b hb with rfl | hb
    · rfl
    · exact absurd heq.symm (hfree b hb)
    · exact absurd heq (hfree a ha)
    · exact h.keyWires a ha b hb heq

theorem Rep.insertRow (h : Rep supply s) (hfree : KeyFree s.toStores row.clientMutationId)
    (hwire : Drawn supply (insertRow s row) (effectiveWireId row.toMutationRecord))
    (hmethod : ∀ a ∈ workOf s.toStores, effectiveWireId a = effectiveWireId row.toMutationRecord →
      a.method = row.method)
    (hlive : row.state ≠ .superseded)
    (halone : ∀ r ∈ s.outbox, r.state ≠ .superseded →
      effectiveWireId r.toMutationRecord ≠ effectiveWireId row.toMutationRecord) :
    Rep supply (Outbox.insertRow s row) := by
  have hrow : ∀ r ∈ (Outbox.insertRow s row).outbox, r = row ∨ r ∈ s.outbox := by
    intro r hr
    rcases mem_append.mp hr with hr | hr
    · exact Or.inr hr
    · exact Or.inl (mem_singleton.mp hr)
  have hwork : ∀ a ∈ workOf (Outbox.insertRow s row).toStores,
      a = row.toMutationRecord ∨ a ∈ workOf s.toStores := by
    intro a ha
    rcases mem_workOf.mp ha with ⟨r, hr, rfl⟩ | ⟨c, hc, rfl⟩
    · rcases hrow r hr with rfl | hr
      · exact Or.inl rfl
      · exact Or.inr (mem_workOf.mpr (Or.inl ⟨r, hr, rfl⟩))
    · exact Or.inr (mem_workOf.mpr (Or.inr ⟨c, hc, rfl⟩))
  have hrecords : ∀ a ∈ recordsOf (Outbox.insertRow s row).toStores,
      a = row.toMutationRecord ∨ a ∈ recordsOf s.toStores := by
    intro a ha
    rcases mem_recordsOf.mp ha with ⟨r, hr, rfl⟩ | ⟨o, ho, rfl⟩ | ⟨c, hc, rfl⟩
    · rcases hrow r hr with rfl | hr
      · exact Or.inl rfl
      · exact Or.inr (row_mem_recordsOf hr)
    · exact Or.inr (copy_mem_recordsOf ho)
    · exact Or.inr (recovery_mem_recordsOf hc)
  obtain ⟨h₁, h₂, h₃⟩ := h.first_fields rfl hfree hwork hrecords hwire hmethod
  refine ⟨h₁, h₂, h₃, ?_, ?_, h.recoveries⟩
  · intro r₁ hr₁ r₂ hr₂ hlive₁ hlive₂ heq
    rcases hrow r₁ hr₁ with hnew₁ | hold₁ <;> rcases hrow r₂ hr₂ with hnew₂ | hold₂
    · rw [hnew₁, hnew₂]
    · exact absurd heq.symm (hnew₁ ▸ halone r₂ hold₂ hlive₂)
    · exact absurd heq (hnew₂ ▸ halone r₁ hold₁ hlive₁)
    · exact h.live r₁ hold₁ r₂ hold₂ hlive₁ hlive₂ heq
  · intro r₁ hr₁ r₂ hr₂ hnote hsup₁ hsup₂ heq
    rcases hrow r₁ hr₁ with hnew₁ | hold₁
    · exact absurd (hnew₁ ▸ hsup₁) hlive
    · rcases hrow r₂ hr₂ with hnew₂ | hold₂
      · exact absurd (hnew₂ ▸ hsup₂) hlive
      · exact h.superseded r₁ hold₁ r₂ hold₂ hnote hsup₁ hsup₂ heq

/-- A row on a wire of its own. -/
theorem Rep.insertOwn (h : Rep supply s) (hinj : Function.Injective supply)
    (hfree : KeyFree s.toStores row.clientMutationId)
    (hwire : effectiveWireId row.toMutationRecord = supply s.drawn)
    (hlive : row.state ≠ .superseded) : Rep supply (Outbox.insertRow s row) := by
  refine h.insertRow hfree ?_ (fun a ha heq => ?_) hlive fun r hr _ heq => ?_
  · rw [hwire]
    exact drawn_next s.drawn rfl
  · exact absurd (heq.trans hwire) (h.fresh_wire hinj ha)
  · exact absurd (heq.trans hwire) (h.fresh_wire hinj (mem_workOf.mpr (Or.inl ⟨r, hr, rfl⟩)))

theorem Rep.insertRecovery (h : Rep supply s) (hinj : Function.Injective supply)
    (hfree : KeyFree s.toStores c.clientMutationId)
    (hwire : effectiveWireId c.toMutationRecord = supply s.drawn) :
    Rep supply (Outbox.insertRecovery s c) := by
  have hnot : ∀ a ∈ workOf s.toStores, effectiveWireId a ≠ effectiveWireId c.toMutationRecord :=
    fun a ha heq => h.fresh_wire hinj ha (heq.trans hwire)
  have hrec : ∀ x ∈ (Outbox.insertRecovery s c).recovery, x = c ∨ x ∈ s.recovery := by
    intro x hx
    rcases mem_append.mp hx with hx | hx
    · exact Or.inr hx
    · exact Or.inl (mem_singleton.mp hx)
  have hwork : ∀ a ∈ workOf (Outbox.insertRecovery s c).toStores,
      a = c.toMutationRecord ∨ a ∈ workOf s.toStores := by
    intro a ha
    rcases mem_workOf.mp ha with ⟨r, hr, rfl⟩ | ⟨x, hx, rfl⟩
    · exact Or.inr (mem_workOf.mpr (Or.inl ⟨r, hr, rfl⟩))
    · rcases hrec x hx with rfl | hx
      · exact Or.inl rfl
      · exact Or.inr (mem_workOf.mpr (Or.inr ⟨x, hx, rfl⟩))
  have hrecords : ∀ a ∈ recordsOf (Outbox.insertRecovery s c).toStores,
      a = c.toMutationRecord ∨ a ∈ recordsOf s.toStores := by
    intro a ha
    rcases mem_recordsOf.mp ha with ⟨r, hr, rfl⟩ | ⟨o, ho, rfl⟩ | ⟨x, hx, rfl⟩
    · exact Or.inr (row_mem_recordsOf hr)
    · exact Or.inr (copy_mem_recordsOf ho)
    · rcases hrec x hx with rfl | hx
      · exact Or.inl rfl
      · exact Or.inr (recovery_mem_recordsOf hx)
  obtain ⟨h₁, h₂, h₃⟩ := h.first_fields rfl hfree hwork hrecords
    (by rw [hwire]; exact drawn_next s.drawn rfl) (fun a ha heq => absurd heq (hnot a ha))
  refine ⟨h₁, h₂, h₃, h.live, h.superseded, ?_⟩
  intro c₁ hc₁ c₂ hc₂ hnote heq
  rcases hrec c₁ hc₁ with hnew₁ | hold₁ <;> rcases hrec c₂ hc₂ with hnew₂ | hold₂
  · rw [hnew₁, hnew₂]
  · exact absurd heq.symm (hnew₁ ▸ hnot _ (mem_workOf.mpr (Or.inr ⟨c₂, hold₂, rfl⟩)))
  · exact absurd heq (hnew₂ ▸ hnot _ (mem_workOf.mpr (Or.inr ⟨c₁, hold₁, rfl⟩)))
  · exact h.recoveries c₁ hold₁ c₂ hold₂ hnote heq

end Insert

/-! ## The wires of the records the calls write -/

section Wires

theorem wire_withMutationId (payload : Payload) {id : String}
    (h : a.payload = withMutationId payload id) :
    effectiveWireId a = if id ≠ "" then id else a.clientMutationId := by
  rw [effectiveWireId_eq, h, payloadId_withMutationId]
  split <;> rfl

theorem wire_own {payload : Payload} (h : a.payload = withMutationId payload a.clientMutationId) :
    effectiveWireId a = a.clientMutationId := by
  rw [wire_withMutationId _ h]
  split <;> rfl

/-- A mint keeps its source's wire when that may have been delivered. -/
theorem wire_mintedRow (tab : Tab) (source : MutationOutboxRecord) (id : String) (n e : Nat)
    (displayed : Option Nat) (bornCanceled preserve : Bool) :
    effectiveWireId (mintedRow tab source id n e displayed bornCanceled preserve).toMutationRecord =
      if wireIdentityUncertain source (effectiveWireId source.toMutationRecord) = true ∧
        effectiveWireId source.toMutationRecord ≠ "" then effectiveWireId source.toMutationRecord
      else id := by
  rw [wire_withMutationId source.payload rfl]
  by_cases huncertain : wireIdentityUncertain source (effectiveWireId source.toMutationRecord) = true
  · simp only [huncertain, if_true, true_and]
    rfl
  · simp only [huncertain, Bool.false_eq_true, if_false, false_and]
    split
    · rfl
    · rfl

theorem wire_resentRow (tab : Tab) (request : ResendRequest) (replay : Option (String × String))
    (id : String) (n e e' : Nat) :
    effectiveWireId (resentRow tab request replay id n e e').toMutationRecord =
      match replay with
      | some (wireId, _) => if wireId ≠ "" then wireId else id
      | none => id := by
  cases replay with
  | none => exact wire_own rfl
  | some p => exact wire_withMutationId request.intent.payload rfl

theorem wire_movedRecord (toRef : String) (identity : ResumedIdentity) (n : Nat)
    (a : MutationRecord) : effectiveWireId (movedRecord toRef identity n a) = effectiveWireId a := by
  rw [effectiveWireId_eq, effectiveWireId_eq]
  have hpayload : payloadId (movedRecord toRef identity n a).payload = payloadId a.payload := by
    unfold movedRecord
    dsimp only
    split
    · rw [payloadId_withProperty (by decide), payloadId_withProperty (by decide)]
    · rw [payloadId_withProperty (by decide)]
  rw [hpayload]
  rfl

theorem sameWork_moved (toRef : String) (identity : ResumedIdentity) (n : Nat)
    (a : MutationRecord) : SameWork (movedRecord toRef identity n a) a :=
  ⟨rfl, wire_movedRecord toRef identity n a, rfl⟩

theorem sameWork_updated (update : RecoveryUpdate) (c : MutationRecoveryRecord) :
    SameWork (updatedRecovery update c).toMutationRecord c.toMutationRecord := by
  refine ⟨rfl, ?_, rfl⟩
  rw [effectiveWireId_eq, effectiveWireId_eq]
  have hpayload : payloadId (updatedRecovery update c).payload = payloadId c.payload :=
    payloadId_withProperty (by decide) _ _
  rw [hpayload]
  rfl

theorem sameWork_accepted (a : MutationRecord) : SameWork (acceptedRecord a).toMutationRecord a :=
  ⟨rfl, rfl, rfl⟩

end Wires

end Evener.Outbox
