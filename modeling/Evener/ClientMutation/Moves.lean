/-
  The moves of an accepted input, each stated for any snapshot that differs from the one before as
  the move says, so that the transitions of the source are its instances.
-/
import Evener.ClientMutation.Custody

namespace Evener.ClientMutation

open Evener.Lib
open List hiding lookup

variable {accepted : String → Option Input} {s s' : Snapshot} {id : String} {r : Record}
  {p : PendingMutation}

/-- The fence, the holds and the sequences are left as they were. -/
structure SameRest (s s' : Snapshot) : Prop where
  fence : s'.interruptFence = s.interruptFence
  queueHeld : s'.queueHeld = s.queueHeld
  steeringHeld : s'.steeringHeld = s.steeringHeld
  turnSequence : s'.nextTurnSequence = s.nextTurnSequence
  queueSequence : s'.nextQueueEntrySequence = s.nextQueueEntrySequence

theorem Kept.of_rest (hrest : SameRest s s') (horder : s'.steeringOrder ⊆ s.steeringOrder)
    (h : Inv accepted s' ∧ s.Evolves s') : Kept accepted s s' :=
  ⟨h.1, h.2, hrest.fence, hrest.queueHeld, horder,
    fun hs => Or.inl (hrest.steeringHeld.trans hs)⟩

namespace Inv

/-- The record of a pending execution is applied. -/
theorem applied_of_pending (h : Inv accepted s) (hr : s.record? id = some r)
    (hp : s.pending? id = some p) :
    r.operationState = .applied ∧ p.method = r.method ∧ p.turnID = r.stableTurnID := by
  obtain ⟨_, r', hr', happlied, hmethod, hturn⟩ := (h.held_pending hp).of_pending
  rw [hr] at hr'
  obtain rfl := Option.some.inj hr'
  exact ⟨happlied, hmethod, hturn⟩

theorem entriesOf_of_pending (h : Inv accepted s) (hp : s.pending? id = some p) :
    s.entriesOf id = [] := (h.held_pending hp).of_pending.1

/-- A record that leaves its names alone and is neither rejected nor put back in flight. -/
theorem carries_of_applied {r' : Record} (happlied : r.operationState = .applied)
    (hmethod : r'.method = r.method) (hhash : r'.payloadHash = r.payloadHash)
    (hentries : r'.stableQueueEntryIDs = r.stableQueueEntryIDs)
    (hstate : r'.operationState ≠ .inFlight) : r.Carries r' :=
  ⟨hmethod, hhash, hentries, by simp [happlied], fun _ => hstate⟩

variable {y : ProjectionState} {x : ExecutionState} {entry : QueueEntry}

/-- A pending execution changes its state in place. -/
theorem rewrite {x' : ExecutionState} {y' : ProjectionState} (h : Inv accepted s)
    (hrest : SameRest s s') (hr : s.record? id = some r) (hp : s.pending? id = some p)
    (hjournal : s'.journal = put Record.clientMutationID
      { r with executionState := x, projectionState := y } s.journal)
    (hpending : s'.pendingExecutions = put PendingMutation.clientMutationID
      { p with executionState := x', projectionState := y' } s.pendingExecutions)
    (hqueue : s'.inputQueue = s.inputQueue) (horder : s'.steeringOrder = s.steeringOrder)
    (hkind : isUserTurn p.method = true ∨ x' = .accepted)
    (hslot : s'.activeTurnID = s.activeTurnID ∨ s'.activeTurnID = "" ∨ s'.activeTurnID = p.turnID) :
    Kept accepted s s' := by
  obtain rfl := s.key_of_record? hr
  have hkey := s.key_of_pending? hp
  obtain ⟨happlied, hmethod, hturn⟩ := h.applied_of_pending hr hp
  have hempty : s'.entriesOf r.clientMutationID = [] := by
    rw [Snapshot.entriesOf, hqueue]
    exact h.entriesOf_of_pending hp
  have hmoves : Moves s s' { r with executionState := x, projectionState := y } := by
    refine ⟨hjournal, ?_, ?_, ?_, ?_, hrest.fence⟩
    · rw [hpending]
      exact keysNodup_put h.pendingKeys _
    · intro id hid
      rw [Snapshot.pending?, hpending, lookup_put, if_neg (by rw [hkey]; exact Ne.symm hid)]
      rfl
    · intro id _
      rw [Snapshot.entriesOf, hqueue]
      rfl
    · intro id _
      rw [horder]
  refine .of_rest hrest (by rw [horder]; exact fun _ hid => hid) ?_
  refine h.move hmoves hr (carries_of_applied happlied rfl rfl rfl (by simp [happlied]))
    ((h.held_record hr).ne_interrupt happlied) hrest.queueSequence (Or.inl ⟨rfl, hrest.turnSequence⟩)
    (fun _ hf => by simp [happlied] at hf) (fun _ => rfl) ?_ (by rw [← hturn]; exact hslot)
      (fun hq => absurd hempty hq)
  have hheld := h.held_pending hp
  rw [hr, h.entriesOf_of_pending hp] at hheld
  have hrec : s'.record? r.clientMutationID =
      some { r with executionState := x, projectionState := y } := by
    rw [hmoves.record?, if_pos rfl]
  have hpend : s'.pending? r.clientMutationID =
      some { p with executionState := x', projectionState := y' } := by
    rw [Snapshot.pending?, hpending, lookup_put, if_pos hkey]
  show Custody _ (s'.record? r.clientMutationID) (s'.pending? r.clientMutationID)
    (s'.entriesOf r.clientMutationID) (s'.steeringOrder.count r.clientMutationID)
  rw [hrec, hpend, hempty, horder]
  generalize s.steeringOrder.count r.clientMutationID = places at hheld ⊢
  cases hheld with
  | start _ hm hpm ht hi => exact .start happlied hm hpm ht hi
  | claimed _ hm hpm ht hids hentry hi => exact .claimed happlied hm hpm ht hids hentry hi
  | steering _ hm hpm ht _ =>
    refine .steering happlied hm hpm ht ?_
    rcases hkind with huser | hx
    · rw [hpm, not_isUserTurn hm] at huser
      exact absurd huser (by simp)
    · exact hx

/-- A pending execution ends: its record is terminal and nothing holds it. -/
theorem retire (h : Inv accepted s) (hrest : SameRest s s') (hr : s.record? id = some r)
    (hp : s.pending? id = some p)
    (hjournal : s'.journal = put Record.clientMutationID { r with
      operationState := .terminal, executionState := x, projectionState := .reflected, payload := none } s.journal)
    (hpending : s'.pendingExecutions = erase PendingMutation.clientMutationID id s.pendingExecutions)
    (hqueue : s'.inputQueue = s.inputQueue)
    (horder : s'.steeringOrder = s.steeringOrder ∧ s.steeringOrder.count id = 0 ∨
      s'.steeringOrder = s.steeringOrder.erase id)
    (hslot : s'.activeTurnID = s.activeTurnID ∨ s'.activeTurnID = "") : Kept accepted s s' := by
  obtain rfl := s.key_of_record? hr
  obtain ⟨happlied, hmethod, hturn⟩ := h.applied_of_pending hr hp
  have hempty : s'.entriesOf r.clientMutationID = [] := by
    rw [Snapshot.entriesOf, hqueue]
    exact h.entriesOf_of_pending hp
  have hsubset : s'.steeringOrder ⊆ s.steeringOrder := by
    rcases horder with ⟨he, _⟩ | he
    · rw [he]
      exact fun _ hid => hid
    · rw [he]
      exact erase_subset
  have hmoves : Moves s s' { r with
      operationState := .terminal, executionState := x, projectionState := .reflected,
      payload := none } := by
    refine ⟨hjournal, ?_, ?_, ?_, ?_, hrest.fence⟩
    · rw [hpending]
      exact keysNodup_erase h.pendingKeys _
    · intro id hid
      rw [Snapshot.pending?, hpending, lookup_erase, if_neg hid]
      rfl
    · intro id _
      rw [Snapshot.entriesOf, hqueue]
      rfl
    · intro id hid
      rcases horder with ⟨he, _⟩ | he
      · rw [he]
      · rw [he, count_erase_of_ne hid]
  refine .of_rest hrest hsubset ?_
  refine h.move hmoves hr (carries_of_applied happlied rfl rfl rfl (by simp))
    ((h.held_record hr).ne_interrupt happlied) hrest.queueSequence (Or.inl ⟨rfl, hrest.turnSequence⟩)
    (fun _ hf => by simp at hf) (fun _ => rfl) ?_ (hslot.imp_right Or.inl) (fun hq => absurd hempty hq)
  have hplaces : s'.steeringOrder.count r.clientMutationID = 0 := by
    rcases horder with ⟨he, hz⟩ | he
    · rw [he, hz]
    · have hle := (h.held r.clientMutationID).places_le_one
      rw [he, count_erase_self]
      omega
  have hpend : s'.pending? r.clientMutationID = none := by
    rw [Snapshot.pending?, hpending, lookup_erase, if_pos rfl]
  show Custody _ (s'.record? r.clientMutationID) (s'.pending? r.clientMutationID)
    (s'.entriesOf r.clientMutationID) (s'.steeringOrder.count r.clientMutationID)
  rw [hmoves.record?, if_pos rfl, hpend, hempty, hplaces]
  exact .unplaced (by simp)

/-- A claimed queue entry goes back to the head of the queue, and its turn leaves the slot. -/
theorem unclaim {actor : SessionActor} {entryID : String} (h : Inv accepted s)
    (hrest : SameRest s s') (hr : s.record? id = some r) (hp : s.pending? id = some p)
    (hmethod : p.method = .queue) (hentry : p.queueEntryIDs = [entryID])
    (hjournal : s'.journal = put Record.clientMutationID
      { r with executionState := .accepted, projectionState := y } s.journal)
    (hpending : s'.pendingExecutions = erase PendingMutation.clientMutationID id s.pendingExecutions)
    (hqueue : s'.inputQueue =
      { actor := actor, id := entryID, clientMutationID := id, input := p.input } :: s.inputQueue)
    (horder : s'.steeringOrder = s.steeringOrder)
    (hslot : s'.activeTurnID = if s.activeTurnID = p.turnID then "" else s.activeTurnID) :
    Kept accepted s s' := by
  obtain rfl := s.key_of_record? hr
  obtain ⟨happlied, hpm, hturn⟩ := h.applied_of_pending hr hp
  have hrm : r.method = .queue := hpm.symm.trans hmethod
  have hmoves : Moves s s' { r with executionState := .accepted, projectionState := y } := by
    refine ⟨hjournal, ?_, ?_, ?_, ?_, hrest.fence⟩
    · rw [hpending]
      exact keysNodup_erase h.pendingKeys _
    · intro id hid
      rw [Snapshot.pending?, hpending, lookup_erase, if_neg hid]
      rfl
    · intro id hid
      rw [Snapshot.entriesOf, hqueue, filter_cons_of_neg (by simpa using Ne.symm hid)]
      rfl
    · intro id _
      rw [horder]
  refine .of_rest hrest (by rw [horder]; exact fun _ hid => hid) ?_
  refine h.move hmoves hr (carries_of_applied happlied rfl rfl rfl (by simp [happlied]))
    (by simp [hrm]) hrest.queueSequence (Or.inl ⟨rfl, hrest.turnSequence⟩)
    (fun _ hf => by simp [happlied] at hf) (fun _ => rfl) ?_ ?_ ?_
  · have hheld := h.held_pending hp
    rw [hr, h.entriesOf_of_pending hp] at hheld
    have hpend : s'.pending? r.clientMutationID = none := by
      rw [Snapshot.pending?, hpending, lookup_erase, if_pos rfl]
    have hentries : s'.entriesOf r.clientMutationID =
        [{ actor := actor, id := entryID, clientMutationID := r.clientMutationID,
           input := p.input }] := by
      rw [Snapshot.entriesOf, hqueue, filter_cons_of_pos (by simp)]
      exact congrArg _ (h.entriesOf_of_pending hp)
    show Custody _ (s'.record? r.clientMutationID) (s'.pending? r.clientMutationID)
      (s'.entriesOf r.clientMutationID) (s'.steeringOrder.count r.clientMutationID)
    rw [hmoves.record?, if_pos rfl, hpend, hentries, horder]
    generalize s.steeringOrder.count r.clientMutationID = places at hheld ⊢
    cases hheld with
    | start _ hm => simp [hrm] at hm
    | claimed _ _ _ _ hids hids' hinput =>
      refine .queued happlied hrm ?_ hinput
      exact hids.trans (hids'.symm.trans hentry)
    | steering _ hm => simp [hrm, isSteering] at hm
  · rw [hslot]
    split
    · exact Or.inr (Or.inl rfl)
    · exact Or.inl rfl
  · intro _ hne
    rw [hslot]
    split
    · exact hne.symm
    · next hactive => exact fun he => hactive (he.trans hturn.symm)

/-- The head of the queue becomes the claimed execution of its record. -/
theorem claimEntry {y' : ProjectionState} {actor : SessionActor} {turnID : String}
    {rest : List QueueEntry} (h : Inv accepted s) (hhead : s.inputQueue = entry :: rest)
    (hr : s.record? entry.clientMutationID = some r)
    (hrest : s'.interruptFence = s.interruptFence ∧ s'.queueHeld = s.queueHeld ∧
      s'.steeringHeld = s.steeringHeld ∧ s'.nextQueueEntrySequence = s.nextQueueEntrySequence)
    (hturn : turnID = r.stableTurnID ∧ s'.nextTurnSequence = s.nextTurnSequence ∨
      r.stableTurnID = "" ∧ s'.nextTurnSequence = s.nextTurnSequence + 1 ∧
      turnID = clientMutationTurnID s'.nextTurnSequence)
    (hjournal : s'.journal = put Record.clientMutationID { r with
      stableTurnID := turnID, executionState := .claimed, projectionState := y } s.journal)
    (hpending : s'.pendingExecutions = put PendingMutation.clientMutationID {
      actor := actor, clientMutationID := entry.clientMutationID, method := r.method, input := entry.input,
      executionState := .claimed, turnID := turnID, queueEntryIDs := [entry.id],
      projectionState := y' } s.pendingExecutions)
    (hqueue : s'.inputQueue = rest) (horder : s'.steeringOrder = s.steeringOrder)
    (hslot : s'.activeTurnID = s.activeTurnID ∨ s'.activeTurnID = turnID) : Kept accepted s s' := by
  have hmem : entry ∈ s.entriesOf entry.clientMutationID :=
    s.mem_entriesOf.mpr ⟨by rw [hhead]; exact mem_cons_self, rfl⟩
  obtain ⟨_, hentries, hplaces, hinput, r₀, hr₀, happlied, hmethod, hids⟩ :=
    (h.held entry.clientMutationID).of_entry hmem
  rw [hr] at hr₀
  obtain rfl := Option.some.inj hr₀
  have hkey := s.key_of_record? hr
  have hempty : s'.entriesOf entry.clientMutationID = [] := by
    rw [Snapshot.entriesOf, hhead, filter_cons_of_pos (by simp)] at hentries
    rw [Snapshot.entriesOf, hqueue]
    exact (List.cons.inj hentries).2
  have hmoves : Moves s s'
      { r with stableTurnID := turnID, executionState := .claimed, projectionState := y } := by
    refine ⟨hjournal, ?_, ?_, ?_, ?_, hrest.1⟩
    · rw [hpending]
      exact keysNodup_put h.pendingKeys _
    · intro id hid
      rw [Snapshot.pending?, hpending, lookup_put, if_neg (fun he => hid (hkey ▸ he.symm))]
      rfl
    · intro id hid
      have hne : ¬ entry.clientMutationID = id := fun he => hid (hkey ▸ he.symm)
      rw [Snapshot.entriesOf, Snapshot.entriesOf, hqueue, hhead,
        filter_cons_of_neg (by simpa using hne)]
    · intro id _
      rw [horder]
  have hheld : s'.Held accepted entry.clientMutationID := by
    have hpend := congrArg (lookup PendingMutation.clientMutationID entry.clientMutationID) hpending
    rw [lookup_put, if_pos rfl] at hpend
    show Custody _ (s'.record? entry.clientMutationID)
      (lookup PendingMutation.clientMutationID entry.clientMutationID s'.pendingExecutions)
      (s'.entriesOf entry.clientMutationID) (s'.steeringOrder.count entry.clientMutationID)
    rw [hmoves.record?, if_pos hkey, hpend, hempty, horder, hplaces]
    exact .claimed happlied hmethod hmethod rfl hids rfl hinput
  have hboth : Inv accepted s' ∧ s.Evolves s' :=
    h.move hmoves (hkey ▸ hr) (carries_of_applied happlied rfl rfl rfl (by simp [happlied]))
      (by simp [hmethod]) hrest.2.2.2 hturn (fun _ hf => by simp [happlied] at hf) (fun _ => rfl)
      (hkey ▸ hheld) (hslot.imp_right Or.inr)
      (fun hq => absurd (hkey ▸ hempty) hq)
  exact ⟨hboth.1, hboth.2, hrest.1, hrest.2.1, by rw [horder]; exact fun _ hid => hid,
    fun hs => Or.inl (hrest.2.2.1.trans hs)⟩

/-! ## Entries and their ids -/

/-- Two entries of one id are one entry: entry ids are issued once. -/
theorem entry_eq (h : Inv accepted s) {entry' : QueueEntry} (he : entry ∈ s.inputQueue)
    (he' : entry' ∈ s.inputQueue) (hid : entry.id = entry'.id) : entry = entry' := by
  obtain ⟨_, hentries, _, _, r, hr, _, hmethod, hids⟩ :=
    (h.held entry.clientMutationID).of_entry (s.mem_entriesOf.mpr ⟨he, rfl⟩)
  obtain ⟨_, _, _, _, r', hr', _, hmethod', hids'⟩ :=
    (h.held entry'.clientMutationID).of_entry (s.mem_entriesOf.mpr ⟨he', rfl⟩)
  have hname : r.ownEntries = some [entry.id] := by simp [Record.ownEntries, hmethod, hids]
  have hname' : r'.ownEntries = some [entry.id] := by simp [Record.ownEntries, hmethod', hids', hid]
  have hsame : entry.clientMutationID = entry'.clientMutationID :=
    h.entries.distinct hr hr' hname hname'
  have hmem : entry' ∈ s.entriesOf entry.clientMutationID :=
    s.mem_entriesOf.mpr ⟨he', hsame.symm⟩
  rw [hentries] at hmem
  exact (mem_singleton.mp hmem).symm

theorem queue_ids_nodup (h : Inv accepted s) : (s.inputQueue.map QueueEntry.id).Nodup := by
  have hnodup : s.inputQueue.Nodup := by
    refine nodup_iff_count_le_one.mpr fun entry => ?_
    by_cases he : entry ∈ s.inputQueue
    · obtain ⟨_, hentries, _⟩ :=
        (h.held entry.clientMutationID).of_entry (s.mem_entriesOf.mpr ⟨he, rfl⟩)
      have hcount : (s.entriesOf entry.clientMutationID).count entry = s.inputQueue.count entry :=
        count_filter (by simp)
      rw [← hcount, hentries]
      simp
    · rw [count_eq_zero_of_not_mem he]
      exact Nat.zero_le 1
  exact hnodup.map_on fun entry he entry' he' hid => h.entry_eq he he' hid

end Inv

/-! ## Consuming entries -/

theorem removeQueuedMutationSource_eq {x : ExecutionState} {entry : QueueEntry}
    (hr : s.record? entry.clientMutationID = some r) :
    removeQueuedMutationSource s entry x =
      (s.release entry.clientMutationID).putRecord
        { r with
          operationState := .terminal
          executionState := x
          projectionState := .removed
          payload := none } := by
  unfold removeQueuedMutationSource
  dsimp only
  rw [show (s.release entry.clientMutationID).record? entry.clientMutationID = some r from hr]

theorem removeQueuedMutationSource_none {x : ExecutionState} {entry : QueueEntry}
    (hr : s.record? entry.clientMutationID = none) :
    removeQueuedMutationSource s entry x = s.release entry.clientMutationID := by
  unfold removeQueuedMutationSource
  dsimp only
  rw [show (s.release entry.clientMutationID).record? entry.clientMutationID = none from hr]

/-- The entry leaves the queue and its record is terminal. -/
def consumeEntry (x : ExecutionState) (s : Snapshot) (entry : QueueEntry) : Snapshot :=
  removeQueuedMutationSource
    { s with inputQueue := s.inputQueue.filter fun other => other.id ≠ entry.id } entry x

theorem consumeEntry_inputQueue (x : ExecutionState) (s : Snapshot) (entry : QueueEntry) :
    (consumeEntry x s entry).inputQueue =
      s.inputQueue.filter fun other => other.id ≠ entry.id := by
  unfold consumeEntry removeQueuedMutationSource
  dsimp only
  split <;> rfl

/-- What consuming an entry leaves as it was. -/
structure Consumes (accepted : String → Option Input) (s s' : Snapshot) : Prop where
  inv : Inv accepted s'
  evolves : s.Evolves s'
  fence : s'.interruptFence = s.interruptFence
  holds : s'.queueHeld = s.queueHeld ∧ s'.steeringHeld = s.steeringHeld
  order : s'.steeringOrder = s.steeringOrder
  slot : s'.activeTurnID = s.activeTurnID
  sequences : s'.nextTurnSequence = s.nextTurnSequence ∧
    s'.nextQueueEntrySequence = s.nextQueueEntrySequence
  queue : s'.inputQueue ⊆ s.inputQueue
  others : ∀ {id}, (∀ entry ∈ s.inputQueue, entry.clientMutationID ≠ id) →
    s'.record? id = s.record? id ∧ s'.pending? id = s.pending? id

theorem Consumes.refl (h : Inv accepted s) : Consumes accepted s s :=
  ⟨h, .of_journal rfl, rfl, ⟨rfl, rfl⟩, rfl, rfl, ⟨rfl, rfl⟩, fun _ he => he, fun _ => ⟨rfl, rfl⟩⟩

theorem Consumes.trans {s₁ s₂ s₃ : Snapshot} (h : Consumes accepted s₁ s₂)
    (h' : Consumes accepted s₂ s₃) : Consumes accepted s₁ s₃ where
  inv := h'.inv
  evolves := h.evolves.trans h'.evolves
  fence := h'.fence.trans h.fence
  holds := ⟨h'.holds.1.trans h.holds.1, h'.holds.2.trans h.holds.2⟩
  order := h'.order.trans h.order
  slot := h'.slot.trans h.slot
  sequences := ⟨h'.sequences.1.trans h.sequences.1, h'.sequences.2.trans h.sequences.2⟩
  queue := fun _ he => h.queue (h'.queue he)
  others hid :=
    have hlast := h'.others fun entry he => hid entry (h.queue he)
    ⟨hlast.1.trans (h.others hid).1, hlast.2.trans (h.others hid).2⟩

namespace Inv

theorem consume (h : Inv accepted s) (he : entry ∈ s.inputQueue) :
    Consumes accepted s (consumeEntry x s entry) := by
  obtain ⟨hnone, hentries, hplaces, _, r, hr, happlied, hmethod, _⟩ :=
    (h.held entry.clientMutationID).of_entry (s.mem_entriesOf.mpr ⟨he, rfl⟩)
  obtain hkey := s.key_of_record? hr
  have heq : consumeEntry x s entry = _ := removeQueuedMutationSource_eq hr
  -- the entry's id is no other entry's
  have hqueue : ∀ {id}, id ≠ entry.clientMutationID →
      (s.inputQueue.filter fun other => other.id ≠ entry.id).filter
        (fun other => other.clientMutationID = id) = s.entriesOf id := by
    intro id hid
    rw [filter_filter]
    refine filter_congr fun other hother => ?_
    by_cases ho : other.id = entry.id
    · have hne : other.clientMutationID ≠ id := by
        rw [h.entry_eq hother he ho]
        exact Ne.symm hid
      simp [ho, hne]
    · simp [ho]
  have hempty : (s.inputQueue.filter fun other => other.id ≠ entry.id).filter
      (fun other => other.clientMutationID = entry.clientMutationID) = [] := by
    rw [filter_filter, filter_eq_nil_iff]
    intro other hother hc
    have hmem : other ∈ s.entriesOf entry.clientMutationID :=
      s.mem_entriesOf.mpr ⟨hother, by simpa using (Bool.and_eq_true_iff.mp hc).1⟩
    rw [hentries, mem_singleton] at hmem
    simp [hmem] at hc
  generalize hs' : consumeEntry x s entry = s' at heq ⊢
  have hjournal : s'.journal = put Record.clientMutationID
      { r with operationState := .terminal, executionState := x, projectionState := .removed,
               payload := none } s.journal := by rw [heq]; rfl
  have hinput : s'.inputQueue = s.inputQueue.filter fun other => other.id ≠ entry.id := by
    rw [heq]; rfl
  obtain ⟨hpending, hfence, hholds, horder, hslot, hsequences⟩ :
      s'.pendingExecutions = s.pendingExecutions ∧ s'.interruptFence = s.interruptFence ∧
      (s'.queueHeld = s.queueHeld ∧ s'.steeringHeld = s.steeringHeld) ∧
      s'.steeringOrder = s.steeringOrder ∧ s'.activeTurnID = s.activeTurnID ∧
      s'.nextTurnSequence = s.nextTurnSequence ∧
      s'.nextQueueEntrySequence = s.nextQueueEntrySequence := by
    rw [heq]; exact ⟨rfl, rfl, ⟨rfl, rfl⟩, rfl, rfl, rfl, rfl⟩
  have hpending? : ∀ id, s'.pending? id = s.pending? id := fun id => by
    rw [Snapshot.pending?, hpending]; rfl
  have hmoves : Moves s s' { r with
      operationState := .terminal, executionState := x, projectionState := .removed,
      payload := none } := by
    refine ⟨hjournal, by rw [hpending]; exact h.pendingKeys, fun _ => hpending? _, ?_,
      fun _ => by rw [horder], hfence⟩
    intro id hid
    rw [Snapshot.entriesOf, hinput]
    exact hqueue (hkey ▸ hid)
  have hnoEntry : s'.entriesOf entry.clientMutationID = [] := by
    rw [Snapshot.entriesOf, hinput]
    exact hempty
  have hheld : s'.Held accepted entry.clientMutationID := by
    rw [Snapshot.Held, hmoves.record?, if_pos hkey, hpending?, hnone, hnoEntry, horder, hplaces]
    exact .unplaced (by simp)
  obtain ⟨hinv, hevolves⟩ := h.move hmoves (hkey ▸ hr)
    (carries_of_applied happlied rfl rfl rfl (by simp)) (by simp [hmethod]) hsequences.2
    (Or.inl ⟨rfl, hsequences.1⟩) (fun _ hf => by simp at hf) (fun _ => rfl) (hkey ▸ hheld) (Or.inl hslot)
    (fun hq => absurd (hkey ▸ hnoEntry) hq)
  refine ⟨hinv, hevolves, hfence, hholds, horder, hslot, hsequences, ?_, ?_⟩
  · rw [hinput]
    exact filter_subset_self _
  · intro id hid
    refine ⟨?_, hpending? id⟩
    rw [hmoves.record?, if_neg]
    rw [hkey]
    exact hid entry he

theorem consumeAll {entries : List QueueEntry} (h : Inv accepted s)
    (hmem : ∀ entry ∈ entries, entry ∈ s.inputQueue) (hnodup : (entries.map QueueEntry.id).Nodup) :
    Consumes accepted s (entries.foldl (consumeEntry x) s) := by
  induction entries generalizing s with
  | nil => exact .refl h
  | cons entry entries ih =>
    rw [map_cons, nodup_cons] at hnodup
    have hfirst := h.consume (x := x) (hmem entry mem_cons_self)
    refine hfirst.trans (ih hfirst.inv ?_ hnodup.2)
    intro other hother
    rw [consumeEntry_inputQueue, mem_filter]
    refine ⟨hmem other (mem_cons_of_mem _ hother), ?_⟩
    have hne : other.id ≠ entry.id := by
      intro he
      exact hnodup.1 (he ▸ mem_map_of_mem hother)
    simpa using hne

end Inv

end Evener.ClientMutation
