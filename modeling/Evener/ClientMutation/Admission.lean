/-
  Acceptance keeps every input in its one place.

  A preparation journals an unseen id and hands out at most the next turn name or entry id
  (`Admits`); an effect gives the in-flight record its place.
-/
import Evener.ClientMutation.Settling

namespace Evener.ClientMutation

open Evener.Lib Option

variable {accepted accepted' : String → Option Input} {s s' : Snapshot} {id : String}
  {r r' : Record} {cfg : Config} {params : Params}

/-! ## Preparations -/

/-- What a preparation leaves alone, and what it reserves for its record. -/
structure Admits (s s' : Snapshot) (r r' : Record) : Prop where
  key : r'.clientMutationID = r.clientMutationID
  method : r'.method = r.method
  journal : s'.journal = s.journal
  pending : s'.pendingExecutions = s.pendingExecutions
  queue : s'.inputQueue = s.inputQueue
  order : s'.steeringOrder = s.steeringOrder
  slot : s'.activeTurnID = s.activeTurnID
  turns : s.nextTurnSequence ≤ s'.nextTurnSequence
  entries : s.nextQueueEntrySequence ≤ s'.nextQueueEntrySequence
  turn : ∀ t, r'.ownTurn = some t →
    s'.nextTurnSequence = s.nextTurnSequence + 1 ∧ t = clientMutationTurnID s'.nextTurnSequence
  entry : ∀ ids, r'.ownEntries = some ids →
    s'.nextQueueEntrySequence = s.nextQueueEntrySequence + 1 ∧
      ids = [queueEntryID s'.nextQueueEntrySequence]
  stable : r'.stableQueueEntryIDs.Nodup
  unnamed : r'.method = .queue → r'.stableTurnID = ""
  state : r'.operationState = .inFlight ∨ r'.operationState = .rejected

/-- A record nothing is reserved for yet. -/
structure Record.Fresh (r : Record) : Prop where
  turn : r.stableTurnID = ""
  entries : r.stableQueueEntryIDs = []
  state : r.operationState = .inFlight

theorem Record.ownTurn_of_unnamed (h : r.stableTurnID = "") {t : String} :
    r.ownTurn ≠ some t := fun hs => (Record.ownTurn_eq_some.mp hs).2.1 h

theorem Record.ownEntries_of_nil (h : r.stableQueueEntryIDs = []) {ids : List String} :
    r.ownEntries ≠ some ids := by simp [Record.ownEntries, h]

theorem admits_reject (h : r.Fresh) (error : WireErrorKind) (message : String) :
    Admits s s r (rejectClientMutation r error message) where
  key := rfl
  method := rfl
  journal := rfl
  pending := rfl
  queue := rfl
  order := rfl
  slot := rfl
  turns := Nat.le_refl _
  entries := Nat.le_refl _
  turn _ ht := absurd ht (Record.ownTurn_of_unnamed h.turn)
  entry _ he := absurd he (Record.ownEntries_of_nil h.entries)
  stable := by
    show r.stableQueueEntryIDs.Nodup
    simp [h.entries]
  unnamed _ := h.turn
  state := Or.inr rfl

/-- A preparation that reserves the next turn name, for a record that brings no queue entry. -/
theorem admits_turn (h : r.Fresh) (hmethod : r.method ≠ .queue) {x : ExecutionState}
    {ids : List String} (hids : ids.Nodup) (hjournal : s'.journal = s.journal)
    (hpending : s'.pendingExecutions = s.pendingExecutions) (hqueue : s'.inputQueue = s.inputQueue)
    (horder : s'.steeringOrder = s.steeringOrder) (hslot : s'.activeTurnID = s.activeTurnID)
    (hturns : s'.nextTurnSequence = s.nextTurnSequence + 1)
    (hentries : s'.nextQueueEntrySequence = s.nextQueueEntrySequence) :
    Admits s s' r
      { r with
        stableTurnID := clientMutationTurnID (s.nextTurnSequence + 1)
        stableQueueEntryIDs := ids
        executionState := x } where
  key := rfl
  method := rfl
  journal := hjournal
  pending := hpending
  queue := hqueue
  order := horder
  slot := hslot
  turns := by omega
  entries := by omega
  turn t ht := ⟨hturns, by rw [hturns]; exact (Record.ownTurn_eq_some.mp ht).2.2.symm⟩
  entry _ he := by simp [Record.ownEntries, hmethod] at he
  stable := hids
  unnamed hq := absurd hq hmethod
  state := Or.inl h.state

theorem prepareStart_admits {recoveredTurnID : String} (h : r.Fresh) (hmethod : r.method = .start) :
    Admits s (prepareStart cfg recoveredTurnID params s r).1 r
      (prepareStart cfg recoveredTurnID params s r).2 := by
  unfold prepareStart
  split
  · exact admits_reject h _ _
  · split
    · exact admits_reject h _ _
    · split
      · exact admits_reject h _ _
      · exact admits_turn h (by simp [hmethod]) (h.entries ▸ List.nodup_nil :) rfl rfl rfl rfl rfl rfl
          rfl

theorem prepareQueue_admits (h : r.Fresh) :
    Admits s (prepareQueue cfg params s r).1 r (prepareQueue cfg params s r).2 := by
  unfold prepareQueue
  split
  · exact admits_reject h _ _
  · split
    · exact admits_reject h _ _
    · refine ⟨rfl, rfl, rfl, rfl, rfl, rfl, rfl, Nat.le_refl _, Nat.le_succ _, ?_, ?_,
        List.nodup_singleton _, fun _ => h.turn, Or.inl h.state⟩
      · intro t ht
        exact absurd h.turn (Record.ownTurn_eq_some.mp ht).2.1
      · intro ids hids
        refine ⟨rfl, ?_⟩
        unfold Record.ownEntries at hids
        split at hids
        · exact (some.inj hids).symm
        · simp at hids

theorem prepareSteer_admits (h : r.Fresh) (hmethod : r.method = .steer) :
    Admits s (prepareSteer params s r).1 r (prepareSteer params s r).2 := by
  unfold prepareSteer
  split
  · exact admits_reject h _ _
  · exact admits_turn h (by simp [hmethod]) (h.entries ▸ List.nodup_nil :) rfl rfl rfl rfl rfl rfl rfl

theorem prepareDrain_admits (h : r.Fresh) (hmethod : r.method = .drain)
    (hids : (s.inputQueue.map QueueEntry.id).Nodup) :
    Admits s (prepareDrain params s r).1 r (prepareDrain params s r).2 := by
  unfold prepareDrain
  split
  · exact admits_reject h _ _
  · split
    · exact admits_reject h _ _
    · split
      · exact admits_reject h _ _
      · exact admits_turn h (by simp [hmethod]) hids rfl rfl rfl rfl rfl rfl rfl

theorem preparePromote_admits (h : r.Fresh) (hmethod : r.method = .promote) :
    Admits s (preparePromote params s r).1 r (preparePromote params s r).2 := by
  unfold preparePromote
  split
  · exact admits_reject h _ _
  · exact admits_turn h (by simp [hmethod]) (List.nodup_singleton _) rfl rfl rfl rfl rfl rfl rfl

theorem prepareCancel_admits (h : r.Fresh) (hmethod : r.method = .cancel) :
    Admits s (prepareCancel params s r).1 r (prepareCancel params s r).2 := by
  unfold prepareCancel
  split
  · exact admits_reject h _ _
  · refine ⟨rfl, rfl, rfl, rfl, rfl, rfl, rfl, Nat.le_refl _, Nat.le_refl _, ?_, ?_,
      List.nodup_singleton _, fun _ => h.turn, Or.inl h.state⟩
    · intro t ht
      exact absurd h.turn (Record.ownTurn_eq_some.mp ht).2.1
    · intro ids hids
      simp [Record.ownEntries, hmethod] at hids

theorem prepareMethod_admits {recoveredTurnID : String} {method : InputMethod} (h : r.Fresh)
    (hmethod : r.method = method.method) (hids : (s.inputQueue.map QueueEntry.id).Nodup) :
    Admits s (prepareMethod cfg recoveredTurnID params method s r).1 r
      (prepareMethod cfg recoveredTurnID params method s r).2 := by
  cases method with
  | start => exact prepareStart_admits h hmethod
  | queue => exact prepareQueue_admits h
  | steer => exact prepareSteer_admits h hmethod
  | drain => exact prepareDrain_admits h hmethod hids
  | promote => exact preparePromote_admits h hmethod
  | cancel => exact prepareCancel_admits h hmethod

theorem acceptClientMutationPrepare_admits {recoveredTurnID : String} {request : InputRequest}
    (h : r.Fresh) (hmethod : r.method = request.method.method)
    (hids : (s.inputQueue.map QueueEntry.id).Nodup) :
    Admits s (acceptClientMutationPrepare cfg recoveredTurnID request s r).1 r
      (acceptClientMutationPrepare cfg recoveredTurnID request s r).2 := by
  unfold acceptClientMutationPrepare
  split
  · exact admits_reject h _ _
  · have hprepared :
        Admits s (prepareMethod cfg recoveredTurnID request.params request.method s r).1 r
          (prepareMethod cfg recoveredTurnID request.params request.method s r).2 :=
      prepareMethod_admits h hmethod hids
    dsimp only
    split
    · exact hprepared
    · exact { hprepared with }

theorem prepareInterrupt_admits {running : Bool} (h : r.Fresh) (hmethod : r.method = .interrupt) :
    Admits s (prepareInterrupt running s r).1 r (prepareInterrupt running s r).2 := by
  unfold prepareInterrupt
  split
  · exact admits_reject h _ _
  · split
    · exact admits_reject h _ _
    · refine ⟨rfl, rfl, rfl, rfl, rfl, rfl, rfl, Nat.le_refl _, Nat.le_refl _, ?_, ?_,
        (h.entries ▸ List.nodup_nil :), fun hq => absurd hq (by simp [hmethod]), Or.inl h.state⟩
      · intro t ht
        exact absurd hmethod (Record.ownTurn_eq_some.mp ht).1
      · intro ids hids
        exact absurd hids (Record.ownEntries_of_nil h.entries)

/-- A new record takes its place in the journal, with nothing else. -/
theorem Inv.admission (h : Inv accepted s) (hnew : s.record? r.clientMutationID = none)
    (hadmits : Admits s s' r r') {r'' : Record} (hsame : r'' = World.nextAttempt r')
    (hfence : s'.interruptFence = s.interruptFence ∨
      (s'.interruptFence =
          some { clientMutationID := r'.clientMutationID, expectedTurnID := r'.stableTurnID } ∧
        r'.operationState = .inFlight ∧ r'.method = .interrupt ∧ r'.stableQueueEntryIDs = [])) :
    Inv accepted (s'.putRecord r'') ∧ s.Evolves (s'.putRecord r'') := by
  have hkey : r''.clientMutationID = r.clientMutationID := by
    rw [hsame]
    exact hadmits.key
  have hjournal : (s'.putRecord r'').journal = put Record.clientMutationID r'' s.journal := by
    show put Record.clientMutationID r'' s'.journal = _
    rw [hadmits.journal]
  have hrecord : ∀ j, (s'.putRecord r'').record? j =
      if r.clientMutationID = j then some r'' else s.record? j := by
    intro j
    rw [Snapshot.record?, hjournal, lookup_put, hkey]
    rfl
  have hunplaced : s.pending? r.clientMutationID = none ∧ s.entriesOf r.clientMutationID = [] ∧
      s.steeringOrder.count r.clientMutationID = 0 := by
    have hheld := h.held r.clientMutationID
    rw [Snapshot.Held, hnew] at hheld
    exact hheld.of_absent
  refine ⟨⟨?_, ?_, ?_, ?_, ?_, ?_, ?_, ?_, ?_⟩, ?_⟩
  · rw [hjournal]
    exact keysNodup_put h.journalKeys _
  · exact hadmits.pending ▸ h.pendingKeys
  · intro j
    have hpending : (s'.putRecord r'').pending? j = s.pending? j := by
      show lookup PendingMutation.clientMutationID j s'.pendingExecutions = _
      rw [hadmits.pending]
      rfl
    have hqueue : (s'.putRecord r'').entriesOf j = s.entriesOf j := by
      show s'.inputQueue.filter _ = _
      rw [hadmits.queue]
      rfl
    rw [Snapshot.Held, hrecord, hpending, hqueue,
      show (s'.putRecord r'').steeringOrder = s.steeringOrder from hadmits.order]
    split
    · next hj =>
      rw [← hj, hunplaced.1, hunplaced.2.1, hunplaced.2.2]
      refine .unplaced ?_
      rw [hsame]
      rcases hadmits.state with hs | hs <;> simp [World.nextAttempt, hs]
    · exact h.held j
  · rw [hjournal]
    refine h.turns.put clientMutationTurnID_inj hadmits.turns fun t ht => Or.inr ?_
    exact hadmits.turn t (by rw [hsame] at ht; exact ht)
  · rw [hjournal]
    refine h.entries.put (fun he => queueEntryID_inj (List.singleton_inj.mp he)) hadmits.entries
      fun ids hids => Or.inr ?_
    exact hadmits.entry ids (by rw [hsame] at hids; exact hids)
  · intro j r₀ hr₀
    rw [hrecord] at hr₀
    split at hr₀
    · obtain rfl := some.inj hr₀
      rw [hsame]
      exact hadmits.stable
    · exact h.stable hr₀
  · intro j r₀ hr₀ hqueued hflight
    rw [hrecord] at hr₀
    split at hr₀
    · obtain rfl := some.inj hr₀
      rw [hsame] at hqueued ⊢
      exact hadmits.unnamed hqueued
    · exact h.unnamed hr₀ hqueued hflight
  · intro f hf
    rw [hrecord]
    rcases hfence with hkept | ⟨hset, hflight, hmethod, hids⟩
    · obtain ⟨rf, hrf, hrest⟩ := h.fence (hkept ▸ (hf : s'.interruptFence = some f))
      refine ⟨rf, ?_, hrest⟩
      rw [if_neg]
      · exact hrf
      · intro hj
        rw [← hj, hnew] at hrf
        simp at hrf
    · obtain rfl : _ = f := some.inj (hset.symm.trans hf)
      refine ⟨r'', if_pos hadmits.key.symm, ?_⟩
      rw [hsame]
      exact ⟨hflight, hmethod, rfl, hids⟩
  · intro j r₀ hq hr₀ hne
    have hq' : s.entriesOf j ≠ [] := by
      rw [← show (s'.putRecord r'').entriesOf j = s.entriesOf j by
        show s'.inputQueue.filter _ = _
        rw [hadmits.queue]
        rfl]
      exact hq
    rw [hrecord] at hr₀
    split at hr₀
    · next hj => exact absurd (hj ▸ hunplaced.2.1) hq'
    · show s'.activeTurnID ≠ _
      rw [hadmits.slot]
      exact h.slot hq' hr₀ hne
  · refine Snapshot.Evolves.of_put hjournal fun r₀ hr₀ => ?_
    rw [hkey, hnew] at hr₀
    simp at hr₀

/-- Another attempt at a record in flight. -/
theorem Inv.reattempt (h : Inv accepted s) (hr : s.record? id = some r)
    (hflight : r.operationState = .inFlight) :
    Inv accepted (s.putRecord (World.nextAttempt r)) ∧
      s.Evolves (s.putRecord (World.nextAttempt r)) := by
  have hkey : (World.nextAttempt r).clientMutationID = id := (s.key_of_record? hr :)
  have hlook : s.record? (World.nextAttempt r).clientMutationID = some r := hkey ▸ hr
  -- every record reads as before but for its attempt
  have hrecord : ∀ {j r₀}, (s.putRecord (World.nextAttempt r)).record? j = some r₀ →
      ∃ r₁, s.record? j = some r₁ ∧ (r₀ = r₁ ∨ r₀ = World.nextAttempt r₁) := by
    intro j r₀ hr₀
    rw [s.record?_putRecord] at hr₀
    split at hr₀
    · next hj => exact ⟨r, hj ▸ hlook, Or.inr (some.inj hr₀).symm⟩
    · exact ⟨r₀, hr₀, Or.inl rfl⟩
  refine ⟨⟨keysNodup_put h.journalKeys _, h.pendingKeys, ?_, ?_, ?_, ?_, ?_, ?_, ?_⟩, ?_⟩
  · intro j
    show Custody _ ((s.putRecord (World.nextAttempt r)).record? j) (s.pending? j) (s.entriesOf j)
      (s.steeringOrder.count j)
    rw [s.record?_putRecord]
    split
    · next hj =>
      have hj : id = j := hkey.symm.trans hj
      obtain ⟨hp, he, ho⟩ := (h.held_record (hj ▸ hr)).of_not_applied (by simp [hflight])
      rw [hp, he, ho]
      exact .unplaced (by simp [World.nextAttempt, hflight])
    · exact h.held j
  · exact h.turns.put clientMutationTurnID_inj (Nat.le_refl _) fun _ hname => Or.inl ⟨r, hlook, hname⟩
  · exact h.entries.put (fun he => queueEntryID_inj (List.singleton_inj.mp he)) (Nat.le_refl _)
      fun _ hname => Or.inl ⟨r, hlook, hname⟩
  · intro j r₀ hr₀
    obtain ⟨r₁, hr₁, rfl | rfl⟩ := hrecord hr₀ <;> exact (h.stable hr₁ :)
  · intro j r₀ hr₀ hqueued hs
    obtain ⟨r₁, hr₁, rfl | rfl⟩ := hrecord hr₀ <;> exact (h.unnamed hr₁ hqueued hs :)
  · intro f hf
    obtain ⟨rf, hrf, hrest⟩ := h.fence hf
    rw [s.record?_putRecord]
    split
    · next hid =>
      obtain rfl : r = rf := some.inj (hlook.symm.trans (hid ▸ hrf))
      exact ⟨World.nextAttempt r, rfl, hrest⟩
    · exact ⟨rf, hrf, hrest⟩
  · intro j r₀ hq hr₀ hne
    obtain ⟨r₁, hr₁, rfl | rfl⟩ := hrecord hr₀ <;> exact (h.slot hq hr₁ hne :)
  · refine @Snapshot.Evolves.of_put s _ (World.nextAttempt r) rfl fun r₀ hr₀ => ?_
    obtain rfl : r = r₀ := some.inj (hlook.symm.trans hr₀)
    exact ⟨rfl, rfl, fun _ => rfl, fun _ => rfl, fun hs => hs, fun hs => ⟨hs, rfl⟩⟩

theorem Inv.reattempt_kept (h : Inv accepted s) (hr : s.record? id = some r)
    (hflight : r.operationState = .inFlight) :
    Kept accepted s (s.putRecord (World.nextAttempt r)) :=
  ⟨(h.reattempt hr hflight).1, (h.reattempt hr hflight).2, rfl, rfl, fun _ hid => hid, Or.inl⟩

end Evener.ClientMutation
