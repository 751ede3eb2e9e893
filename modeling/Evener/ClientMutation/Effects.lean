/-
  The effect of a mutation gives its record the one place its input has from then on.

  A drain, a promotion and a cancellation first consume the queue entries they reserved, or reject
  their own record when one is gone.
-/
import Evener.ClientMutation.Admission

namespace Evener.ClientMutation

open Evener.Lib List

variable {accepted accepted' : String → Option Input} {s s' : Snapshot} {id : String}
  {r r' : Record} {cfg : Config} {params : Params}
  (haccepted : ∀ {j}, j ≠ r.clientMutationID → accepted' j = accepted j)

/-- What an effect commits: the record is settled or placed, and the holds end only where queued
    input, a drain or a promotion is applied. -/
structure Applies (accepted' : String → Option Input) (s : Snapshot) (r : Record) (s' : Snapshot)
    (r' : Record) : Prop where
  inv : Inv accepted' (s'.putRecord r')
  evolves : s.Evolves (s'.putRecord r')
  key : r'.clientMutationID = r.clientMutationID
  settled : r'.operationState ≠ .inFlight
  fence : s'.interruptFence = s.interruptFence
  order : ∀ j ∈ s'.steeringOrder, j ∈ s.steeringOrder ∨ j = r.clientMutationID
  holds : s'.queueHeld = s.queueHeld ∧ s'.steeringHeld = s.steeringHeld ∨
    r'.operationState = .applied ∧
      (r.method = .queue ∨ r.method = .drain ∨ r.method = .promote)

/-- The fence and the counters of names stay. -/
abbrev SameNames (s s' : Snapshot) : Prop :=
  s'.interruptFence = s.interruptFence ∧ s'.nextTurnSequence = s.nextTurnSequence ∧
    s'.nextQueueEntrySequence = s.nextQueueEntrySequence

/-- The record an effect runs on. -/
structure InFlight (s : Snapshot) (r : Record) : Prop where
  record : s.record? r.clientMutationID = some r
  state : r.operationState = .inFlight

namespace InFlight

/-- Nothing holds a record in flight. -/
theorem unplaced (hf : InFlight s r) (h : Inv accepted s) :
    s.pending? r.clientMutationID = none ∧ s.entriesOf r.clientMutationID = [] ∧
      s.steeringOrder.count r.clientMutationID = 0 :=
  (h.held_record hf.record).of_not_applied (by simp [hf.state])

theorem carries (hf : InFlight s r) (hmethod : r'.method = r.method)
    (hhash : r'.payloadHash = r.payloadHash)
    (hentries : r'.stableQueueEntryIDs = r.stableQueueEntryIDs) : r.Carries r' :=
  ⟨hmethod, hhash, hentries, by simp [hf.state], fun hs => absurd hf.state hs⟩

variable {entries : List QueueEntry}

include haccepted

/-- The record in flight takes its place: a pending execution, queue entries, places in the
    steering order, or none of them. -/
theorem place (p' : Option PendingMutation) {places : List String} (hf : InFlight s r)
    (h : Inv accepted s) (hinterrupt : r.method ≠ .interrupt)
    (hkey : r'.clientMutationID = r.clientMutationID) (hcarries : r.Carries r')
    (hturn : r'.stableTurnID = r.stableTurnID) (hstate : r'.operationState ≠ .inFlight)
    (hjournal : s'.journal = put Record.clientMutationID r' s.journal)
    (hpending : s'.pendingExecutions = match p' with
      | none => s.pendingExecutions
      | some p => put PendingMutation.clientMutationID p s.pendingExecutions)
    (hpkey : ∀ p ∈ p', p.clientMutationID = r.clientMutationID)
    (hqueue : s'.inputQueue = s.inputQueue ++ entries)
    (hentries : ∀ e ∈ entries, e.clientMutationID = r.clientMutationID)
    (horder : s'.steeringOrder = s.steeringOrder ++ places)
    (hplaces : ∀ j ∈ places, j = r.clientMutationID)
    (hrest : SameNames s s')
    (hslot : s'.activeTurnID = s.activeTurnID ∨ s'.activeTurnID = r.stableTurnID)
    (hwaiting : entries ≠ [] → r.stableTurnID = "")
    (hcustody : Custody (accepted' r.clientMutationID) (some r') p' entries places.length) :
    Inv accepted' s' ∧ s.Evolves s' := by
  obtain ⟨hnone, hnoEntry, hnoPlace⟩ := hf.unplaced h
  have hpend : ∀ j, s'.pending? j =
      if j = r.clientMutationID then p' else s.pending? j := by
    intro j
    rw [Snapshot.pending?, hpending]
    cases p' with
    | none =>
      by_cases hj : j = r.clientMutationID
      · rw [if_pos hj, hj]
        exact hnone
      · rw [if_neg hj]
        rfl
    | some p =>
      rw [lookup_put, hpkey p rfl]
      simp only [eq_comm]
      rfl
  have hq : ∀ j, s'.entriesOf j = if j = r.clientMutationID then entries else s.entriesOf j := by
    intro j
    have hsplit : s'.entriesOf j = s.entriesOf j ++
        entries.filter fun e => e.clientMutationID = j := by
      rw [Snapshot.entriesOf, hqueue, filter_append]
      rfl
    rw [hsplit]
    split
    · next hj =>
      rw [hj, hnoEntry, nil_append, filter_eq_self]
      simpa using hentries
    · next hj =>
      have hnil : (entries.filter fun e => e.clientMutationID = j) = [] := by
        rw [filter_eq_nil_iff]
        intro e he
        rw [hentries e he]
        simpa using Ne.symm hj
      rw [hnil, append_nil]
  have ho : ∀ j, s'.steeringOrder.count j =
      if j = r.clientMutationID then places.length else s.steeringOrder.count j := by
    intro j
    rw [horder, count_append]
    split
    · next hj =>
      have hall : places.count j = places.length := by
        rw [count_eq_length]
        intro k hk
        rw [hplaces k hk, hj]
      rw [hall, hj, hnoPlace, Nat.zero_add]
    · next hj =>
      have hnone : places.count j = 0 :=
        count_eq_zero_of_not_mem fun hk => hj (hplaces j hk)
      rw [hnone, Nat.add_zero]
  have hkeys : KeysNodup PendingMutation.clientMutationID s'.pendingExecutions := by
    rw [hpending]
    cases p' with
    | none => exact h.pendingKeys
    | some p => exact keysNodup_put h.pendingKeys p
  have hmoves : Moves s s' r' := by
    refine ⟨hjournal, hkeys, ?_, ?_, ?_, hrest.1⟩
    · intro j hj
      rw [hpend, if_neg (hkey ▸ hj)]
    · intro j hj
      rw [hq, if_neg (hkey ▸ hj)]
    · intro j hj
      rw [ho, if_neg (hkey ▸ hj)]
  have hheld : s'.Held accepted' r.clientMutationID := by
    rw [Snapshot.Held, hmoves.record?, if_pos hkey, hpend, if_pos rfl, hq, if_pos rfl, ho, if_pos rfl]
    exact hcustody
  refine h.move hmoves (hkey ▸ hf.record) hcarries hinterrupt hrest.2.2 (Or.inl ⟨hturn, hrest.2.1⟩)
    (fun _ hs => absurd hs hstate) (hkey ▸ haccepted) (hkey ▸ hheld) ?_ ?_
  · rw [hturn]
    exact hslot.imp_right Or.inr
  · intro hne hnamed
    rw [hkey, hq, if_pos rfl] at hne
    exact absurd (hturn.trans (hwaiting hne)) hnamed

/-- The effect of a record that is then held by a pending execution. -/
theorem applies_pending {p : PendingMutation} {places : List String} (hf : InFlight s r)
    (h : Inv accepted s) (hinterrupt : r.method ≠ .interrupt)
    (hr' : r'.clientMutationID = r.clientMutationID ∧ r'.method = r.method ∧
      r'.payloadHash = r.payloadHash ∧ r'.stableQueueEntryIDs = r.stableQueueEntryIDs ∧
      r'.stableTurnID = r.stableTurnID ∧ r'.operationState = .applied)
    (hjournal : s'.journal = s.journal)
    (hpending : s'.pendingExecutions = put PendingMutation.clientMutationID p s.pendingExecutions)
    (hpkey : p.clientMutationID = r.clientMutationID) (hqueue : s'.inputQueue = s.inputQueue)
    (horder : s'.steeringOrder = s.steeringOrder ++ places)
    (hplaces : ∀ j ∈ places, j = r.clientMutationID)
    (hrest : SameNames s s')
    (hslot : s'.activeTurnID = s.activeTurnID ∨ s'.activeTurnID = r.stableTurnID)
    (hholds : s'.queueHeld = s.queueHeld ∧ s'.steeringHeld = s.steeringHeld ∨
      r.method = .queue ∨ r.method = .drain ∨ r.method = .promote)
    (hcustody : Custody (accepted' r.clientMutationID) (some r') (some p) [] places.length) :
    Applies accepted' s r s' r' := by
  obtain ⟨hkey, hmethod, hhash, hentries, hturn, hstate⟩ := hr'
  have hplaced : Inv accepted' (s'.putRecord r') ∧ s.Evolves (s'.putRecord r') :=
    place haccepted (some p) hf h hinterrupt hkey (hf.carries hmethod hhash hentries) hturn (by simp [hstate])
      (congrArg _ hjournal) hpending (fun _ hp => Option.some.inj hp ▸ hpkey)
      (hqueue.trans (append_nil _).symm) (by simp) horder hplaces hrest hslot
      (fun hne => absurd rfl hne) hcustody
  refine ⟨hplaced.1, hplaced.2, hkey, by simp [hstate], hrest.1, ?_, ?_⟩
  · intro j hj
    rw [horder, mem_append] at hj
    exact hj.imp_right (hplaces j)
  · exact hholds.imp_right fun hm => ⟨hstate, hm⟩

/-- The effect of a record that no pending execution holds. -/
theorem applies_entries (hf : InFlight s r) (h : Inv accepted s)
    (hinterrupt : r.method ≠ .interrupt)
    (hr' : r'.clientMutationID = r.clientMutationID ∧ r'.method = r.method ∧
      r'.payloadHash = r.payloadHash ∧ r'.stableQueueEntryIDs = r.stableQueueEntryIDs ∧
      r'.stableTurnID = r.stableTurnID ∧ r'.operationState ≠ .inFlight)
    (hjournal : s'.journal = s.journal) (hpending : s'.pendingExecutions = s.pendingExecutions)
    (hqueue : s'.inputQueue = s.inputQueue ++ entries)
    (hentries : ∀ e ∈ entries, e.clientMutationID = r.clientMutationID)
    (horder : s'.steeringOrder = s.steeringOrder)
    (hrest : SameNames s s')
    (hslot : s'.activeTurnID = s.activeTurnID) (hwaiting : entries ≠ [] → r.stableTurnID = "")
    (hholds : s'.queueHeld = s.queueHeld ∧ s'.steeringHeld = s.steeringHeld ∨
      r'.operationState = .applied ∧ (r.method = .queue ∨ r.method = .drain ∨ r.method = .promote))
    (hcustody : Custody (accepted' r.clientMutationID) (some r') none entries 0) :
    Applies accepted' s r s' r' := by
  obtain ⟨hkey, hmethod, hhash, hids, hturn, hstate⟩ := hr'
  have hplaced : Inv accepted' (s'.putRecord r') ∧ s.Evolves (s'.putRecord r') :=
    place haccepted none hf h hinterrupt hkey (hf.carries hmethod hhash hids) hturn hstate
      (congrArg _ hjournal) hpending (by simp) hqueue hentries
      (horder.trans (append_nil _).symm) (by simp) hrest (Or.inl hslot) hwaiting hcustody
  refine ⟨hplaced.1, hplaced.2, hkey, hstate, hrest.1, ?_, hholds⟩
  intro j hj
  exact Or.inl (horder ▸ hj)

/-- A rejection in place of the effect. -/
theorem reject (hf : InFlight s r) (h : Inv accepted s) (hinterrupt : r.method ≠ .interrupt)
    (error : WireErrorKind) (message : String) :
    Applies accepted' s r s (rejectClientMutation r error message) :=
  hf.applies_entries haccepted h hinterrupt ⟨rfl, rfl, rfl, rfl, rfl, by simp [rejectClientMutation]⟩
    rfl rfl (append_nil _).symm (by simp) rfl ⟨rfl, rfl, rfl⟩ rfl (fun hne => absurd rfl hne)
    (Or.inl ⟨rfl, rfl⟩) (.unplaced (by simp [rejectClientMutation]))

end InFlight

/-! ## Starts and queued input -/

section Placed

include haccepted

theorem effectStart_applies (h : Inv accepted s) (hf : InFlight s r) (hmethod : r.method = .start)
    (hinput : accepted' r.clientMutationID = some params.input)
    (heffect : effectStart cfg params s r = some (s', r')) : Applies accepted' s r s' r' := by
  simp only [effectStart, Option.some.injEq, Prod.mk.injEq] at heffect
  obtain ⟨rfl, rfl⟩ := heffect
  -- the slot is free and taken by this turn, or kept
  by_cases hfree : s.activeTurnID = ""
  · rw [if_pos hfree]
    exact hf.applies_pending haccepted h (by simp [hmethod]) ⟨rfl, rfl, rfl, rfl, rfl, rfl⟩ rfl rfl rfl
      rfl (append_nil _).symm (by simp) ⟨rfl, rfl, rfl⟩ (Or.inr rfl) (Or.inl ⟨rfl, rfl⟩)
      (.start rfl hmethod hmethod rfl hinput)
  · rw [if_neg hfree]
    exact hf.applies_pending haccepted h (by simp [hmethod]) ⟨rfl, rfl, rfl, rfl, rfl, rfl⟩ rfl rfl rfl
      rfl (append_nil _).symm (by simp) ⟨rfl, rfl, rfl⟩ (Or.inl rfl) (Or.inl ⟨rfl, rfl⟩)
      (.start rfl hmethod hmethod rfl hinput)

theorem effectQueue_applies (h : Inv accepted s) (hf : InFlight s r) (hmethod : r.method = .queue)
    (hinput : accepted' r.clientMutationID = some params.input)
    (heffect : effectQueue cfg params s r = some (s', r')) : Applies accepted' s r s' r' := by
  obtain ⟨entryID, hhead, heffect⟩ := Option.bind_eq_some_iff.mp heffect
  simp only [Option.pure_def, Option.some.injEq, Prod.mk.injEq] at heffect
  obtain ⟨rfl, rfl⟩ := heffect
  -- a queue record reserved exactly one entry id
  have hids : r.stableQueueEntryIDs = [entryID] := by
    have hne : r.stableQueueEntryIDs ≠ [] := by
      intro he
      simp [he] at hhead
    obtain ⟨k, _, hk⟩ := h.entries.issued hf.record
      (show r.ownEntries = some r.stableQueueEntryIDs by simp [Record.ownEntries, hmethod, hne])
    rw [hk] at hhead ⊢
    rw [Option.some.inj hhead]
  exact hf.applies_entries haccepted h (by simp [hmethod])
    ⟨rfl, rfl, rfl, rfl, rfl, by simp [applyClientMutationRecord]⟩ rfl rfl rfl (by simp) rfl
    ⟨rfl, rfl, rfl⟩ rfl (fun _ => h.unnamed hf.record hmethod hf.state)
    (Or.inr ⟨rfl, Or.inl hmethod⟩) (.queued rfl hmethod hids hinput)

/-! ## Steering -/

theorem effectSteer_applies (h : Inv accepted s) (hf : InFlight s r) (hmethod : r.method = .steer)
    (heffect : effectSteer cfg params s r = some (s', r')) : Applies accepted' s r s' r' := by
  simp only [effectSteer, Option.some.injEq, Prod.mk.injEq] at heffect
  obtain ⟨rfl, rfl⟩ := heffect
  exact hf.applies_pending haccepted h (by simp [hmethod]) ⟨rfl, rfl, rfl, rfl, rfl, rfl⟩ rfl rfl rfl
    rfl rfl (by simp) ⟨rfl, rfl, rfl⟩ (Or.inl rfl) (Or.inl ⟨rfl, rfl⟩)
    (.steering rfl (by simp [applyClientMutationRecord, hmethod, isSteering]) rfl rfl rfl)

end Placed

/-! ## Consuming the reserved entries -/

theorem removeQueuedMutationSource_inputQueue (s : Snapshot) (entry : QueueEntry)
    (x : ExecutionState) (queue : List QueueEntry) :
    removeQueuedMutationSource { s with inputQueue := queue } entry x =
      { removeQueuedMutationSource s entry x with inputQueue := queue } := by
  cases hr : s.record? entry.clientMutationID with
  | none =>
    rw [removeQueuedMutationSource_none hr,
      @removeQueuedMutationSource_none { s with inputQueue := queue } x entry hr]
    rfl
  | some r =>
    rw [removeQueuedMutationSource_eq hr,
      @removeQueuedMutationSource_eq { s with inputQueue := queue } r x entry hr]
    rfl

theorem foldl_consumeEntry (x : ExecutionState) (entries : List QueueEntry) (s : Snapshot) :
    entries.foldl (consumeEntry x) s =
      { entries.foldl (fun s entry => removeQueuedMutationSource s entry x) s with
        inputQueue := s.inputQueue.filter fun other => other.id ∉ entries.map QueueEntry.id } := by
  -- the queue a removal leaves is the one it was given
  have hqueue : ∀ (entries : List QueueEntry) (s : Snapshot) (queue : List QueueEntry),
      entries.foldl (fun s entry => removeQueuedMutationSource s entry x)
          { s with inputQueue := queue } =
        { entries.foldl (fun s entry => removeQueuedMutationSource s entry x) s with
          inputQueue := queue } := by
    intro entries
    induction entries with
    | nil => exact fun _ _ => rfl
    | cons entry entries ih =>
      intro s queue
      rw [foldl_cons, removeQueuedMutationSource_inputQueue, ih, foldl_cons]
  induction entries generalizing s with
  | nil => simp
  | cons entry entries ih =>
    have hfilter : ((s.inputQueue.filter fun other => other.id ≠ entry.id).filter
          fun other => other.id ∉ entries.map QueueEntry.id) =
        s.inputQueue.filter fun other => other.id ∉ (entry :: entries).map QueueEntry.id := by
      rw [filter_filter]
      refine filter_congr fun other _ => ?_
      simp only [map_cons, mem_cons, not_or, ne_eq, Bool.decide_and]
      exact Bool.and_comm _ _
    rw [foldl_cons, ih, consumeEntry_inputQueue, hfilter, foldl_cons, consumeEntry,
      removeQueuedMutationSource_inputQueue, hqueue]

theorem takeClientMutationQueueEntries_spec {queue remaining : List QueueEntry} {ids : List String}
    (h : takeClientMutationQueueEntries queue ids = some (entries, remaining)) :
    entries.map QueueEntry.id = ids ∧ (∀ entry ∈ entries, entry ∈ queue) ∧
      remaining = queue.filter fun entry => entry.id ∉ ids := by
  unfold takeClientMutationQueueEntries at h
  obtain ⟨selected, hselected, hpair⟩ := Option.map_eq_some_iff.mp h
  simp only [Prod.mk.injEq] at hpair
  obtain ⟨rfl, rfl⟩ := hpair
  refine ⟨?_, ?_, rfl⟩
  all_goals
    clear h
    induction ids generalizing selected with
    | nil =>
      obtain rfl := Option.some.inj hselected
      simp
    | cons id ids ih =>
      rw [mapM_cons] at hselected
      obtain ⟨entry, hentry, hselected⟩ := Option.bind_eq_some_iff.mp hselected
      obtain ⟨rest, hrest, hselected⟩ := Option.bind_eq_some_iff.mp hselected
      obtain rfl := Option.some.inj hselected
      have hfound := find?_some hentry
      have hmem := mem_of_find?_eq_some hentry
      simp_all

/-- What is done before the effect proper leaves its conclusion standing. -/
theorem Applies.after {s₁ : Snapshot} (hevolves : s.Evolves s₁)
    (hfence : s₁.interruptFence = s.interruptFence) (horder : s₁.steeringOrder = s.steeringOrder)
    (h : Applies accepted' s₁ r s' r')
    (hholds : s'.queueHeld = s.queueHeld ∧ s'.steeringHeld = s.steeringHeld ∨
      r'.operationState = .applied ∧ (r.method = .queue ∨ r.method = .drain ∨ r.method = .promote)) :
    Applies accepted' s r s' r' where
  inv := h.inv
  evolves := hevolves.trans h.evolves
  key := h.key
  settled := h.settled
  fence := h.fence.trans hfence
  order := horder ▸ h.order
  holds := hholds

theorem Inv.releaseHolds (h : Inv accepted s) : Inv accepted (releaseHolds s) :=
  h.frame rfl rfl rfl rfl rfl (Nat.le_refl _) rfl h.slot

theorem InFlight.of_consumes {s₁ : Snapshot} (hf : InFlight s r) (h : Inv accepted s)
    (hc : Consumes accepted s s₁) : InFlight s₁ r := by
  refine ⟨?_, hf.state⟩
  rw [(hc.others ?_).1]
  · exact hf.record
  · intro entry he hkey
    have hmem : entry ∈ s.entriesOf r.clientMutationID := s.mem_entriesOf.mpr ⟨he, hkey⟩
    rw [(hf.unplaced h).2.1] at hmem
    simp at hmem

include haccepted in
theorem effectDrain_applies (h : Inv accepted s) (hf : InFlight s r) (hmethod : r.method = .drain)
    (heffect : effectDrain cfg params s r = some (s', r')) : Applies accepted' s r s' r' := by
  unfold effectDrain at heffect
  split at heffect
  · simp only [Option.some.injEq, Prod.mk.injEq] at heffect
    obtain ⟨rfl, rfl⟩ := heffect
    exact hf.reject haccepted h (by simp [hmethod]) _ _
  · next entries remaining htake =>
    obtain ⟨hids, hmem, hremaining⟩ := takeClientMutationQueueEntries_spec htake
    simp only [Option.some.injEq, Prod.mk.injEq] at heffect
    obtain ⟨rfl, rfl⟩ := heffect
    have hc : Consumes accepted (releaseHolds s)
        (entries.foldl (consumeEntry .transformed) (releaseHolds s)) :=
      h.releaseHolds.consumeAll hmem (hids ▸ h.stable hf.record)
    have hf₁ := InFlight.of_consumes (s := releaseHolds s) ⟨hf.record, hf.state⟩ h.releaseHolds hc
    rw [foldl_consumeEntry] at hc hf₁
    have hremaining' : ((releaseHolds s).inputQueue.filter
        fun other => other.id ∉ entries.map QueueEntry.id) = remaining := by
      rw [hids, hremaining]
      rfl
    rw [hremaining'] at hc hf₁
    refine Applies.after (Snapshot.Evolves.trans (.of_journal rfl) hc.evolves) hc.fence hc.order
      (hf₁.applies_pending haccepted hc.inv (by simp [hmethod]) ⟨rfl, rfl, rfl, rfl, rfl, rfl⟩ rfl rfl
        rfl rfl rfl (by simp) ⟨rfl, rfl, rfl⟩ (Or.inl rfl) (Or.inl ⟨rfl, rfl⟩)
        (.steering rfl (by simp [applyClientMutationRecord, hmethod, isSteering]) rfl rfl rfl))
      (Or.inr ⟨rfl, Or.inr (Or.inl hmethod)⟩)

/-- Entry ids are distinct, so dropping the first entry of an id drops them all. -/
theorem dropQueueEntry_eq_filter {queue : List QueueEntry} {entryID : String}
    (h : (queue.map QueueEntry.id).Nodup) :
    dropQueueEntry queue entryID = queue.filter fun entry => entry.id ≠ entryID := by
  unfold dropQueueEntry
  induction queue with
  | nil => rfl
  | cons entry queue ih =>
    rw [map_cons, nodup_cons] at h
    by_cases hid : entry.id = entryID
    · rw [eraseP_cons_of_pos (by simpa using hid), filter_cons_of_neg (by simpa using hid)]
      refine (filter_eq_self.mpr fun other hother => ?_).symm
      have hne : other.id ≠ entryID := fun he =>
        h.1 (hid.trans he.symm ▸ mem_map_of_mem hother)
      simpa using hne
    · rw [eraseP_cons_of_neg (by simpa using hid), filter_cons_of_pos (by simpa using hid),
        ih h.2]

/-- The entry a promotion or a cancellation found, consumed. -/
theorem consumes_selected {x : ExecutionState} {entry : QueueEntry} {entryID : String}
    (h : Inv accepted s) (hfind : findClientMutationQueueEntry s.inputQueue entryID = some entry) :
    Consumes accepted s (removeQueuedMutationSource
      { s with inputQueue := dropQueueEntry s.inputQueue entryID } entry x) := by
  have hid : entry.id = entryID := by simpa using find?_some hfind
  have hconsume : Consumes accepted s (consumeEntry x s entry) :=
    h.consume (mem_of_find?_eq_some hfind)
  rw [consumeEntry, hid] at hconsume
  rw [dropQueueEntry_eq_filter h.queue_ids_nodup]
  exact hconsume

include haccepted in
theorem effectPromote_applies (h : Inv accepted s) (hf : InFlight s r)
    (hmethod : r.method = .promote)
    (heffect : effectPromote cfg s r = some (s', r')) : Applies accepted' s r s' r' := by
  obtain ⟨entryID, hhead, heffect⟩ := Option.bind_eq_some_iff.mp heffect
  split at heffect
  · simp only [Option.pure_def, Option.some.injEq, Prod.mk.injEq] at heffect
    obtain ⟨rfl, rfl⟩ := heffect
    exact hf.reject haccepted h (by simp [hmethod]) _ _
  · next entry hfind =>
    simp only [Option.pure_def, Option.some.injEq, Prod.mk.injEq] at heffect
    obtain ⟨rfl, rfl⟩ := heffect
    have hinv : Inv accepted { releaseHolds s with queueRevision := s.queueRevision + 1 } :=
      h.frame rfl rfl rfl rfl rfl (Nat.le_refl _) rfl h.slot
    have hc := consumes_selected (x := .transformed) hinv hfind
    have hf₁ := InFlight.of_consumes
      (s := { releaseHolds s with queueRevision := s.queueRevision + 1 })
      ⟨hf.record, hf.state⟩ hinv hc
    refine Applies.after (Snapshot.Evolves.trans (.of_journal rfl) hc.evolves) hc.fence hc.order
      (hf₁.applies_pending haccepted hc.inv (by simp [hmethod]) ⟨rfl, rfl, rfl, rfl, rfl, rfl⟩ rfl rfl
        rfl rfl rfl (by simp) ⟨rfl, rfl, rfl⟩ (Or.inl rfl) (Or.inl ⟨rfl, rfl⟩)
        (.steering rfl (by simp [applyClientMutationRecord, hmethod, isSteering]) rfl rfl rfl))
      (Or.inr ⟨rfl, Or.inr (Or.inr hmethod)⟩)

include haccepted in
theorem effectCancel_applies (h : Inv accepted s) (hf : InFlight s r) (hmethod : r.method = .cancel)
    (heffect : effectCancel cfg s r = some (s', r')) : Applies accepted' s r s' r' := by
  obtain ⟨entryID, hhead, heffect⟩ := Option.bind_eq_some_iff.mp heffect
  split at heffect
  · simp only [Option.pure_def, Option.some.injEq, Prod.mk.injEq] at heffect
    obtain ⟨rfl, rfl⟩ := heffect
    exact hf.reject haccepted h (by simp [hmethod]) _ _
  · next entry hfind =>
    simp only [Option.pure_def, Option.some.injEq, Prod.mk.injEq] at heffect
    obtain ⟨rfl, rfl⟩ := heffect
    have hinv : Inv accepted { s with queueRevision := s.queueRevision + 1 } :=
      (queueRevision_kept h _).inv
    have hc := consumes_selected (x := .canceled) hinv hfind
    have hf₁ := InFlight.of_consumes (s := { s with queueRevision := s.queueRevision + 1 })
      ⟨hf.record, hf.state⟩ hinv hc
    refine Applies.after (Snapshot.Evolves.trans (.of_journal rfl) hc.evolves) hc.fence hc.order
      (hf₁.applies_entries haccepted hc.inv (by simp [hmethod]) ⟨rfl, rfl, rfl, rfl, rfl, by simp⟩ rfl
        rfl (append_nil _).symm (by simp) rfl ⟨rfl, rfl, rfl⟩ rfl (fun hne => absurd rfl hne)
        (Or.inl ⟨rfl, rfl⟩) (.unplaced (by simp)))
      (Or.inl hc.holds)

include haccepted in
theorem effectMethod_applies {method : InputMethod} (h : Inv accepted s) (hf : InFlight s r)
    (hmethod : r.method = method.method)
    (hinput : accepted' r.clientMutationID = some params.input)
    (heffect : effectMethod cfg params method s r = some (s', r')) :
    Applies accepted' s r s' r' := by
  cases method with
  | start => exact effectStart_applies haccepted h hf hmethod hinput heffect
  | queue => exact effectQueue_applies haccepted h hf hmethod hinput heffect
  | steer => exact effectSteer_applies haccepted h hf hmethod heffect
  | drain => exact effectDrain_applies haccepted h hf hmethod heffect
  | promote => exact effectPromote_applies haccepted h hf hmethod heffect
  | cancel => exact effectCancel_applies haccepted h hf hmethod heffect

end Evener.ClientMutation
