/-
  Who holds an accepted input.

  `Custody` lists the places a mutation id may have in a snapshot. `Inv` adds what the names rest
  on: turn names and queue entry ids are reserved once, an open fence belongs to an interrupt in
  flight, and the slot never names a turn that waits in the queue.
-/
import Evener.ClientMutation.Store
import Evener.Lib.CheckedFold
import Evener.Lib.IssuedNames

namespace Evener.ClientMutation

open Evener.Lib Option

/-! ## Reading a snapshot after an update -/

namespace Snapshot

def entriesOf (s : Snapshot) (id : String) : List QueueEntry :=
  s.inputQueue.filter fun entry => entry.clientMutationID = id

variable (s : Snapshot)

theorem record?_putRecord (record : Record) (id : String) :
    (s.putRecord record).record? id =
      if record.clientMutationID = id then some record else s.record? id :=
  lookup_put record s.journal id

theorem pending?_putPending (pending : PendingMutation) (id : String) :
    (s.putPending pending).pending? id =
      if pending.clientMutationID = id then some pending else s.pending? id :=
  lookup_put pending s.pendingExecutions id

theorem pending?_deletePending (id id' : String) :
    (s.deletePending id).pending? id' = if id' = id then none else s.pending? id' :=
  lookup_erase id id' s.pendingExecutions

theorem key_of_record? {id : String} {record : Record} (h : s.record? id = some record) :
    record.clientMutationID = id := key_of_lookup h

theorem key_of_pending? {id : String} {pending : PendingMutation}
    (h : s.pending? id = some pending) : pending.clientMutationID = id := key_of_lookup h

theorem mem_entriesOf {id : String} {entry : QueueEntry} :
    entry ∈ s.entriesOf id ↔ entry ∈ s.inputQueue ∧ entry.clientMutationID = id := by
  simp [entriesOf]

end Snapshot

/-! ## Custody -/

def isSteering : Method → Bool
  | .steer | .drain | .promote => true
  | .start | .queue | .cancel | .interrupt => false

theorem not_isUserTurn {m : Method} (h : isSteering m = true) : isUserTurn m = false := by
  revert h
  cases m <;> simp [isSteering, isUserTurn]

/-- Where one id stands: its record, its pending execution, its queue entries and the number of
    its places in the steering order. `accepted` is the input its effect was given. -/
inductive Custody (accepted : Option Input) :
    Option Record → Option PendingMutation → List QueueEntry → Nat → Prop where
  | absent : Custody accepted none none [] 0
  | unplaced {record : Record} (hstate : record.operationState ≠ .applied) :
      Custody accepted (some record) none [] 0
  | start {record : Record} {pending : PendingMutation} (hstate : record.operationState = .applied)
      (hmethod : record.method = .start) (hpending : pending.method = .start)
      (hturn : pending.turnID = record.stableTurnID) (hinput : accepted = some pending.input) :
      Custody accepted (some record) (some pending) [] 0
  | claimed {record : Record} {pending : PendingMutation} {entryID : String}
      (hstate : record.operationState = .applied) (hmethod : record.method = .queue)
      (hpending : pending.method = .queue) (hturn : pending.turnID = record.stableTurnID)
      (hids : record.stableQueueEntryIDs = [entryID]) (hentry : pending.queueEntryIDs = [entryID])
      (hinput : accepted = some pending.input) :
      Custody accepted (some record) (some pending) [] 0
  | queued {record : Record} {entry : QueueEntry} (hstate : record.operationState = .applied)
      (hmethod : record.method = .queue) (hids : record.stableQueueEntryIDs = [entry.id])
      (hinput : accepted = some entry.input) :
      Custody accepted (some record) none [entry] 0
  | steering {record : Record} {pending : PendingMutation}
      (hstate : record.operationState = .applied) (hmethod : isSteering record.method = true)
      (hpending : pending.method = record.method) (hturn : pending.turnID = record.stableTurnID)
      (haccepted : pending.executionState = .accepted) :
      Custody accepted (some record) (some pending) [] 1

namespace Custody

variable {accepted : Option Input} {record : Record} {r : Option Record} {p : Option PendingMutation}
  {entries : List QueueEntry} {places : Nat}

/-- A pending execution belongs to an applied record and leaves no entry in the queue. -/
theorem of_pending {pending : PendingMutation}
    (h : Custody accepted r (some pending) entries places) :
    entries = [] ∧ ∃ record, r = some record ∧ record.operationState = .applied ∧
      pending.method = record.method ∧ pending.turnID = record.stableTurnID := by
  cases h with
  | start hstate hmethod hpending hturn => exact ⟨rfl, _, rfl, hstate, hpending.trans hmethod.symm, hturn⟩
  | claimed hstate hmethod hpending hturn => exact ⟨rfl, _, rfl, hstate, hpending.trans hmethod.symm, hturn⟩
  | steering hstate hmethod hpending hturn => exact ⟨rfl, _, rfl, hstate, hpending, hturn⟩

/-- A queue entry is the only holder of its record. -/
theorem of_entry {entry : QueueEntry} (h : Custody accepted r p entries places)
    (hentry : entry ∈ entries) :
    p = none ∧ entries = [entry] ∧ places = 0 ∧ accepted = some entry.input ∧
      ∃ record, r = some record ∧ record.operationState = .applied ∧ record.method = .queue ∧
        record.stableQueueEntryIDs = [entry.id] := by
  cases h with
  | queued hstate hmethod hids hinput =>
    obtain rfl := List.mem_singleton.mp hentry
    exact ⟨rfl, rfl, rfl, hinput, _, rfl, hstate, hmethod, hids⟩
  | _ => simp at hentry

/-- An applied record is one of a start, queued input or steering. -/
theorem method_of_applied (h : Custody accepted (some record) p entries places)
    (hstate : record.operationState = .applied) :
    record.method = .start ∨ record.method = .queue ∨ isSteering record.method = true := by
  cases h with
  | unplaced hne => exact absurd hstate hne
  | start _ hmethod => exact Or.inl hmethod
  | claimed _ hmethod => exact Or.inr (Or.inl hmethod)
  | queued _ hmethod => exact Or.inr (Or.inl hmethod)
  | steering _ hmethod => exact Or.inr (Or.inr hmethod)

theorem ne_interrupt (h : Custody accepted (some record) p entries places)
    (hstate : record.operationState = .applied) : record.method ≠ .interrupt := by
  intro hm
  rcases h.method_of_applied hstate with h | h | h <;> simp [hm, isSteering] at h

/-- A record that is not applied is held nowhere. -/
theorem of_not_applied (h : Custody accepted (some record) p entries places)
    (hstate : record.operationState ≠ .applied) : p = none ∧ entries = [] ∧ places = 0 := by
  cases h with
  | unplaced => exact ⟨rfl, rfl, rfl⟩
  | start hs => exact absurd hs hstate
  | claimed hs => exact absurd hs hstate
  | queued hs => exact absurd hs hstate
  | steering hs => exact absurd hs hstate

theorem of_absent (h : Custody accepted none p entries places) :
    p = none ∧ entries = [] ∧ places = 0 := by
  cases h
  exact ⟨rfl, rfl, rfl⟩

theorem places_le_one (h : Custody accepted r p entries places) : places ≤ 1 := by
  cases h <;> simp

/-- The pending execution of a user turn has no place in the steering order. -/
theorem places_eq_zero {pending : PendingMutation}
    (h : Custody accepted r (some pending) entries places) (huser : isUserTurn pending.method) :
    places = 0 := by
  cases h with
  | start => rfl
  | claimed => rfl
  | steering _ hmethod hpending =>
    rw [hpending, not_isUserTurn hmethod] at huser
    exact absurd huser (by simp)

/-- The accepted input matters only once the record is applied. -/
theorem congr {accepted' : Option Input} (h : Custody accepted r p entries places)
    (hsame : ∀ record, r = some record → record.operationState = .applied → accepted' = accepted) :
    Custody accepted' r p entries places := by
  cases h with
  | absent => exact .absent
  | unplaced hstate => exact .unplaced hstate
  | start hstate hmethod hpending hturn hinput =>
    exact .start hstate hmethod hpending hturn ((hsame _ rfl hstate).trans hinput)
  | claimed hstate hmethod hpending hturn hids hentry hinput =>
    exact .claimed hstate hmethod hpending hturn hids hentry ((hsame _ rfl hstate).trans hinput)
  | queued hstate hmethod hids hinput =>
    exact .queued hstate hmethod hids ((hsame _ rfl hstate).trans hinput)
  | steering hstate hmethod hpending hturn haccepted =>
    exact .steering hstate hmethod hpending hturn haccepted

end Custody

/-! ## Names -/

/-- The turn a record owns. An interrupt carries the name of the turn it ends, not one of its own. -/
def Record.ownTurn (record : Record) : Option String :=
  if record.method = .interrupt ∨ record.stableTurnID = "" then none else some record.stableTurnID

/-- The queue entry ids a record brought in. A drain, promotion or cancellation names others'. -/
def Record.ownEntries (record : Record) : Option (List String) :=
  if record.method = .queue ∧ record.stableQueueEntryIDs ≠ [] then some record.stableQueueEntryIDs
  else none

theorem Record.ownTurn_eq_some {record : Record} {turnID : String} :
    record.ownTurn = some turnID ↔
      record.method ≠ .interrupt ∧ record.stableTurnID ≠ "" ∧ record.stableTurnID = turnID := by
  unfold Record.ownTurn
  split <;> rename_i h
  · simp only [reduceCtorEq, false_iff]
    intro hc
    rcases h with h | h
    · exact hc.1 h
    · exact hc.2.1 h
  · simp only [not_or] at h
    simp [h]

/-- Turn names are reserved from the sequence, one for each record that is not an interrupt. -/
abbrev NamedTurns (journal : List Record) (next : Nat) : Prop :=
  Issued Record.clientMutationID Record.ownTurn clientMutationTurnID journal next

/-- Queue entry ids are reserved from their sequence, one for each queue record. -/
abbrev NamedEntries (journal : List Record) (next : Nat) : Prop :=
  Issued Record.clientMutationID Record.ownEntries (fun k => [queueEntryID k]) journal next

/-! ## How records change -/

structure Record.Evolves (r r' : Record) : Prop where
  method : r'.method = r.method
  payloadHash : r'.payloadHash = r.payloadHash
  turn : r.stableTurnID ≠ "" → r'.stableTurnID = r.stableTurnID
  entries : r.stableQueueEntryIDs ≠ [] → r'.stableQueueEntryIDs = r.stableQueueEntryIDs
  settled : r.operationState ≠ .inFlight → r'.operationState ≠ .inFlight
  rejected : r.operationState = .rejected →
    r'.operationState = .rejected ∧ r'.rejection = r.rejection

theorem Record.Evolves.refl (r : Record) : r.Evolves r :=
  ⟨rfl, rfl, fun _ => rfl, fun _ => rfl, fun h => h, fun h => ⟨h, rfl⟩⟩

theorem Record.Evolves.trans {r₁ r₂ r₃ : Record} (h : r₁.Evolves r₂) (h' : r₂.Evolves r₃) :
    r₁.Evolves r₃ where
  method := h'.method.trans h.method
  payloadHash := h'.payloadHash.trans h.payloadHash
  turn hne := (h'.turn (by rw [h.turn hne]; exact hne)).trans (h.turn hne)
  entries hne := (h'.entries (by rw [h.entries hne]; exact hne)).trans (h.entries hne)
  settled hs := h'.settled (h.settled hs)
  rejected hr :=
    ⟨(h'.rejected (h.rejected hr).1).1, (h'.rejected (h.rejected hr).1).2.trans (h.rejected hr).2⟩

/-- No record is dropped, and each one evolves. -/
def Snapshot.Evolves (s s' : Snapshot) : Prop :=
  ∀ id r, s.record? id = some r → ∃ r', s'.record? id = some r' ∧ r.Evolves r'

theorem Snapshot.Evolves.of_journal {s s' : Snapshot} (h : s'.journal = s.journal) :
    s.Evolves s' := by
  intro id r hr
  exact ⟨r, by rw [Snapshot.record?, h]; exact hr, .refl r⟩

theorem Snapshot.Evolves.trans {s₁ s₂ s₃ : Snapshot} (h : s₁.Evolves s₂) (h' : s₂.Evolves s₃) :
    s₁.Evolves s₃ := by
  intro id r hr
  obtain ⟨r₂, hr₂, he⟩ := h id r hr
  obtain ⟨r₃, hr₃, he'⟩ := h' id r₂ hr₂
  exact ⟨r₃, hr₃, he.trans he'⟩

theorem Snapshot.Evolves.of_put {s s' : Snapshot} {r' : Record}
    (hjournal : s'.journal = put Record.clientMutationID r' s.journal)
    (hr' : ∀ r, s.record? r'.clientMutationID = some r → r.Evolves r') : s.Evolves s' := by
  intro id r hr
  rw [Snapshot.record?, hjournal, lookup_put]
  split
  · next hid => exact ⟨r', rfl, hr' r (hid ▸ hr)⟩
  · exact ⟨r, hr, .refl r⟩

/-! ## The invariant -/

/-- The input each committed effect was given. -/
def acceptedInput (history : List Commit) (id : String) : Option Input :=
  history.findSome? fun
    | .effect id' input => if id' = id then some input else none
    | .prepare _ => none

def Snapshot.Held (accepted : String → Option Input) (s : Snapshot) (id : String) : Prop :=
  Custody (accepted id) (s.record? id) (s.pending? id) (s.entriesOf id) (s.steeringOrder.count id)

structure Inv (accepted : String → Option Input) (s : Snapshot) : Prop where
  journalKeys : KeysNodup Record.clientMutationID s.journal
  pendingKeys : KeysNodup PendingMutation.clientMutationID s.pendingExecutions
  held : ∀ id, s.Held accepted id
  turns : NamedTurns s.journal s.nextTurnSequence
  entries : NamedEntries s.journal s.nextQueueEntrySequence
  stable : ∀ {id r}, s.record? id = some r → r.stableQueueEntryIDs.Nodup
  /-- Queued input takes its turn name when it is claimed. -/
  unnamed : ∀ {id r}, s.record? id = some r → r.method = .queue → r.operationState = .inFlight →
    r.stableTurnID = ""
  /-- An open fence belongs to an interrupt in flight that names the fenced turn. -/
  fence : ∀ {f}, s.interruptFence = some f → ∃ r, s.record? f.clientMutationID = some r ∧
    r.operationState = .inFlight ∧ r.method = .interrupt ∧ r.stableTurnID = f.expectedTurnID ∧
      r.stableQueueEntryIDs = []
  /-- The slot names no turn that waits in the queue. -/
  slot : ∀ {id r}, s.entriesOf id ≠ [] → s.record? id = some r → r.stableTurnID ≠ "" →
    s.activeTurnID ≠ r.stableTurnID

theorem inv_empty (accepted : String → Option Input) : Inv accepted {} where
  journalKeys := keysNodup_nil
  pendingKeys := keysNodup_nil
  held _ := .absent
  turns := .nil
  entries := .nil
  stable h := by simp [Snapshot.record?] at h
  unnamed h := by simp [Snapshot.record?] at h
  fence h := by simp at h
  slot h := absurd rfl h

namespace Inv

variable {accepted : String → Option Input} {s : Snapshot}

theorem held_record (h : Inv accepted s) {id : String} {r : Record} (hr : s.record? id = some r) :
    Custody (accepted id) (some r) (s.pending? id) (s.entriesOf id) (s.steeringOrder.count id) :=
  hr ▸ (h.held id :)

theorem held_pending (h : Inv accepted s) {id : String} {p : PendingMutation}
    (hp : s.pending? id = some p) :
    Custody (accepted id) (s.record? id) (some p) (s.entriesOf id) (s.steeringOrder.count id) :=
  hp ▸ (h.held id :)

theorem congr {accepted' : String → Option Input} (h : Inv accepted s)
    (hsame : ∀ {id r}, s.record? id = some r → r.operationState = .applied →
      accepted' id = accepted id) : Inv accepted' s where
  journalKeys := h.journalKeys
  pendingKeys := h.pendingKeys
  held id := (h.held id).congr fun _ hr hstate => hsame hr hstate
  turns := h.turns
  entries := h.entries
  stable := h.stable
  unnamed := h.unnamed
  fence := h.fence
  slot := h.slot

end Inv

/-- What a transition of one record leaves alone: every other id, and the fence. -/
structure Moves (s s' : Snapshot) (r' : Record) : Prop where
  journal : s'.journal = put Record.clientMutationID r' s.journal
  pendingKeys : KeysNodup PendingMutation.clientMutationID s'.pendingExecutions
  pending : ∀ {id}, id ≠ r'.clientMutationID → s'.pending? id = s.pending? id
  queue : ∀ {id}, id ≠ r'.clientMutationID → s'.entriesOf id = s.entriesOf id
  places : ∀ {id}, id ≠ r'.clientMutationID → s'.steeringOrder.count id = s.steeringOrder.count id
  fence : s'.interruptFence = s.interruptFence

theorem Moves.record? {s s' : Snapshot} {r' : Record} (h : Moves s s' r') (id : String) :
    s'.record? id = if r'.clientMutationID = id then some r' else s.record? id := by
  rw [Snapshot.record?, h.journal, lookup_put]
  rfl

/-- The names and the fate a record keeps while it moves. -/
structure Record.Carries (r r' : Record) : Prop where
  method : r'.method = r.method
  payloadHash : r'.payloadHash = r.payloadHash
  entries : r'.stableQueueEntryIDs = r.stableQueueEntryIDs
  live : r.operationState ≠ .rejected
  settled : r.operationState ≠ .inFlight → r'.operationState ≠ .inFlight

/-- The turn of a record that does not wait in the queue is not that of one that does. -/
theorem Inv.turn_ne_waiting {accepted : String → Option Input} {s : Snapshot} {id id' : String}
    {r r' : Record} (h : Inv accepted s) (hr : s.record? id = some r)
    (hinterrupt : r.method ≠ .interrupt) (hidle : s.entriesOf id = [])
    (hwaiting : s.entriesOf id' ≠ []) (hr' : s.record? id' = some r') (hne : r'.stableTurnID ≠ "") :
    r.stableTurnID ≠ r'.stableTurnID := by
  intro hclash
  obtain ⟨entry, hentry⟩ := List.exists_mem_of_ne_nil _ hwaiting
  obtain ⟨_, _, _, _, rq, hrq, _, hqueued, _⟩ := (h.held id').of_entry hentry
  rw [hr'] at hrq
  obtain rfl := some.inj hrq
  have hname' : r'.ownTurn = some r'.stableTurnID :=
    Record.ownTurn_eq_some.mpr ⟨by simp [hqueued], hne, rfl⟩
  have hname : r.ownTurn = some r'.stableTurnID :=
    Record.ownTurn_eq_some.mpr ⟨hinterrupt, hclash ▸ hne, hclash⟩
  have hid : id = id' := h.turns.distinct hr hr' hname hname'
  rw [← hid, hidle] at hwaiting
  exact hwaiting rfl

/-- A record other than an interrupt moves to a place of the list, under the names it has or the
    next turn name, and the slot names no turn that is left in the queue. -/
theorem Inv.move {accepted accepted' : String → Option Input} {s s' : Snapshot} {r r' : Record}
    (h : Inv accepted s) (hmoves : Moves s s' r') (hr : s.record? r'.clientMutationID = some r)
    (hcarries : r.Carries r') (hinterrupt : r.method ≠ .interrupt)
    (hqueue : s'.nextQueueEntrySequence = s.nextQueueEntrySequence)
    (hturn : r'.stableTurnID = r.stableTurnID ∧ s'.nextTurnSequence = s.nextTurnSequence ∨
      r.stableTurnID = "" ∧ s'.nextTurnSequence = s.nextTurnSequence + 1 ∧
        r'.stableTurnID = clientMutationTurnID s'.nextTurnSequence)
    (hunnamed : r'.method = .queue → r'.operationState = .inFlight → r'.stableTurnID = "")
    (haccepted : ∀ {id}, id ≠ r'.clientMutationID → accepted' id = accepted id)
    (hheld : s'.Held accepted' r'.clientMutationID)
    (hslot : s'.activeTurnID = s.activeTurnID ∨ s'.activeTurnID = "" ∨
      s'.activeTurnID = r'.stableTurnID)
    (hwaiting : s'.entriesOf r'.clientMutationID ≠ [] → r'.stableTurnID ≠ "" →
      s'.activeTurnID ≠ r'.stableTurnID) :
    Inv accepted' s' ∧ s.Evolves s' := by
  have hle : s.nextTurnSequence ≤ s'.nextTurnSequence := by
    rcases hturn with ⟨_, he⟩ | ⟨_, he, _⟩ <;> omega
  have hturns : NamedTurns s'.journal s'.nextTurnSequence := by
    rw [hmoves.journal]
    refine h.turns.put clientMutationTurnID_inj hle fun turnID hname => ?_
    obtain ⟨hm, hne, ht⟩ := Record.ownTurn_eq_some.mp hname
    rcases hturn with ⟨hkept, _⟩ | ⟨_, hnext, hfresh⟩
    · exact Or.inl ⟨r, hr, Record.ownTurn_eq_some.mpr ⟨hinterrupt, hkept ▸ hne, hkept ▸ ht⟩⟩
    · exact Or.inr ⟨hnext, ht ▸ hfresh⟩
  refine ⟨⟨?_, hmoves.pendingKeys, ?_, hturns, ?_, ?_, ?_, ?_, ?_⟩, ?_⟩
  · rw [hmoves.journal]
    exact keysNodup_put h.journalKeys r'
  · intro id
    by_cases hid : id = r'.clientMutationID
    · exact hid ▸ hheld
    · have hold := h.held id
      rw [Snapshot.Held, hmoves.record?, if_neg (Ne.symm hid), hmoves.pending hid,
        hmoves.queue hid, hmoves.places hid, haccepted hid]
      exact hold
  · rw [hmoves.journal, hqueue]
    refine h.entries.put (fun he => queueEntryID_inj (List.singleton_inj.mp he)) (le_refl _)
      fun ids hname => Or.inl ⟨r, hr, ?_⟩
    rw [← hname, Record.ownEntries, Record.ownEntries, hcarries.method, hcarries.entries]
  · intro id r₀ hr₀
    rw [hmoves.record?] at hr₀
    split at hr₀
    · obtain rfl := some.inj hr₀
      exact hcarries.entries ▸ h.stable hr
    · exact h.stable hr₀
  · intro id r₀ hr₀ hqueued hflight
    rw [hmoves.record?] at hr₀
    split at hr₀
    · obtain rfl := some.inj hr₀
      exact hunnamed hqueued hflight
    · exact h.unnamed hr₀ hqueued hflight
  · intro f hf
    obtain ⟨rf, hrf, hflight, hmethod, hrest⟩ := h.fence (hmoves.fence ▸ hf)
    refine ⟨rf, ?_, hflight, hmethod, hrest⟩
    rw [hmoves.record?, if_neg ?_]
    · exact hrf
    · intro hid
      rw [hid, hrf] at hr
      exact hinterrupt (some.inj hr ▸ hmethod)
  · intro id rq hq hrq hne
    rw [hmoves.record?] at hrq
    split at hrq
    · next hid =>
      obtain rfl := some.inj hrq
      exact hwaiting (hid ▸ hq) hne
    · next hid =>
      have hid' : id ≠ r'.clientMutationID := Ne.symm hid
      rw [hmoves.queue hid'] at hq
      rcases hslot with hkept | hfree | hnamed
      · rw [hkept]
        exact h.slot hq hrq hne
      · rw [hfree]
        exact hne.symm
      · -- the slot names this record's turn, and names are distinct
        intro hclash
        obtain ⟨entry, hentry⟩ := List.exists_mem_of_ne_nil _ hq
        obtain ⟨_, _, _, _, rq', hrq', _, hqueued, _⟩ := (h.held id).of_entry hentry
        rw [hrq] at hrq'
        obtain rfl := some.inj hrq'
        have hname : rq.ownTurn = some rq.stableTurnID :=
          Record.ownTurn_eq_some.mpr ⟨by simp [hqueued], hne, rfl⟩
        have hname' : r'.ownTurn = some rq.stableTurnID :=
          Record.ownTurn_eq_some.mpr
            ⟨hcarries.method ▸ hinterrupt, by rw [← hnamed, hclash]; exact hne,
              by rw [← hnamed, hclash]⟩
        have hlook : lookup Record.clientMutationID id s'.journal = some rq := by
          have := hmoves.record? id
          rwa [if_neg hid, hrq] at this
        have hlook' : lookup Record.clientMutationID r'.clientMutationID s'.journal = some r' := by
          have := hmoves.record? r'.clientMutationID
          rwa [if_pos rfl] at this
        exact hid' (hturns.distinct hlook hlook' hname hname')
  · refine Snapshot.Evolves.of_put hmoves.journal fun r₀ hr₀ => ?_
    rw [hr] at hr₀
    obtain rfl := some.inj hr₀
    refine ⟨hcarries.method, hcarries.payloadHash, ?_, fun _ => hcarries.entries,
      hcarries.settled, fun hrej => absurd hrej hcarries.live⟩
    intro hne
    rcases hturn with ⟨hkept, _⟩ | ⟨hempty, _⟩
    · exact hkept
    · exact absurd hempty hne

/-! ## What a transition after acceptance keeps -/

/-- The invariant, every record, the fence, and the holds of a Stop while there is something to
    hold. -/
structure Kept (accepted : String → Option Input) (s s' : Snapshot) : Prop where
  inv : Inv accepted s'
  evolves : s.Evolves s'
  fence : s'.interruptFence = s.interruptFence
  queueHeld : s'.queueHeld = s.queueHeld
  order : s'.steeringOrder ⊆ s.steeringOrder
  parked : s.steeringHeld = true → s'.steeringHeld = true ∨ s'.steeringOrder = []

theorem Kept.refl {accepted : String → Option Input} {s : Snapshot} (h : Inv accepted s) :
    Kept accepted s s :=
  ⟨h, .of_journal rfl, rfl, rfl, fun _ hid => hid, Or.inl⟩

theorem Kept.trans {accepted : String → Option Input} {s₁ s₂ s₃ : Snapshot}
    (h : Kept accepted s₁ s₂) (h' : Kept accepted s₂ s₃) : Kept accepted s₁ s₃ where
  inv := h'.inv
  evolves := h.evolves.trans h'.evolves
  fence := h'.fence.trans h.fence
  queueHeld := h'.queueHeld.trans h.queueHeld
  order := fun _ hid => h.order (h'.order hid)
  parked hheld := by
    rcases h.parked hheld with hs | hs
    · exact h'.parked hs
    · exact Or.inr (List.subset_nil.mp (hs ▸ h'.order))

theorem Kept.foldlM {accepted : String → Option Input} {f : Snapshot → String → Option Snapshot}
    (hf : ∀ {s id s'}, Inv accepted s → f s id = some s' → Kept accepted s s') {ids : List String}
    {s s' : Snapshot} (h : Inv accepted s) (hrun : ids.foldlM f s = some s') :
    Kept accepted s s' :=
  (foldlM_run Kept.refl Kept.trans (fun h' hstep => ⟨(hf h' hstep).inv, hf h' hstep⟩) h hrun).2

end Evener.ClientMutation
