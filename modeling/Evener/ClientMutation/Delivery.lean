/-
  What a client may rely on, over every run of the daemon from the empty store.

  Nothing is assumed of what the callers sample, of the saves, or of the order of the steps.
-/
import Evener.ClientMutation.Runs

namespace Evener.ClientMutation

open Evener.Lib List

/-! ## Once, and for good -/

/-- What a stored record keeps. -/
structure Record.Stays (r r' : Record) : Prop where
  method : r'.method = r.method
  payloadHash : r'.payloadHash = r.payloadHash
  turn : r.stableTurnID ≠ "" → r'.stableTurnID = r.stableTurnID
  entries : r.stableQueueEntryIDs ≠ [] → r'.stableQueueEntryIDs = r.stableQueueEntryIDs
  settled : r.operationState ≠ .inFlight → r'.operationState ≠ .inFlight
  rejected : r.operationState = .rejected →
    r'.operationState = .rejected ∧ r'.rejection = r.rejection

/-- Two records of a snapshot share no name: no turn, unless one is an interrupt, and no queue
    entry id when both are queued input. -/
structure Snapshot.OwnNames (s : Snapshot) : Prop where
  turns : ∀ {id id' r r'}, s.record? id = some r → s.record? id' = some r' →
    r.method ≠ .interrupt → r'.method ≠ .interrupt → r.stableTurnID ≠ "" →
    r.stableTurnID = r'.stableTurnID → id = id'
  entries : ∀ {id id' r r' entryID}, s.record? id = some r → s.record? id' = some r' →
    r.method = .queue → r'.method = .queue → entryID ∈ r.stableQueueEntryIDs →
    entryID ∈ r'.stableQueueEntryIDs → id = id'

variable {s : Snapshot} {accepted : String → Option Input}

theorem Inv.ownNames (h : Inv accepted s) :
    s.OwnNames where
  turns := by
    intro id id' r r' hr hr' hm hm' hne hsame
    have hname : r.ownTurn = some r.stableTurnID := Record.ownTurn_eq_some.mpr ⟨hm, hne, rfl⟩
    have hname' : r'.ownTurn = some r.stableTurnID :=
      Record.ownTurn_eq_some.mpr ⟨hm', hsame ▸ hne, hsame.symm⟩
    exact h.turns.distinct hr hr' hname hname'
  entries := by
    intro id id' r r' entryID hr hr' hm hm' hmem hmem'
    have hname : r.ownEntries = some r.stableQueueEntryIDs := by
      simp [Record.ownEntries, hm, ne_nil_of_mem hmem]
    have hname' : r'.ownEntries = some r'.stableQueueEntryIDs := by
      simp [Record.ownEntries, hm', ne_nil_of_mem hmem']
    -- each of the two reserved the one id
    obtain ⟨k, _, hk⟩ := h.entries.issued hr hname
    obtain ⟨k', _, hk'⟩ := h.entries.issued hr' hname'
    rw [hk, mem_singleton] at hmem
    rw [hk', mem_singleton] at hmem'
    have hsame : r'.stableQueueEntryIDs = r.stableQueueEntryIDs := by
      rw [hk, hk', ← hmem, ← hmem']
    exact h.entries.distinct hr hr' hname (hsame ▸ hname')

/-- Over every run of requests, other transitions, failed saves and restarts: what an id prepared
    and what it had for an effect were each committed once, in memory as in the file; a stored
    record keeps what it was stored with; and names are not shared, interrupts apart. -/
theorem mutations_take_effect_once (cfg : Config) (events later : List Event) :
    let w := run cfg {} events
    let w' := run cfg w later
    (w.history.filterMap Commit.preparedID).Nodup ∧ (w.history.filterMap Commit.effectedID).Nodup ∧
      (∀ id input, .effect id input ∈ w.history →
        ∃ r, w.store.record? id = some r ∧ r.operationState ≠ .inFlight) ∧
      (∀ id r, w.store.record? id = some r → ∃ r', w'.store.record? id = some r' ∧ r.Stays r') ∧
      w.store.OwnNames ∧ w.file.OwnNames := by
  intro w w'
  have hinv : WorldInv w := run_worldInv events worldInv_empty
  refine ⟨hinv.preparedOnce, hinv.effectedOnce, ?_, ?_, hinv.store.ownNames, hinv.file.ownNames⟩
  · intro id input heffect
    exact hinv.effected heffect
  · intro id r hr
    obtain ⟨r', hr', he⟩ : ∃ r', w'.store.record? id = some r' ∧ r.Evolves r' :=
      run_evolves later hinv id r hr
    exact ⟨r', hr', he.method, he.payloadHash, he.turn, he.entries, he.settled, he.rejected⟩

/-- A start and a Stop of its turn. -/
def startThenStop : List Event :=
  [.accept
      { method := .start
        params := { clientMutationID := "m1", input := [{ type := "text", text := "hi" }] }
        payloadHash := "h1" } {},
    .interrupt { clientMutationID := "m2" } "h2" true {}]

/-- An interrupt's record carries the name of the turn it ends. -/
theorem interrupt_shares_turn :
    let s := (run { threadID := "t", maxTurns := 0 } {} startThenStop).store
    (s.record? "m1").map Record.stableTurnID = some "turn_m1" ∧
      (s.record? "m2").map Record.stableTurnID = some "turn_m1" := by
  decide

/-! ## Held once -/

/-- The one place of an applied record, by its method. `accepted` is the input it was given. -/
def HeldOnce (accepted : Option Input) (s : Snapshot) (record : Record) : Prop :=
  let id := record.clientMutationID
  match record.method with
  | .start =>
    (∃ pending, s.pending? id = some pending ∧ pending.turnID = record.stableTurnID ∧
      accepted = some pending.input) ∧ s.entriesOf id = [] ∧ id ∉ s.steeringOrder
  | .queue =>
    ((∃ entry, s.entriesOf id = [entry] ∧ record.stableQueueEntryIDs = [entry.id] ∧
        accepted = some entry.input ∧ s.pending? id = none) ∨
      (∃ pending, s.pending? id = some pending ∧
        pending.queueEntryIDs = record.stableQueueEntryIDs ∧ accepted = some pending.input ∧
        s.entriesOf id = [])) ∧ id ∉ s.steeringOrder
  | .steer | .drain | .promote =>
    (∃ pending, s.pending? id = some pending ∧ pending.turnID = record.stableTurnID) ∧
      s.steeringOrder.count id = 1 ∧ s.entriesOf id = []
  | .cancel | .interrupt => False

theorem Inv.heldOnce {id : String} {r : Record} (h : Inv accepted s) (hr : s.record? id = some r)
    (hstate : r.operationState = .applied) : HeldOnce (accepted id) s r := by
  have hkey : r.clientMutationID = id := s.key_of_record? hr
  have hheld := h.held_record hr
  unfold HeldOnce
  dsimp only
  rw [hkey]
  have hout : ∀ {n}, s.steeringOrder.count id = n → n = 0 → id ∉ s.steeringOrder := by
    intro n hn hzero
    exact count_eq_zero.mp (hn.trans hzero)
  generalize hp : s.pending? id = p, he : s.entriesOf id = entries,
    hn : s.steeringOrder.count id = n at hheld
  cases hheld with
  | unplaced hne => exact absurd hstate hne
  | start _ hmethod _ hturn hinput =>
    rw [hmethod]
    exact ⟨⟨_, rfl, hturn, hinput⟩, rfl, hout hn rfl⟩
  | claimed _ hmethod _ _ hids hentry hinput =>
    rw [hmethod]
    exact ⟨Or.inr ⟨_, rfl, hentry.trans hids.symm, hinput, rfl⟩, hout hn rfl⟩
  | queued _ hmethod hids hinput =>
    rw [hmethod]
    exact ⟨Or.inl ⟨_, rfl, hids, hinput, rfl⟩, hout hn rfl⟩
  | steering _ hmethod _ hturn _ =>
    cases hm : r.method with
    | steer | drain | promote => exact ⟨⟨_, rfl, hturn⟩, rfl, rfl⟩
    | start | queue | cancel | interrupt => simp [hm, isSteering] at hmethod

/-- Everything a snapshot holds, and who it belongs to. -/
structure Snapshot.Accounted (accepted : String → Option Input) (s : Snapshot) : Prop where
  applied : ∀ {id r}, s.record? id = some r → r.operationState = .applied →
    HeldOnce (accepted id) s r
  queue : ∀ entry ∈ s.inputQueue, ∃ r, s.record? entry.clientMutationID = some r ∧
    r.operationState = .applied ∧ r.method = .queue
  executions : ∀ pending ∈ s.pendingExecutions, ∃ r,
    s.record? pending.clientMutationID = some r ∧ r.operationState = .applied ∧
      r.method = pending.method
  steering : ∀ id ∈ s.steeringOrder, ∃ r, s.record? id = some r ∧ r.operationState = .applied ∧
    isSteering r.method = true
  entryIDs : (s.inputQueue.map QueueEntry.id).Nodup
  sources : (s.inputQueue.map QueueEntry.clientMutationID).Nodup
  executionIDs : (s.pendingExecutions.map PendingMutation.clientMutationID).Nodup
  order : s.steeringOrder.Nodup

theorem Inv.accounted (h : Inv accepted s) :
    s.Accounted accepted where
  applied hr hstate := h.heldOnce hr hstate
  queue := by
    intro entry he
    obtain ⟨_, _, _, _, r, hr, hstate, hmethod, _⟩ :=
      (h.held entry.clientMutationID).of_entry (s.mem_entriesOf.mpr ⟨he, rfl⟩)
    exact ⟨r, hr, hstate, hmethod⟩
  executions := by
    intro p hp
    have hlook : s.pending? p.clientMutationID = some p := (lookup_eq_some h.pendingKeys).mpr ⟨hp, rfl⟩
    obtain ⟨_, r, hr, hstate, hmethod, _⟩ := (h.held_pending hlook).of_pending
    exact ⟨r, hr, hstate, hmethod.symm⟩
  steering := by
    intro id hid
    have hcount : 0 < s.steeringOrder.count id := count_pos_iff.mpr hid
    have hheld := h.held id
    rw [Snapshot.Held] at hheld
    generalize s.record? id = r, s.pending? id = p, s.entriesOf id = entries,
      s.steeringOrder.count id = n at hheld hcount
    cases hheld with
    | steering hstate hmethod => exact ⟨_, rfl, hstate, hmethod⟩
    | _ => simp at hcount
  entryIDs := h.queue_ids_nodup
  sources := by
    rw [nodup_map_iff_inj_on h.queue_ids_nodup.of_map]
    intro entry he entry' he' hsame
    obtain ⟨_, hentries, _⟩ :=
      (h.held entry.clientMutationID).of_entry (s.mem_entriesOf.mpr ⟨he, rfl⟩)
    have hmem' : entry' ∈ s.entriesOf entry.clientMutationID :=
      s.mem_entriesOf.mpr ⟨he', hsame.symm⟩
    rw [hentries, mem_singleton] at hmem'
    exact hmem'.symm
  executionIDs := h.pendingKeys
  order := nodup_iff_count_le_one.mpr fun id => (h.held id).places_le_one

/-- In every state a run reaches, in memory and in the file, each applied record is held in its
    one place with the input it was accepted with, and nothing is held for anyone else. -/
theorem accepted_input_held_once (cfg : Config) (events : List Event) :
    let w := run cfg {} events
    w.store.Accounted (acceptedInput w.history) ∧ w.file.Accounted (acceptedInput w.history) := by
  intro w
  have hinv : WorldInv w := run_worldInv events worldInv_empty
  exact ⟨hinv.store.accounted, hinv.file.accounted⟩

end Evener.ClientMutation
