/-
  The turn that runs next.

  Starts are claimed by the order of their names' sequences, which is the order they were accepted
  in; only a start that was returned is claimed behind a later one.
-/
import Evener.ClientMutation.Runs

namespace Evener.ClientMutation

open Evener.Lib List

variable {s next : Snapshot} {recoveredTurnID : String}

/-- `runnableClientMutationStartTurnID`; `order` is the order the executions are visited in. -/
def runnableClientMutationStartTurnID (recoveredTurnID : String) (order : List String)
    (s : Snapshot) : String × Bool :=
  let startIDs :=
    if s.interruptFence.isNone then claimableClientMutationStartIDs recoveredTurnID s else []
  match startIDs with
  | id :: _ =>
    let startTurnID := ((s.pending? id).map PendingMutation.turnID).getD ""
    (startTurnID, startTurnID ≠ "")
  | [] =>
    match incorporatedQueueTurn? order s with
    | some pending => (pending.turnID, true)
    | none =>
      match s.inputQueue with
      | [] => ("", false)
      | entry :: _ =>
        match s.record? entry.clientMutationID with
        | none => ("", false)
        | some record =>
          (record.stableTurnID,
            record.method = .queue && record.stableTurnID ≠ "" &&
              s.activeTurnID = record.stableTurnID)

/-! ## The order of the starts -/

def startTurnID (s : Snapshot) (startID : String) : String :=
  ((s.pending? startID).map PendingMutation.turnID).getD ""

/-- The comparator of `claimableClientMutationStartIDs`. -/
def compareStartIDs (recoveredTurnID : String) (s : Snapshot) (a b : String) : Ordering :=
  let aID := startTurnID s a
  let bID := startTurnID s b
  let aInherited := decide (aID = recoveredTurnID)
  let bInherited := decide (bID = recoveredTurnID)
  if recoveredTurnID ≠ "" ∧ clientMutationStartSequence recoveredTurnID = none ∧
      aInherited ≠ bInherited then
    if aInherited then .lt else .gt
  else
    match clientMutationStartSequence aID, clientMutationStartSequence bID with
    | some aSeq, some bSeq => (compare aSeq bSeq).then (compare a b)
    | some _, none => .lt
    | none, some _ => .gt
    | none, none => compare a b

/-- The starts a claim may take, as the map gives them. -/
def claimableStarts (s : Snapshot) : List String :=
  (s.pendingExecutions.filter fun pending =>
    pending.method = .start &&
      (pending.executionState = .accepted || pending.executionState = .incorporated)).map
    PendingMutation.clientMutationID

theorem compare_toLex {α β : Type} [Ord α] [Ord β] (x x' : α) (y y' : β) :
    compare (toLex (x, y)) (toLex (x', y')) = (compare x x').then (compare y y') := rfl

theorem compareSequences_eq (aSeq bSeq : Option Nat) (tie : Ordering) :
    (match aSeq, bSeq with
      | some m, some n => (compare m n).then tie
      | some _, none => .lt
      | none, some _ => .gt
      | none, none => tie) =
      (compare (if aSeq.isSome then 0 else 1) (if bSeq.isSome then 0 else 1)).then
        ((compare (aSeq.getD 0) (bSeq.getD 0)).then tie) := by
  cases aSeq with
  | none =>
    cases bSeq with
    | none => rfl
    | some n => rfl
  | some m =>
    cases bSeq with
    | none => rfl
    | some n => rfl

/-- The comparator and the rank are one order. -/
theorem compareStartIDs_eq (a b : String) : compareStartIDs recoveredTurnID s a b =
    compare (startRank recoveredTurnID s a) (startRank recoveredTurnID s b) := by
  have hrank : ∀ id, startRank recoveredTurnID s id =
      toLex (if recoveredTurnID ≠ "" ∧ clientMutationStartSequence recoveredTurnID = none ∧
          startTurnID s id = recoveredTurnID then 0 else 1,
        toLex (if (clientMutationStartSequence (startTurnID s id)).isSome then 0 else 1,
          toLex ((clientMutationStartSequence (startTurnID s id)).getD 0, id))) := fun _ => rfl
  rw [hrank, hrank, compare_toLex, compare_toLex, compare_toLex, ← compareSequences_eq]
  unfold compareStartIDs
  by_cases hlegacy : recoveredTurnID ≠ "" ∧ clientMutationStartSequence recoveredTurnID = none
  · by_cases ha : startTurnID s a = recoveredTurnID
    · by_cases hb : startTurnID s b = recoveredTurnID
      · rw [if_neg (by simp [ha, hb]), if_pos ⟨hlegacy.1, hlegacy.2, ha⟩,
          if_pos ⟨hlegacy.1, hlegacy.2, hb⟩]
        rfl
      · rw [if_pos ⟨hlegacy.1, hlegacy.2, by simp [ha, hb]⟩, if_pos (by simp [ha]),
          if_pos ⟨hlegacy.1, hlegacy.2, ha⟩, if_neg fun h => hb h.2.2]
        rfl
    · by_cases hb : startTurnID s b = recoveredTurnID
      · rw [if_pos ⟨hlegacy.1, hlegacy.2, by simp [ha, hb]⟩, if_neg (by simp [ha]),
          if_neg fun h => ha h.2.2, if_pos ⟨hlegacy.1, hlegacy.2, hb⟩]
        rfl
      · rw [if_neg (by simp [ha, hb]), if_neg fun h => ha h.2.2, if_neg fun h => hb h.2.2]
        rfl
  · rw [if_neg fun h => hlegacy ⟨h.1, h.2.1⟩, if_neg fun h => hlegacy ⟨h.1, h.2.1⟩,
      if_neg fun h => hlegacy ⟨h.1, h.2.1⟩]
    rfl

theorem startRank_injective : Function.Injective (startRank recoveredTurnID s) := by
  intro a b h
  exact congrArg (fun rank => (ofLex (ofLex (ofLex rank).2).2).2) h

theorem compareStartIDs_lt {a b : String} : compareStartIDs recoveredTurnID s a b = .lt ↔
    startRank recoveredTurnID s a < startRank recoveredTurnID s b := by
  rw [compareStartIDs_eq, compare_lt_iff_lt]

/-- The comparator is a strict total order, on any ids. -/
theorem compareStartIDs_order (recoveredTurnID : String) (s : Snapshot) :
    IsStrictTotalOrder String fun a b => compareStartIDs recoveredTurnID s a b = .lt where
  trichotomous a b hab hba := by
    rw [compareStartIDs_lt] at hab hba
    exact startRank_injective (le_antisymm (not_lt.mp hba) (not_lt.mp hab))
  irrefl a h := lt_irrefl _ (compareStartIDs_lt.mp h)
  trans a b c hab hbc :=
    compareStartIDs_lt.mpr (lt_trans (compareStartIDs_lt.mp hab) (compareStartIDs_lt.mp hbc))

/-- However the map is visited and whichever sort is used, the starts come in one order. -/
theorem claimableClientMutationStartIDs_unique {startIDs sorted : List String}
    (hvisited : startIDs.Perm (claimableStarts s)) (hperm : sorted.Perm startIDs)
    (hsorted : sorted.Pairwise fun a b => compareStartIDs recoveredTurnID s a b ≠ .gt) :
    sorted = claimableClientMutationStartIDs recoveredTurnID s := by
  have hle : ∀ {a b}, compareStartIDs recoveredTurnID s a b ≠ .gt ↔
      startRank recoveredTurnID s a ≤ startRank recoveredTurnID s b := by
    intro a b
    rw [compareStartIDs_eq, compare_le_iff_le]
  refine List.Perm.eq_of_pairwise ?_ (hsorted.imp hle.mp)
    (@sortBy_pairwise _ _ _ (startRank recoveredTurnID s) _)
    ((hperm.trans hvisited).trans (sortBy_perm _).symm)
  intro a b _ _ hab hba
  exact startRank_injective (le_antisymm hab hba)

/-! ## What a claim takes -/

/-- A snapshot the store may hold, whose pending starts are journaled under turns of their own. -/
structure Snapshot.Claimable (s : Snapshot) : Prop where
  valid : validateClientMutationSnapshot s = true
  keys : KeysNodup PendingMutation.clientMutationID s.pendingExecutions
  journaled : ∀ p ∈ s.pendingExecutions, p.method = .start → s.record? p.clientMutationID ≠ none
  named : ∀ p ∈ s.pendingExecutions, p.method = .start → p.turnID ≠ ""

/-- An order in which a loop may visit the executions. -/
def Snapshot.VisitOrder (s : Snapshot) (order : List String) : Prop :=
  order.Perm (s.pendingExecutions.map PendingMutation.clientMutationID)

/-- With a healthy transcript, a claim takes the turn. -/
def ClaimsTurn (recoveredTurnID : String) (order : List String) (s : Snapshot) (turnID : String) :
    Prop :=
  ∃ next queued, claimClientMutationStart recoveredTurnID order true s = some (next, some queued) ∧
    validateClientMutationSnapshot next = true ∧ queued.clientMutationID ≠ "" ∧
    queued.stableTurnID = turnID

theorem mem_claimableStarts {id : String} (h : id ∈ claimableStarts s) :
    ∃ p ∈ s.pendingExecutions, p.clientMutationID = id ∧ p.method = .start := by
  obtain ⟨p, hp, rfl⟩ := mem_map.mp h
  rw [mem_filter, Bool.and_eq_true] at hp
  exact ⟨p, hp.1, rfl, by simpa using hp.2.1⟩

theorem mem_of_claimable {id : String} {rest : List String}
    (h : claimableClientMutationStartIDs recoveredTurnID s = id :: rest) : id ∈ claimableStarts s := by
  have hmem : id ∈ claimableClientMutationStartIDs recoveredTurnID s := by
    rw [h]
    exact mem_cons_self
  exact mem_sortBy.mp hmem

theorem validate_put {record : Record} {pending : PendingMutation}
    (h : validateClientMutationSnapshot s = true)
    (hjournal : next.journal = put Record.clientMutationID record s.journal)
    (hpendings : next.pendingExecutions =
      put PendingMutation.clientMutationID pending s.pendingExecutions)
    (hrecord : validRecord record = true) (hpending : pending.clientMutationID ≠ "") :
    validateClientMutationSnapshot next = true := by
  unfold validateClientMutationSnapshot at h ⊢
  rw [Bool.and_eq_true, all_eq_true, all_eq_true] at h ⊢
  rw [hjournal, hpendings]
  refine ⟨fun r hr => ?_, fun p hp => ?_⟩
  · rcases mem_of_mem_put hr with rfl | hr
    · exact hrecord
    · exact h.1 r hr
  · rcases mem_of_mem_put hp with rfl | hp
    · simpa using hpending
    · exact h.2 p hp

namespace Snapshot.Claimable

theorem record (h : s.Claimable) {id : String} {r : Record} (hr : s.record? id = some r) :
    validRecord r = true ∧ id ≠ "" := by
  have hvalid := h.valid
  unfold validateClientMutationSnapshot at hvalid
  rw [Bool.and_eq_true, all_eq_true] at hvalid
  have hr' := hvalid.1 r (mem_of_lookup hr)
  refine ⟨hr', ?_⟩
  rw [← s.key_of_record? hr]
  unfold validRecord at hr'
  simp only [Bool.and_eq_true] at hr'
  simpa using hr'.1.1.1

theorem pending (h : s.Claimable) {p : PendingMutation} (hp : p ∈ s.pendingExecutions) :
    s.pending? p.clientMutationID = some p ∧ p.clientMutationID ≠ "" := by
  have hvalid := h.valid
  unfold validateClientMutationSnapshot at hvalid
  rw [Bool.and_eq_true, all_eq_true, all_eq_true] at hvalid
  exact ⟨(lookup_eq_some h.keys).mpr ⟨hp, rfl⟩, by simpa using hvalid.2 p hp⟩

end Snapshot.Claimable

/-- What `incorporatedQueueTurn?` looks for. -/
def Snapshot.HoldsSlot (s : Snapshot) (p : PendingMutation) : Prop :=
  p.method = .queue ∧ p.executionState = .incorporated ∧ p.turnID ≠ "" ∧ s.activeTurnID = p.turnID

theorem incorporatedQueueTurn?_spec {order : List String} (h : s.Claimable)
    (horder : s.VisitOrder order) :
    (∃ p ∈ s.pendingExecutions, incorporatedQueueTurn? order s = some p ∧ s.HoldsSlot p) ∨
      (incorporatedQueueTurn? order s = none ∧ ∀ p ∈ s.pendingExecutions, ¬s.HoldsSlot p) := by
  cases hturn : incorporatedQueueTurn? order s with
  | none =>
    refine Or.inr ⟨rfl, fun p hp hfit => ?_⟩
    unfold incorporatedQueueTurn? at hturn
    rw [findSome?_eq_none_iff] at hturn
    have hnone := hturn p.clientMutationID (horder.mem_iff.mpr (mem_map_of_mem hp))
    rw [(h.pending hp).1] at hnone
    simp [hfit.1, hfit.2.1, hfit.2.2.1, hfit.2.2.2] at hnone
  | some p =>
    obtain ⟨id, _, hid⟩ := exists_of_findSome?_eq_some hturn
    obtain ⟨hp, hfit⟩ := Option.filter_eq_some_iff.mp hid
    simp only [Bool.and_eq_true, decide_eq_true_eq] at hfit
    exact Or.inl ⟨p, mem_of_lookup hp, rfl, hfit.1.1.1, hfit.1.1.2, by simpa using hfit.1.2, hfit.2⟩

/-- The predicate names a turn and the claim takes it, or neither does. -/
theorem claim_runnable {order order' : List String} (h : s.Claimable)
    (horder : s.VisitOrder order) (horder' : s.VisitOrder order') :
    (∃ turnID, runnableClientMutationStartTurnID recoveredTurnID order s = (turnID, true) ∧
        ClaimsTurn recoveredTurnID order' s turnID) ∨
      ((runnableClientMutationStartTurnID recoveredTurnID order s).2 = false ∧
        claimClientMutationStart recoveredTurnID order' true s = some (s, none)) := by
  unfold runnableClientMutationStartTurnID ClaimsTurn claimClientMutationStart
  generalize hids : (if s.interruptFence.isNone then
    claimableClientMutationStartIDs recoveredTurnID s else []) = startIDs
  cases startIDs with
  | cons id rest =>
    have hhead : id ∈ claimableStarts s := by
      split at hids
      · exact mem_of_claimable hids
      · cases hids
    obtain ⟨p, hp, rfl, hmethod⟩ := mem_claimableStarts hhead
    obtain ⟨hpending, hid⟩ := h.pending hp
    obtain ⟨r, hr⟩ := Option.ne_none_iff_exists'.mp (h.journaled p hp hmethod)
    have hnamed := h.named p hp hmethod
    refine Or.inl ⟨p.turnID, by simp [hpending, hnamed], (claimStart s r p).1, (claimStart s r p).2, ?_⟩
    dsimp only
    rw [hpending, hr]
    refine ⟨rfl, ?_, hid, rfl⟩
    unfold claimStart
    split
    · exact validate_put h.valid rfl rfl (h.record hr).1 hid
    · exact validate_put h.valid rfl rfl (h.record hr).1 hid
  | nil =>
    rcases incorporatedQueueTurn?_spec h horder with ⟨p, hp, hturn, hfit⟩ | ⟨hnone, hfit⟩
    · rcases incorporatedQueueTurn?_spec h horder' with ⟨p', hp', hturn', hfit'⟩ | ⟨_, hfit'⟩
      · rw [hturn, hturn']
        exact Or.inl ⟨p.turnID, rfl, _, _, rfl, h.valid, (h.pending hp').2,
          hfit'.2.2.2.symm.trans hfit.2.2.2⟩
      · exact absurd hfit (hfit' p hp)
    · rcases incorporatedQueueTurn?_spec h horder' with ⟨p', hp', _, hfit'⟩ | ⟨hnone', _⟩
      · exact absurd hfit' (hfit p' hp')
      · rw [hnone, hnone']
        cases hqueue : s.inputQueue with
        | nil => exact Or.inr ⟨rfl, rfl⟩
        | cons entry rest =>
          dsimp only
          cases hr : s.record? entry.clientMutationID with
          | none => exact Or.inr ⟨rfl, rfl⟩
          | some record =>
            dsimp only
            by_cases hblocked : record.method ≠ .queue ∨ record.stableTurnID = "" ∨
                s.activeTurnID ≠ record.stableTurnID
            · rw [if_pos hblocked]
              refine Or.inr ⟨?_, rfl⟩
              rcases hblocked with hne | hne | hne
              · simp [hne]
              · simp [hne]
              · simp [hne]
            · rw [if_neg hblocked]
              simp only [not_or, not_not] at hblocked
              refine Or.inl ⟨record.stableTurnID, by simp [hblocked.1, hblocked.2.1, hblocked.2.2],
                _, _, rfl, ?_, (h.record hr).2, rfl⟩
              exact validate_put h.valid rfl rfl (h.record hr).1 (h.record hr).2

theorem runnable_iff_claims {order order' : List String} (h : s.Claimable)
    (horder : s.VisitOrder order) (horder' : s.VisitOrder order') (turnID : String) :
    runnableClientMutationStartTurnID recoveredTurnID order s = (turnID, true) ↔
      ClaimsTurn recoveredTurnID order' s turnID := by
  rcases @claim_runnable s recoveredTurnID _ _ h horder horder' with ⟨t, hrunnable, hclaims⟩ | ⟨hidle, hnone⟩
  · rw [hrunnable]
    obtain ⟨next, queued, hclaim, hvalid, hid, hturn⟩ := hclaims
    constructor
    · intro hsame
      obtain rfl := (Prod.mk.inj hsame).1
      exact ⟨next, queued, hclaim, hvalid, hid, hturn⟩
    · rintro ⟨next', queued', hclaim', _, _, hturn'⟩
      rw [hclaim] at hclaim'
      cases hclaim'
      rw [← hturn, hturn']
  · constructor
    · intro hrunnable
      rw [hrunnable] at hidle
      cases hidle
    · rintro ⟨next, queued, hclaim, _⟩
      rw [hnone] at hclaim
      cases hclaim

/-! ## Claims over a run -/

/-- A start that is accepted and that no claim has taken. -/
def Snapshot.Waiting (s : Snapshot) (id : String) : Prop :=
  ∃ p, s.pending? id = some p ∧ p.method = .start ∧ p.executionState = .accepted

def Snapshot.InClaim (s : Snapshot) (id : String) : Prop :=
  ∃ p, s.pending? id = some p ∧ p.method = .start ∧ p.executionState = .claimed

/-- The name of the pending start carries a sequence. -/
def Snapshot.Sequenced (s : Snapshot) (id : String) : Prop :=
  ∃ p n, s.pending? id = some p ∧ clientMutationStartSequence p.turnID = some n

section Decide

variable (s : Snapshot) (id : String)

instance : Decidable (s.Waiting id) :=
  decidable_of_iff ((s.pending? id).any fun p => p.method = .start ∧ p.executionState = .accepted)
    (by simp [Snapshot.Waiting, Option.any_eq_true])

instance : Decidable (s.InClaim id) :=
  decidable_of_iff ((s.pending? id).any fun p => p.method = .start ∧ p.executionState = .claimed)
    (by simp [Snapshot.InClaim, Option.any_eq_true])

instance : Decidable (s.Sequenced id) :=
  decidable_of_iff ((s.pending? id).any fun p => (clientMutationStartSequence p.turnID).isSome)
    (by simp [Snapshot.Sequenced, Option.any_eq_true, Option.isSome_iff_exists])

instance : Decidable (s.Settled id) :=
  decidable_of_iff ((s.record? id).any fun r => r.operationState ≠ .inFlight)
    (by simp [Snapshot.Settled, Option.any_eq_true])

end Decide

section Run

variable (cfg : Config) (events : List Event)

/-- The world before the `k`-th event of a run. -/
def worldAt (k : Nat) : World := run cfg {} (events.take k)

/-- The `k`-th event applies the start. -/
def AcceptedAt (k : Nat) (id : String) : Prop :=
  ¬(worldAt cfg events k).store.Settled id ∧
    ∃ r, (worldAt cfg events (k + 1)).store.record? id = some r ∧ r.method = .start ∧
      r.operationState = .applied

instance (k : Nat) (id : String) : Decidable (AcceptedAt cfg events k id) :=
  decidable_of_iff (¬(worldAt cfg events k).store.Settled id ∧
      ((worldAt cfg events (k + 1)).store.record? id).any fun r =>
        r.method = .start ∧ r.operationState = .applied)
    (by simp [AcceptedAt, Option.any_eq_true])

/-- The `k`-th event is a claim that takes the start. -/
def ClaimedAt (k : Nat) (id : String) : Prop :=
  (∃ order healthy save, events[k]? = some (.claimStart order healthy save)) ∧
    (worldAt cfg events k).store.Waiting id ∧ (worldAt cfg events (k + 1)).store.InClaim id

/-- After the `k`-th event the start waits again. -/
def ReturnedAt (k : Nat) (id : String) : Prop :=
  (worldAt cfg events k).store.Settled id ∧ ¬(worldAt cfg events k).store.Waiting id ∧
    (worldAt cfg events (k + 1)).store.Waiting id

/-- Each accepted start has reserved the next sequence. -/
def ReservesNext : Prop :=
  ∀ k id r, AcceptedAt cfg events k id →
    (worldAt cfg events (k + 1)).store.record? id = some r →
    r.stableTurnID = clientMutationTurnID ((worldAt cfg events k).store.nextTurnSequence + 1)

end Run

section Claims

variable {cfg : Config} {events : List Event}

theorem worldAt_succ {k : Nat} {event : Event} (h : events[k]? = some event) :
    worldAt cfg events (k + 1) = (step cfg (worldAt cfg events k) event).1 := by
  unfold worldAt run
  rw [take_add_one, h, foldl_append]
  rfl

theorem worldAt_end {k : Nat} (h : events[k]? = none) :
    worldAt cfg events (k + 1) = worldAt cfg events k := by
  unfold worldAt
  rw [take_add_one, h]
  simp

theorem worldAt_inv (k : Nat) : WorldInv (worldAt cfg events k) := run_worldInv _ worldInv_empty

theorem worldAt_evolves {j k : Nat} (h : j ≤ k) :
    (worldAt cfg events j).store.Evolves (worldAt cfg events k).store := by
  induction h with
  | refl => exact .of_journal rfl
  | step h ih =>
    next k =>
    refine ih.trans ?_
    cases hevent : events[k]? with
    | none => exact .of_journal (by rw [worldAt_end hevent])
    | some event =>
      rw [worldAt_succ hevent]
      exact (step_advances (worldAt_inv k) event).evolves

/-- A start that waits has been applied, and goes by the name of its record. -/
theorem Inv.waiting {accepted : String → Option Input} (h : Inv accepted s) {id : String}
    {p : PendingMutation} (hp : s.pending? id = some p) (hmethod : p.method = .start) :
    ∃ r, s.record? id = some r ∧ r.method = .start ∧ r.operationState = .applied ∧
      p.turnID = r.stableTurnID := by
  obtain ⟨_, r, hr, hstate, hsame, hturn⟩ := (h.held_pending hp).of_pending
  exact ⟨r, hr, hsame ▸ hmethod, hstate, hturn⟩

theorem pending?_claimStart {record : Record} {pending : PendingMutation} {id : String}
    (h : pending.clientMutationID ≠ id) : (claimStart s record pending).1.pending? id = s.pending? id := by
  unfold claimStart
  split
  · exact (Snapshot.pending?_putPending _ _ id).trans (if_neg h)
  · exact (Snapshot.pending?_putPending _ _ id).trans (if_neg h)

theorem pending?_claimQueueEntry (record : Record) (entry : QueueEntry) (rest : List QueueEntry)
    (id : String) : (claimQueueEntry s record entry rest).1.pending? id =
      if entry.clientMutationID = id then
        some
          { clientMutationID := entry.clientMutationID
            method := record.method
            input := entry.input
            executionState := .claimed
            turnID := record.stableTurnID
            queueEntryIDs := [entry.id]
            projectionState := acceptedClientMutationProjection record.method }
      else s.pending? id :=
  Snapshot.pending?_putPending _ _ id

/-- A claim that takes a start takes the first one. -/
theorem claimClientMutationStart_first {order : List String} {healthy : Bool} {id : String}
    {queued : Option QueuedInput}
    (h : claimClientMutationStart recoveredTurnID order healthy s = some (next, queued))
    (hwaiting : s.Waiting id) (hclaimed : next.InClaim id) :
    ∃ rest, claimableClientMutationStartIDs recoveredTurnID s = id :: rest := by
  obtain ⟨p, hp, hmethod, hstate⟩ := hwaiting
  obtain ⟨p', hp', hmethod', hstate'⟩ := hclaimed
  have hchanged : next.pending? id ≠ s.pending? id := by
    intro hsame
    rw [hsame, hp] at hp'
    obtain rfl := Option.some.inj hp'
    rw [hstate] at hstate'
    cases hstate'
  unfold claimClientMutationStart at h
  generalize hids : (if s.interruptFence.isNone then
    claimableClientMutationStartIDs recoveredTurnID s else []) = startIDs at h
  cases startIDs with
  | cons first rest =>
    split at hids
    · obtain ⟨pending, hpending, h⟩ := Option.bind_eq_some_iff.mp h
      obtain ⟨record, _, h⟩ := Option.bind_eq_some_iff.mp h
      have hfirst := s.key_of_pending? hpending
      split at h
      · cases h
      · obtain rfl := (Prod.mk.inj (Option.some.inj h)).1
        by_cases hsame : first = id
        · exact ⟨rest, hsame ▸ hids⟩
        · refine absurd (pending?_claimStart ?_) hchanged
          exact hfirst ▸ hsame
    · cases hids
  | nil =>
    dsimp only at h
    split at h
    · split at h
      · cases h
      · obtain rfl := (Prod.mk.inj (Option.some.inj h)).1
        exact absurd rfl hchanged
    · split at h
      · obtain rfl := (Prod.mk.inj (Option.some.inj h)).1
        exact absurd rfl hchanged
      · next entry rest _ =>
        split at h
        · obtain rfl := (Prod.mk.inj (Option.some.inj h)).1
          exact absurd rfl hchanged
        · next record _ =>
          split at h
          · obtain rfl := (Prod.mk.inj (Option.some.inj h)).1
            exact absurd rfl hchanged
          · next hopen =>
            split at h
            · cases h
            · obtain rfl := (Prod.mk.inj (Option.some.inj h)).1
              simp only [not_or, not_not] at hopen
              rw [pending?_claimQueueEntry] at hp' hchanged
              split at hp'
              · obtain rfl := Option.some.inj hp'
                exact absurd (hopen.1.symm.trans hmethod') (by simp)
              · next hother =>
                rw [if_neg hother] at hchanged
                exact absurd rfl hchanged

theorem clientMutationStartSequence_turnID {n m : Nat}
    (h : clientMutationStartSequence (clientMutationTurnID n) = some m) : m = n := by
  have hdigits : (clientMutationTurnID n).toList.drop 6 = Nat.toDigits 10 n := by
    unfold clientMutationTurnID
    rw [String.toList_append, Nat.toString_eq_ofList_toDigits]
    exact String.toList_ofList
  unfold clientMutationStartSequence at h
  dsimp only at h
  rw [hdigits] at h
  split at h
  · have hvalue := Option.some.inj h
    simpa using hvalue.symm
  · cases h

/-- Among names with a sequence the first start has the least one. -/
theorem sequence_le_of_first {first id : String} {rest : List String} {m n : Nat}
    (h : claimableClientMutationStartIDs recoveredTurnID s = first :: rest)
    (hid : id ∈ claimableStarts s)
    (hfirst : clientMutationStartSequence (startTurnID s first) = some m)
    (hseq : clientMutationStartSequence (startTurnID s id) = some n) : m ≤ n := by
  have hle : startRank recoveredTurnID s first ≤ startRank recoveredTurnID s id := by
    have hsorted := @sortBy_pairwise _ _ _ (startRank recoveredTurnID s) (claimableStarts s)
    have hmem : id ∈ claimableClientMutationStartIDs recoveredTurnID s := mem_sortBy.mpr hid
    change (claimableClientMutationStartIDs recoveredTurnID s).Pairwise _ at hsorted
    rw [h] at hsorted hmem
    rcases mem_cons.mp hmem with rfl | hmem
    · exact le_refl _
    · exact (pairwise_cons.mp hsorted).1 id hmem
  have hrank : ∀ {start k}, clientMutationStartSequence (startTurnID s start) = some k →
      startRank recoveredTurnID s start = toLex (1, toLex (0, toLex (k, start))) := by
    intro start k hk
    show toLex (if recoveredTurnID ≠ "" ∧ clientMutationStartSequence recoveredTurnID = none ∧
        startTurnID s start = recoveredTurnID then 0 else 1,
      toLex (if (clientMutationStartSequence (startTurnID s start)).isSome then 0 else 1,
        toLex ((clientMutationStartSequence (startTurnID s start)).getD 0, start))) = _
    rw [if_neg ?_, hk]
    · rfl
    · rintro ⟨_, hnone, hsame⟩
      rw [hsame, hnone] at hk
      cases hk
  rw [hrank hfirst, hrank hseq] at hle
  simp only [Prod.Lex.toLex_le_toLex] at hle
  omega

theorem mem_claimableStarts_of_waiting {id : String} (h : s.Waiting id) :
    id ∈ claimableStarts s := by
  obtain ⟨p, hp, hmethod, hstate⟩ := h
  refine mem_map.mpr ⟨p, mem_filter.mpr ⟨mem_of_lookup hp, ?_⟩, s.key_of_pending? hp⟩
  simp [hmethod, hstate]

theorem Inv.settled_of_waiting {accepted : String → Option Input} (h : Inv accepted s) {id : String}
    (hwaiting : s.Waiting id) : s.Settled id := by
  obtain ⟨p, hp, hmethod, _⟩ := hwaiting
  obtain ⟨r, hr, _, hstate, _⟩ := h.waiting hp hmethod
  exact ⟨r, hr, by simp [hstate]⟩

/-- A start waits only once it is accepted. -/
theorem AcceptedAt.lt_of_waiting {k j : Nat} {id : String} (h : AcceptedAt cfg events k id)
    (hwaiting : (worldAt cfg events j).store.Waiting id) : k < j := by
  by_contra hle
  exact h.1 ((worldAt_evolves (not_lt.mp hle)).settled ((worldAt_inv j).store.settled_of_waiting hwaiting))

/-- The name that an accepted start waits under. -/
theorem AcceptedAt.turnID {k j : Nat} {id : String} (hnext : ReservesNext cfg events)
    (h : AcceptedAt cfg events k id) {p : PendingMutation}
    (hp : (worldAt cfg events j).store.pending? id = some p) (hmethod : p.method = .start)
    (hlt : k < j) : p.turnID =
      clientMutationTurnID ((worldAt cfg events k).store.nextTurnSequence + 1) := by
  obtain ⟨r, hr, _, _⟩ := h.2
  have hname := hnext k id r h hr
  obtain ⟨r', hr', hevolves⟩ := @worldAt_evolves cfg events _ _ hlt id r hr
  obtain ⟨r'', hr'', _, _, hturn⟩ := (worldAt_inv j).store.waiting hp hmethod
  rw [hr'] at hr''
  obtain rfl := Option.some.inj hr''
  rw [hturn, hevolves.turn (by rw [hname]; exact clientMutationTurnID_ne_empty _), hname]

/-- The sequences follow the order of acceptance. -/
theorem AcceptedAt.sequence_lt {p q : Nat} {a : String} (hnext : ReservesNext cfg events)
    (ha : AcceptedAt cfg events p a) (hpq : p < q) :
    (worldAt cfg events p).store.nextTurnSequence < (worldAt cfg events q).store.nextTurnSequence := by
  obtain ⟨r, hr, hmethod, _⟩ := ha.2
  have hname := hnext p a r ha hr
  obtain ⟨r', hr', hevolves⟩ := @worldAt_evolves cfg events _ _ hpq a r hr
  have hne : r.stableTurnID ≠ "" := by
    rw [hname]
    exact clientMutationTurnID_ne_empty _
  have hturn : r'.stableTurnID =
      clientMutationTurnID ((worldAt cfg events p).store.nextTurnSequence + 1) :=
    (hevolves.turn hne).trans hname
  have hown : r'.ownTurn = some r'.stableTurnID :=
    Record.ownTurn_eq_some.mpr ⟨by rw [hevolves.method, hmethod]; simp, hturn ▸ hname ▸ hne, rfl⟩
  obtain ⟨n, hn, hissued⟩ := (worldAt_inv q).store.turns.issued hr' hown
  have hsame := clientMutationTurnID_inj (hturn.symm.trans hissued)
  omega

/-- What does not wait now and waits later begins to wait in between. -/
theorem exists_returned {i j : Nat} {id : String} (hij : i ≤ j)
    (hsettled : (worldAt cfg events i).store.Settled id)
    (hnot : ¬(worldAt cfg events i).store.Waiting id)
    (hwaiting : (worldAt cfg events j).store.Waiting id) :
    ∃ k, i ≤ k ∧ k < j ∧ ReturnedAt cfg events k id := by
  induction hij with
  | refl => exact absurd hwaiting hnot
  | step hle ih =>
    next j =>
    by_cases hbefore : (worldAt cfg events j).store.Waiting id
    · obtain ⟨k, hik, hkj, hreturned⟩ := ih hbefore
      exact ⟨k, hik, by omega, hreturned⟩
    · exact ⟨j, hle, by omega, (worldAt_evolves hle).settled hsettled, hbefore, hwaiting⟩

theorem World.claim_commits (w : World) (save : Save)
    (f : Snapshot → Option (Snapshot × Option QueuedInput)) :
    (w.claim save f).1.store = w.store ∨
      ∃ next queued, f w.store = some (next, queued) ∧ (w.claim save f).1.store = next := by
  unfold World.claim
  split
  · exact Or.inl rfl
  · next next queued hnext =>
    split
    · exact Or.inr ⟨next, queued, hnext, rfl⟩
    · exact Or.inl rfl

theorem ClaimedAt.first {k : Nat} {id : String} (h : ClaimedAt cfg events k id) :
    ∃ rest, claimableClientMutationStartIDs (worldAt cfg events k).recoveredTurnID
      (worldAt cfg events k).store = id :: rest := by
  obtain ⟨⟨order, healthy, save, hevent⟩, hwaiting, hclaimed⟩ := h
  rw [worldAt_succ hevent] at hclaimed
  rcases (worldAt cfg events k).claim_commits save (claimClientMutationStart
    (worldAt cfg events k).recoveredTurnID order healthy) with hsame | ⟨next, queued, hnext, hstore⟩
  · obtain ⟨p, hp, _, hstate⟩ := hwaiting
    obtain ⟨p', hp', _, hstate'⟩ := hclaimed
    change ((worldAt cfg events k).claim save _).1.store.pending? id = some p' at hp'
    rw [hsame, hp] at hp'
    obtain rfl := Option.some.inj hp'
    rw [hstate] at hstate'
    cases hstate'
  · change ((worldAt cfg events k).claim save _).1.store.InClaim id at hclaimed
    rw [hstore] at hclaimed
    exact claimClientMutationStart_first hnext hwaiting hclaimed

/-- A start that is claimed behind a later one was returned in between. -/
theorem claimed_behind_returned {p q i j : Nat} {a b : String} (hnext : ReservesNext cfg events)
    (ha : AcceptedAt cfg events p a) (hb : AcceptedAt cfg events q b) (hpq : p < q)
    (hclaimedB : ClaimedAt cfg events i b) (hseqB : (worldAt cfg events i).store.Sequenced b)
    (hclaimedA : ClaimedAt cfg events j a) (hseqA : (worldAt cfg events j).store.Sequenced a)
    (hij : i < j) : ∃ k, i ≤ k ∧ k < j ∧ ReturnedAt cfg events k a := by
  obtain ⟨pb, hpb, hmethodB, _⟩ := hclaimedB.2.1
  have hqi : q < i := hb.lt_of_waiting hclaimedB.2.1
  have hpi : p < i := by omega
  refine exists_returned (Nat.le_of_lt hij) ?_ ?_ hclaimedA.2.1
  · obtain ⟨r, hr, _, hstate⟩ := ha.2
    exact (worldAt_evolves hpi).settled ⟨r, hr, by simp [hstate]⟩
  · intro hwaitingA
    obtain ⟨pa, hpa, hmethodA, _⟩ := id hwaitingA
    obtain ⟨pa', hpa', hmethodA', _⟩ := hclaimedA.2.1
    -- the names carry the sequences that were next when the starts were accepted
    have hnameA := ha.turnID hnext hpa hmethodA hpi
    have hnameB := hb.turnID hnext hpb hmethodB hqi
    have hnameA' := ha.turnID hnext hpa' hmethodA' (by omega)
    obtain ⟨pb', n, hpb', hn⟩ := hseqB
    obtain rfl : pb = pb' := Option.some.inj (hpb.symm.trans hpb')
    obtain ⟨pa'', m, hpa'', hm⟩ := hseqA
    obtain rfl : pa' = pa'' := Option.some.inj (hpa'.symm.trans hpa'')
    rw [hnameA', ← hnameA] at hm
    obtain ⟨rest, hfirst⟩ := hclaimedB.first
    have hle : n ≤ m := sequence_le_of_first hfirst (mem_claimableStarts_of_waiting hwaitingA)
      (by rw [startTurnID, hpb]; exact hn) (by rw [startTurnID, hpa]; exact hm)
    have hmA := clientMutationStartSequence_turnID (hnameA ▸ hm)
    have hnB := clientMutationStartSequence_turnID (hnameB ▸ hn)
    have hlt := ha.sequence_lt hnext hpq
    omega

/-- Only the records a run holds need be looked at. -/
theorem reservesNext_of_journal (h : ∀ k < events.length, ∀ r ∈ (worldAt cfg events (k + 1)).store.journal,
    (worldAt cfg events k).store.Settled r.clientMutationID ∨ r.operationState ≠ .applied ∨
      r.stableTurnID = clientMutationTurnID ((worldAt cfg events k).store.nextTurnSequence + 1)) :
    ReservesNext cfg events := by
  intro k id r haccepted hr
  obtain ⟨r', hr', _, hstate⟩ := haccepted.2
  obtain rfl : r = r' := Option.some.inj (hr.symm.trans hr')
  have hk : k < events.length := by
    by_contra hend
    refine haccepted.1 ⟨r, ?_, by simp [hstate]⟩
    rw [← worldAt_end (getElem?_eq_none (not_lt.mp hend))]
    exact hr
  rcases h k hk r (mem_of_lookup hr) with hold | hnot | hname
  · rw [(worldAt cfg events (k + 1)).store.key_of_record? hr] at hold
    exact absurd hold haccepted.1
  · exact absurd hstate hnot
  · exact hname

end Claims

/-- The turn the runnable predicate names is the one the claim takes; the starts have one order,
    and it is the order of acceptance, but for a start that was returned. -/
theorem runnable_names_claim :
    (∀ (s : Snapshot) (recoveredTurnID : String) (order order' : List String), s.Claimable →
      s.VisitOrder order → s.VisitOrder order' → ∀ turnID,
        runnableClientMutationStartTurnID recoveredTurnID order s = (turnID, true) ↔
          ClaimsTurn recoveredTurnID order' s turnID) ∧
    (∀ (s : Snapshot) (recoveredTurnID : String),
      IsStrictTotalOrder String (fun a b => compareStartIDs recoveredTurnID s a b = .lt) ∧
        ∀ startIDs sorted, startIDs.Perm (claimableStarts s) → sorted.Perm startIDs →
          (sorted.Pairwise fun a b => compareStartIDs recoveredTurnID s a b ≠ .gt) →
          sorted = claimableClientMutationStartIDs recoveredTurnID s) ∧
    ∀ (cfg : Config) (events : List Event), ReservesNext cfg events →
      ∀ (p q i j : Nat) (a b : String), AcceptedAt cfg events p a → AcceptedAt cfg events q b →
        p < q → ClaimedAt cfg events i b → (worldAt cfg events i).store.Sequenced b →
        ClaimedAt cfg events j a → (worldAt cfg events j).store.Sequenced a → i < j →
        ∃ k, i ≤ k ∧ k < j ∧ ReturnedAt cfg events k a :=
  ⟨fun _ _ _ _ h horder horder' => runnable_iff_claims h horder horder',
    fun s recoveredTurnID => ⟨compareStartIDs_order recoveredTurnID s,
      fun _ _ => claimableClientMutationStartIDs_unique⟩,
    fun _ _ hnext _ _ _ _ _ _ => claimed_behind_returned hnext⟩

/-- The first of two starts is claimed, returned and claimed behind the second one. -/
def returnedRun : List Event :=
  [.accept
      { method := .start
        params := { clientMutationID := "m1", input := [{ type := "text", text := "hi" }] }
        payloadHash := "h1" } {},
    .claimStart [] true .saved, .releaseTurn "turn_m1" .saved,
    .accept
      { method := .start
        params := { clientMutationID := "m2", input := [{ type := "text", text := "ho" }] }
        payloadHash := "h2" } {},
    .claimStart [] true .saved, .returnStart "m1" .saved, .claimStart [] true .saved]

theorem runnable_names_claim_returned :
    let cfg : Config := { threadID := "t", maxTurns := 0 }
    let s := (worldAt cfg returnedRun 1).store
    (runnableClientMutationStartTurnID "" ["m1"] s = ("turn_m1", true) ↔
        ClaimsTurn "" ["m1"] s "turn_m1") ∧
      ["m1"] = claimableClientMutationStartIDs "" s ∧
      ∃ k, 4 ≤ k ∧ k < 6 ∧ ReturnedAt cfg returnedRun k "m1" := by
  intro cfg s
  refine ⟨runnable_names_claim.1 s "" ["m1"] ["m1"] ⟨by decide, nodup_singleton _, by decide,
    by decide⟩ (List.Perm.refl _) (List.Perm.refl _) "turn_m1", ?_, ?_⟩
  · exact (runnable_names_claim.2.1 s "").2 ["m1"] ["m1"] (List.Perm.refl _) (List.Perm.refl _)
      (pairwise_singleton _ _)
  · exact runnable_names_claim.2.2 cfg returnedRun (reservesNext_of_journal (by decide))
      0 3 4 6 "m1" "m2" (by decide) (by decide) (by decide)
      ⟨⟨_, _, _, rfl⟩, by decide, by decide⟩ (by decide)
      ⟨⟨_, _, _, rfl⟩, by decide, by decide⟩ (by decide) (by decide)

/-- A pending start that the journal does not hold is named, and the claim fails. -/
def unjournaledStart : Snapshot where
  pendingExecutions :=
    [{ clientMutationID := "m1"
       method := .start
       input := []
       executionState := .accepted
       turnID := "turn_m1"
       projectionState := .pending }]

theorem unjournaled_not_claimed :
    validateClientMutationSnapshot unjournaledStart = true ∧
      unjournaledStart.VisitOrder ["m1"] ∧
      runnableClientMutationStartTurnID "" ["m1"] unjournaledStart = ("turn_m1", true) ∧
      ¬ClaimsTurn "" ["m1"] unjournaledStart "turn_m1" := by
  refine ⟨by decide, List.Perm.refl _, by decide, ?_⟩
  rintro ⟨next, queued, hclaim, _⟩
  have hnone : claimClientMutationStart "" ["m1"] true unjournaledStart = none := by decide
  rw [hnone] at hclaim
  cases hclaim

end Evener.ClientMutation
