/-
  What a claim finds while a Stop lasts.

  From the acceptance of an interrupt to its finalization every claim finds the fence; past it the
  holds keep the queue and the pending steers, until the user asks for a run again
  (`Event.Releases`).
-/
import Evener.ClientMutation.Delivery

namespace Evener.ClientMutation

open Evener.Lib Option

variable {w : World} {cfg : Config} {event : Event} {f : InterruptFence} {queued : QueuedInput}

/-! ## Claims -/

def Event.isClaim : Event → Bool
  | .popQueueHead .. | .claimStart .. | .claimCarrier .. | .mintTurn .. => true
  | _ => false

/-- What a claim takes, whatever becomes of its save. -/
def claimedBy (w : World) : Event → Option QueuedInput
  | .popQueueHead healthy _ => (popQueueHead healthy w.store).bind Prod.snd
  | .claimStart order healthy _ =>
    (claimClientMutationStart w.recoveredTurnID order healthy w.store).bind Prod.snd
  | .claimCarrier inFlight healthy _ =>
    (claimSteeringCarrierInput inFlight healthy w.store).bind Prod.snd
  | _ => none

/-- A turn of queued input the transcript holds, that still has the slot. -/
def Incorporated (s : Snapshot) (queued : QueuedInput) : Prop :=
  ∃ pending, s.pending? queued.clientMutationID = some pending ∧ pending.method = .queue ∧
    pending.executionState = .incorporated ∧ pending.turnID ≠ "" ∧
    pending.turnID = queued.stableTurnID ∧ s.activeTurnID = pending.turnID

theorem World.claim_store {save : Save} {g : Snapshot → Option (Snapshot × Option QueuedInput)}
    {α : Type} (view : Snapshot → α) (hg : ∀ {next q}, g w.store = some (next, q) →
      view next = view w.store) : view (w.claim save g).1.store = view w.store := by
  unfold World.claim
  split
  · rfl
  · next next q hnext =>
    split
    · exact hg hnext
    · rfl

theorem mintTurn_store {save : Save} {α : Type} (view : Snapshot → α)
    (hview : view (mintRunningTurnID w.store).1 = view w.store) :
    view (step cfg w (.mintTurn save)).1.store = view w.store := by
  show view (w.mutate save _).1.store = _
  unfold World.mutate
  dsimp only
  split
  · exact hview
  · rfl

/-- The queue branch of a start's claim. -/
theorem incorporated_of_incorporatedQueueTurn {s : Snapshot} {order : List String}
    {pending : PendingMutation} (hturn : incorporatedQueueTurn? order s = some pending) :
    s.pending? pending.clientMutationID = some pending ∧ pending.method = .queue ∧
      pending.executionState = .incorporated ∧ pending.turnID ≠ "" ∧
      s.activeTurnID = pending.turnID := by
  obtain ⟨id, _, hp⟩ := List.exists_of_findSome?_eq_some hturn
  obtain ⟨hp, hstate⟩ := filter_eq_some_iff.mp hp
  have hkey := s.key_of_pending? hp
  simp only [Bool.and_eq_true, decide_eq_true_eq] at hstate
  exact ⟨hkey ▸ hp, hstate.1.1.1, hstate.1.1.2, by simpa using hstate.1.2, hstate.2⟩

/-- A claim of starts hands out an incorporated turn and changes nothing, or it claims a start and
    there is no fence. It never takes an entry of the queue on the strength of the slot. -/
theorem claimClientMutationStart_cases {accepted : String → Option Input} {s s' : Snapshot}
    {recoveredTurnID : String} {order : List String} {healthy : Bool} {q : Option QueuedInput}
    (h : Inv accepted s)
    (hclaim : claimClientMutationStart recoveredTurnID order healthy s = some (s', q)) :
    (s' = s ∧ ∀ queued, q = some queued → healthy = true ∧ Incorporated s queued) ∨
      (s.interruptFence = none ∧ ∃ id r p, s.record? id = some r ∧ s.pending? id = some p ∧
        p.method = .start ∧ (p.executionState = .accepted ∨ p.executionState = .incorporated) ∧
        s' = (claimStart s r p).1) := by
  unfold claimClientMutationStart at hclaim
  dsimp only at hclaim
  split at hclaim
  · next id ids hids =>
    refine Or.inr ?_
    split at hids
    · next hfence =>
      refine ⟨by simpa using hfence, ?_⟩
      obtain ⟨p, hp, hmethod, hstate⟩ :=
        pending_of_claimable h (show id ∈ claimableClientMutationStartIDs recoveredTurnID s by
          rw [hids]; exact List.mem_cons_self)
      obtain ⟨p₀, hp₀, hclaim⟩ := bind_eq_some_iff.mp hclaim
      obtain rfl : p = p₀ := some.inj (hp.symm.trans hp₀)
      obtain ⟨r, hr, hclaim⟩ := bind_eq_some_iff.mp hclaim
      split at hclaim
      · simp at hclaim
      · simp only [Option.pure_def, Option.some.injEq, Prod.mk.injEq] at hclaim
        exact ⟨id, r, p, hr, hp, hmethod, hstate, hclaim.1.symm⟩
    · simp at hids
  · refine Or.inl ?_
    split at hclaim
    · next pending hturn =>
      split at hclaim
      · simp at hclaim
      · next hhealthy =>
        simp only [Option.some.injEq, Prod.mk.injEq] at hclaim
        obtain ⟨rfl, rfl⟩ := hclaim
        refine ⟨rfl, fun queued hq => ?_⟩
        obtain rfl := some.inj hq
        obtain ⟨hp, hmethod, hstate, hnamed, hslot⟩ := incorporated_of_incorporatedQueueTurn hturn
        exact ⟨by simpa using hhealthy, pending, hp, hmethod, hstate, hnamed, rfl, hslot⟩
    · split at hclaim
      · simp only [Option.some.injEq, Prod.mk.injEq] at hclaim
        exact ⟨hclaim.1.symm, fun _ hq => by simp [← hclaim.2] at hq⟩
      · next entry rest hqueue =>
        split at hclaim
        · simp only [Option.some.injEq, Prod.mk.injEq] at hclaim
          exact ⟨hclaim.1.symm, fun _ hq => by simp [← hclaim.2] at hq⟩
        · next record hr =>
          split at hclaim
          · simp only [Option.some.injEq, Prod.mk.injEq] at hclaim
            exact ⟨hclaim.1.symm, fun _ hq => by simp [← hclaim.2] at hq⟩
          · next hslot =>
            -- the slot would name a turn that waits in the queue
            simp only [not_or, not_not] at hslot
            have hentry : s.entriesOf entry.clientMutationID ≠ [] :=
              List.ne_nil_of_mem (s.mem_entriesOf.mpr ⟨by simp [hqueue], rfl⟩)
            exact absurd hslot.2.2 (h.slot hentry hr hslot.2.1)

theorem claimStart_inputQueue (s : Snapshot) (r : Record) (p : PendingMutation) :
    (claimStart s r p).1.inputQueue = s.inputQueue := by
  unfold claimStart
  split <;> rfl

/-- Under a fence a claim leaves the store as it is, and hands out nothing but an incorporated
    turn of queued input, through the claim of starts. -/
theorem claim_under_fence (h : WorldInv w) (hfence : w.store.interruptFence = some f)
    (hclaim : event.isClaim = true) :
    (step cfg w event).1.store = w.store ∧
      ∀ queued, claimedBy w event = some queued →
        (∃ order save, event = .claimStart order true save) ∧ Incorporated w.store queued := by
  cases event with
  | popQueueHead healthy save =>
    have hhead : popQueueHead healthy w.store = some (w.store, none) := by
      have : queueHeadClaimable w.store = false := by
        unfold queueHeadClaimable
        split
        · rfl
        · simp [hfence]
      simp [popQueueHead, this]
    refine ⟨World.claim_store id fun hnext => ?_, fun queued hq => ?_⟩
    · rw [hhead] at hnext
      simp only [Option.some.injEq, Prod.mk.injEq] at hnext
      exact hnext.1.symm
    · simp [claimedBy, hhead] at hq
  | claimStart order healthy save =>
    have hcases : ∀ {s' q}, claimClientMutationStart w.recoveredTurnID order healthy w.store =
        some (s', q) → s' = w.store ∧
          ∀ queued, q = some queued → healthy = true ∧ Incorporated w.store queued := by
      intro s' q hnext
      rcases claimClientMutationStart_cases h.store hnext with hkept | hfree
      · exact hkept
      · simp [hfence] at hfree
    refine ⟨World.claim_store id fun hnext => (hcases hnext).1, fun queued hq => ?_⟩
    obtain ⟨⟨s', q⟩, hnext, rfl⟩ := bind_eq_some_iff.mp hq
    obtain ⟨rfl, hincorporated⟩ := (hcases hnext).2 queued rfl
    exact ⟨⟨order, save, rfl⟩, hincorporated⟩
  | claimCarrier inFlight healthy save =>
    have hrail : claimSteeringCarrierInput inFlight healthy w.store = some (w.store, none) := by
      simp [claimSteeringCarrierInput, steeringCarrierRailOpen, hfence]
    refine ⟨World.claim_store id fun hnext => ?_, fun queued hq => ?_⟩
    · rw [hrail] at hnext
      simp only [Option.some.injEq, Prod.mk.injEq] at hnext
      exact hnext.1.symm
    · simp [claimedBy, hrail] at hq
  | mintTurn save =>
    refine ⟨mintTurn_store id ?_, fun queued hq => by simp [claimedBy] at hq⟩
    simp [mintRunningTurnID, hfence]
  | _ => simp [Event.isClaim] at hclaim

/-! ## The holds -/

/-- The queue is held, and so is the steering while one of `steers` is in it. -/
structure Parked (steers : List String) (s : Snapshot) : Prop where
  queueHeld : s.queueHeld = true
  settled : ∀ id ∈ steers, s.Settled id
  steeringHeld : ∀ id ∈ steers, id ∈ s.steeringOrder → s.steeringHeld = true

/-- No step of the run ends the wait. -/
def Unreleased (cfg : Config) : World → List Event → Prop
  | _, [] => True
  | w, event :: events =>
    ¬event.Releases cfg w ∧ Unreleased cfg (step cfg w event).1 events

theorem Advances.parked {steers visited : List String} {released : Prop} {w' : World}
    (h : Advances visited released w w') (hparked : Parked steers w.store) (hwait : ¬released) :
    Parked steers w'.store where
  queueHeld := (h.waits.queueHeld hparked.queueHeld).resolve_right hwait
  settled id hid := h.evolves.settled (hparked.settled id hid)
  steeringHeld := by
    intro id hid hplace
    have hsettled := hparked.settled id hid
    have hheld := hparked.steeringHeld id hid (h.waits.order hplace hsettled)
    exact (h.waits.steeringHeld hheld hplace hsettled).resolve_right hwait

theorem run_parked {steers : List String} (events : List Event) (h : WorldInv w)
    (hparked : Parked steers w.store) (hwait : Unreleased cfg w events) :
    Parked steers (run cfg w events).store := by
  induction events generalizing w with
  | nil => exact hparked
  | cons event events ih =>
    have hstep := @step_advances w cfg h event
    exact ih hstep.inv (hstep.parked hparked hwait.1) hwait.2

/-- What an interrupt's reservation leaves in the store. -/
theorem reservePrepared_store (params : Params) (payloadHash : String) (running : Bool)
    (attempt : World.Attempt) :
    let s := (w.reservePrepared params payloadHash running attempt).1.store
    s = w.store ∨ (∃ r, s = w.store.putRecord r) ∨
      ∃ r r', s = (prepareInterrupt running w.store r).1.putRecord r' := by
  intro s
  have hs : s = (w.reservePrepared params payloadHash running attempt).1.store := rfl
  unfold World.reservePrepared at hs
  dsimp only at hs
  split at hs
  · exact Or.inl hs
  · split at hs
    · next r _ =>
      have htakeover : s = w.store ∨ s = w.store.putRecord (World.nextAttempt r) := by
        (repeat' split at hs) <;> first | exact Or.inl hs | exact Or.inr hs
      exact htakeover.imp_right fun hput => Or.inl ⟨_, hput⟩
    · split at hs
      · exact Or.inl hs
      · split at hs
        · exact Or.inr (Or.inr ⟨_, _, hs⟩)
        · split at hs <;> exact Or.inr (Or.inr ⟨_, _, hs⟩)

/-- The acceptance of an interrupt holds the queue and what is pending of the steering. -/
theorem interrupt_parks {params : Params} {payloadHash : String} {running : Bool}
    {attempt : World.Attempt} {w' : World} (h : WorldInv w) (hopen : w.store.interruptFence = none)
    (hw' : (step cfg w (.interrupt params payloadHash running attempt)).1 = w')
    (hfence : w'.store.interruptFence = some f) : Parked w.store.steeringOrder w'.store := by
  have hstep : Advances [] False w w' :=
    hw' ▸ step_advances h (.interrupt params payloadHash running attempt)
  have hraised : w'.store.queueHeld = true ∧
      w'.store.steeringHeld = snapshotHasPendingUserSteering w.store := by
    rcases @reservePrepared_store w params payloadHash running attempt with hs | ⟨r, hs⟩ | ⟨r, r', hs⟩
    · rw [show w'.store = w.store from hw' ▸ hs, hopen] at hfence
      simp at hfence
    · rw [show w'.store = w.store.putRecord r from hw' ▸ hs] at hfence
      simp [Snapshot.putRecord, hopen] at hfence
    · rw [show w'.store = (prepareInterrupt running w.store r).1.putRecord r' from hw' ▸ hs] at hfence ⊢
      unfold prepareInterrupt at hfence ⊢
      split
      · next hsome => simp [hopen] at hsome
      · split
        · next hquiet => simp [Snapshot.putRecord, hopen, hquiet] at hfence
        · exact ⟨rfl, rfl⟩
  refine ⟨hraised.1, ?_, ?_⟩
  · intro id hid
    obtain ⟨r, hr, hstate, _⟩ := h.store.accounted.steering id hid
    exact hstep.evolves.settled ⟨r, hr, by simp [hstate]⟩
  · intro id hid _
    rw [hraised.2]
    exact (hasPendingUserSteering_iff h.store).mpr (List.ne_nil_of_mem hid)

/-- While the queue is held and the steers parked, a claim takes no entry of the queue and none of
    the parked steers. -/
theorem claim_while_parked {steers : List String} (h : WorldInv w) (hparked : Parked steers w.store)
    (hclaim : event.isClaim = true) :
    (step cfg w event).1.store.inputQueue = w.store.inputQueue ∧
      ∀ inFlight healthy save queued, event = .claimCarrier inFlight healthy save →
        claimedBy w event = some queued → queued.clientMutationID ∉ steers := by
  cases event with
  | popQueueHead healthy save =>
    have hhead : popQueueHead healthy w.store = some (w.store, none) := by
      have : queueHeadClaimable w.store = false := by
        unfold queueHeadClaimable
        split
        · rfl
        · simp [hparked.queueHeld]
      simp [popQueueHead, this]
    refine ⟨World.claim_store Snapshot.inputQueue fun hnext => ?_, by simp⟩
    rw [hhead] at hnext
    simp only [Option.some.injEq, Prod.mk.injEq] at hnext
    rw [hnext.1]
  | claimStart order healthy save =>
    refine ⟨World.claim_store Snapshot.inputQueue fun hnext => ?_, by simp⟩
    rcases claimClientMutationStart_cases h.store hnext with ⟨rfl, _⟩ | ⟨_, _, r, p, _, _, _, _, rfl⟩
    · rfl
    · exact claimStart_inputQueue _ r p
  | claimCarrier inFlight healthy save =>
    refine ⟨World.claim_store Snapshot.inputQueue fun hnext => ?_, ?_⟩
    · unfold claimSteeringCarrierInput at hnext
      split at hnext
      · simp only [Option.some.injEq, Prod.mk.injEq] at hnext
        rw [hnext.1]
      · split at hnext
        · simp only [Option.some.injEq, Prod.mk.injEq] at hnext
          rw [hnext.1]
        · split at hnext
          · simp at hnext
          · simp only [Option.some.injEq, Prod.mk.injEq] at hnext
            rw [← hnext.1]
    · intro _ _ _ queued _ hq hmem
      obtain ⟨⟨s', q⟩, hnext, rfl⟩ := bind_eq_some_iff.mp hq
      unfold claimSteeringCarrierInput at hnext
      split at hnext
      · simp at hnext
      · next hrail =>
        split at hnext
        · simp at hnext
        · next pending hcarrier =>
          split at hnext
          · simp at hnext
          · simp only [Option.some.injEq, Prod.mk.injEq] at hnext
            obtain ⟨_, rfl⟩ := hnext
            -- a steer in the order keeps the hold, and the rail is open
            have hheld := hparked.steeringHeld _ hmem (pending_of_carrier hcarrier).1
            simp [steeringCarrierRailOpen, hheld] at hrail
  | mintTurn save =>
    refine ⟨mintTurn_store Snapshot.inputQueue ?_, by simp⟩
    unfold mintRunningTurnID
    split <;> rfl
  | _ => simp [Event.isClaim] at hclaim

end Evener.ClientMutation
