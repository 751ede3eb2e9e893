/-
  A Stop over every run.

  The claim of starts hands an incorporated turn that has the slot out again, also while the fence
  names it, and a start releases the holds of a Stop with its reservation, which a failure may
  leave without its effect. Where neither happens (`Holds`), a Stop holds to the end.
-/
import Evener.ClientMutation.StartOrder
import Evener.ClientMutation.Stops

namespace Evener.ClientMutation

open Evener.Lib Option

variable {w : World} {cfg : Config} {event : Event} {f : InterruptFence}

/-! ## Starts that are applied -/

theorem prepareStart_flies {recoveredTurnID : String} {params : Params} {s : Snapshot} {r : Record}
    (h : r.Fresh) :
    (prepareStart cfg recoveredTurnID params s r).2.stableTurnID = "" ∨
      (prepareStart cfg recoveredTurnID params s r).2.operationState = .inFlight := by
  unfold prepareStart
  split
  · exact Or.inl h.turn
  · split
    · exact Or.inl h.turn
    · split
      · exact Or.inl h.turn
      · exact Or.inr h.state

/-- A start that is reserved waits for its effect. -/
theorem prepare_start_flies {recoveredTurnID : String} {request : InputRequest} {s : Snapshot}
    {r : Record} (hmethod : request.method = .start) (h : r.Fresh)
    (hturn : (acceptClientMutationPrepare cfg recoveredTurnID request s r).2.stableTurnID ≠ "") :
    (acceptClientMutationPrepare cfg recoveredTurnID request s r).2.operationState = .inFlight := by
  have hflies := @prepareStart_flies cfg recoveredTurnID request.params s r h
  unfold acceptClientMutationPrepare at hturn ⊢
  rw [hmethod] at hturn ⊢
  split
  · next hfence =>
    rw [if_pos hfence] at hturn
    exact absurd h.turn hturn
  · next hfence =>
    rw [if_neg hfence] at hturn
    dsimp only [prepareMethod] at hturn ⊢
    split
    · next hrejected =>
      rw [if_pos hrejected] at hturn
      exact hflies.resolve_left hturn
    · next hrejected =>
      rw [if_neg hrejected] at hturn
      exact hflies.resolve_left hturn

/-- The effect of a start applies it, if it is saved. -/
theorem World.applyEffect_start {request : InputRequest} {r : Record} {save : Save}
    (hmethod : request.method = .start)
    (hvalid : validateClientMutationSnapshot w.store = true)
    (hr : w.store.record? request.params.clientMutationID = some r)
    (hflight : r.operationState = .inFlight) (hsave : save.renamed = true) :
    ∃ r', (w.applyEffect request cfg save).1.store.record? request.params.clientMutationID = some r' ∧
      r'.operationState = .applied ∧ r'.method = r.method := by
  have hrecord : validRecord r = true := by
    unfold validateClientMutationSnapshot at hvalid
    rw [Bool.and_eq_true, List.all_eq_true] at hvalid
    exact hvalid.1 r (mem_of_lookup hr)
  unfold validRecord at hrecord
  simp only [Bool.and_eq_true, decide_eq_true_eq, beq_iff_eq, hflight] at hrecord
  obtain ⟨s', pending, response, heffect, hjournal, hpendings, hkey⟩ :
      ∃ s' pending response, effectMethod cfg request.params request.method w.store r =
          some (s', applyClientMutationRecord r response (acceptedClientMutationProjection r.method)) ∧
        s'.journal = w.store.journal ∧ s'.pendingExecutions =
          put PendingMutation.clientMutationID pending w.store.pendingExecutions ∧
        pending.clientMutationID = r.clientMutationID := by
    rw [hmethod]
    refine ⟨_, { actor := wireSessionActor r.actor, clientMutationID := r.clientMutationID
                 method := r.method, input := request.params.input, executionState := .accepted
                 turnID := r.stableTurnID
                 projectionState := acceptedClientMutationProjection r.method }, _, rfl, ?_, ?_, rfl⟩
    · split <;> rfl
    · split <;> rfl
  have hnext : validateClientMutationSnapshot (s'.putRecord (applyClientMutationRecord r response
      (acceptedClientMutationProjection r.method))) = true := by
    refine validate_put hvalid (congrArg (put Record.clientMutationID _) hjournal) hpendings ?_ ?_
    · unfold validRecord applyClientMutationRecord
      simp only [Bool.and_eq_true, decide_eq_true_eq, beq_iff_eq]
      exact hrecord
    · rw [hkey]
      exact hrecord.1.1.1
  unfold World.applyEffect
  rw [hr]
  dsimp only
  rw [heffect]
  dsimp only
  rw [if_pos (by rw [hnext, hsave]; rfl)]
  refine ⟨applyClientMutationRecord r response (acceptedClientMutationProjection r.method), ?_, rfl, rfl⟩
  change (Snapshot.putRecord _ _).record? _ = _
  rw [Snapshot.record?_putRecord]
  exact if_pos (w.store.key_of_record? hr)

/-- A start that is reserved is applied, unless it fails in between. -/
theorem World.executeAtomic_applies {request : InputRequest} {attempt : World.Attempt}
    (h : WorldInv w) (hgood : request.method = .start →
      attempt.failsAfterReservation = false ∧ attempt.effectSave.renamed = true)
    (hreserved : StartReserved request.params.clientMutationID w.store
      (w.executeAtomic cfg request attempt).1.store) :
    InputApplied w.store (w.executeAtomic cfg request attempt).1.store := by
  obtain ⟨r', hnew, hr', hstart, hturn⟩ := hreserved
  have hsame : w.store.record? request.params.clientMutationID ≠ some r' := by
    rw [hnew]
    exact nofun
  have hunsettled : ¬w.store.Settled request.params.clientMutationID := by
    rintro ⟨r, hr, _⟩
    rw [hnew] at hr
    cases hr
  have hmethod : request.method.method = .start → request.method = .start := by
    cases request.method <;> simp [InputMethod.method]
  have hflies := @prepare_start_flies cfg w.recoveredTurnID request w.store (World.freshRecord request)
  unfold World.executeAtomic at hr' ⊢
  dsimp only at hr' ⊢
  rw [hnew] at hr' ⊢
  dsimp only at hr' ⊢
  have hprepare : acceptClientMutationPrepare cfg w.recoveredTurnID request w.store
    (World.freshRecord request) = (_, _) := Prod.mk.eta.symm
  obtain ⟨hadvances, hlook, _, hprepared⟩ := @WorldInv.reserve w cfg [] h _ _ _ hnew hprepare
  generalize acceptClientMutationPrepare cfg w.recoveredTurnID request w.store
    (World.freshRecord request) = prepared at hr' hadvances hlook hprepared hflies ⊢
  split at hr'
  · exact absurd hr' hsame
  · next hid =>
    rw [if_neg hid]
    split at hr'
    · exact absurd hr' hsame
    · next hreserve =>
      rw [if_neg hreserve]
      split at hr'
      · -- what is rejected has no turn
        next hsettled =>
        obtain rfl := some.inj (hlook.symm.trans hr')
        exact absurd (hflies (hmethod (hprepared.symm.trans hstart)) ⟨rfl, rfl, rfl⟩ hturn) hsettled
      · next hflight =>
        rw [if_neg hflight]
        rw [not_not] at hflight
        split at hr'
        · next hfails =>
          obtain rfl := some.inj (hlook.symm.trans hr')
          rw [(hgood (hmethod (hprepared.symm.trans hstart))).1] at hfails
          cases hfails
        · next hfails =>
          rw [if_neg hfails]
          obtain ⟨happlied, _⟩ := @World.applyEffect_advances _ cfg [] _ _ attempt.effectSave
            hadvances.inv hlook hflight hprepared
          obtain ⟨r₁, hr₁, hevolves⟩ := happlied.evolves _ _ hlook
          obtain rfl := some.inj (hr'.symm.trans hr₁)
          have hstarts := hmethod (hprepared.symm.trans (hevolves.method.symm.trans hstart))
          simp only [Bool.not_eq_true', Bool.not_eq_false, Bool.and_eq_true] at hreserve
          obtain ⟨r₂, hr₂, hstate, hsame⟩ := @World.applyEffect_start
            (w.commit (prepared.1.putRecord (World.nextAttempt prepared.2))
              [.prepare request.params.clientMutationID]) cfg _ _ _ hstarts hreserve.1 hlook hflight
            (hgood hstarts).2
          refine ⟨_, r₂, hunsettled, hr₂, hstate, Or.inl (hsame.trans (hprepared.trans ?_))⟩
          rw [hstarts]
          rfl

/-! ## A Stop over every run -/

/-- What the claim may find for a Stop to hold: no queued turn that the transcript has and the fence
    names. What an acceptance may do: apply each start that it reserves. -/
def Holds (w : World) : Event → Prop
  | .claimStart _ healthy _ => healthy = true → ∀ f, w.store.interruptFence = some f →
      ∀ pending ∈ w.store.pendingExecutions, w.store.HoldsSlot pending →
        pending.turnID ≠ f.expectedTurnID
  | .accept request attempt => request.method = .start →
      attempt.failsAfterReservation = false ∧ attempt.effectSave.renamed = true
  | _ => True

def HoldsAll (cfg : Config) : World → List Event → Prop
  | _, [] => True
  | w, event :: events => Holds w event ∧ HoldsAll cfg (step cfg w event).1 events

/-- No step of the run applies a start, queued input, a drain or a promotion. -/
def Unapplied (cfg : Config) : World → List Event → Prop
  | _, [] => True
  | w, event :: events =>
    ¬InputApplied w.store (step cfg w event).1.store ∧ Unapplied cfg (step cfg w event).1 events

theorem Holds.unreleased (h : WorldInv w) (hholds : Holds w event)
    (hwait : ¬InputApplied w.store (step cfg w event).1.store) : ¬event.Releases cfg w := by
  intro hreleases
  cases event with
  | accept request attempt =>
    rcases hreleases with hreserved | happlied
    · exact hwait (World.executeAtomic_applies h hholds hreserved)
    · exact hwait happlied
  | _ => exact hreleases

theorem HoldsAll.unreleased {events : List Event} (h : WorldInv w) (hholds : HoldsAll cfg w events)
    (hwait : Unapplied cfg w events) : Unreleased cfg w events := by
  induction events generalizing w with
  | nil => exact trivial
  | cons event events ih =>
    exact ⟨hholds.1.unreleased h hwait.1, ih (step_advances h event).inv hholds.2 hwait.2⟩

/-- What a claim may do while the fence `f` is up. -/
def ClaimFenced (cfg : Config) (f : InterruptFence) (w : World) (event : Event) : Prop :=
  (step cfg w event).1.store.activeTurnID = w.store.activeTurnID ∧
    ∀ queued, claimedBy w event = some queued → queued.stableTurnID ≠ f.expectedTurnID

/-- What a claim may do while the wait of a Stop lasts, for the steers that were pending. -/
def ClaimParked (cfg : Config) (steers : List String) (w : World) (event : Event) : Prop :=
  (step cfg w event).1.store.inputQueue = w.store.inputQueue ∧
    ∀ inFlight healthy save queued, event = .claimCarrier inFlight healthy save →
      claimedBy w event = some queued → queued.clientMutationID ∉ steers

/-- Right after the finalization of the fence `f`. -/
structure Finalized (f : InterruptFence) (s : Snapshot) : Prop where
  fence : s.interruptFence = none
  slot : s.activeTurnID = ""
  cleared : ∀ pending ∈ s.pendingExecutions, pending.clientMutationID ∉ s.steeringOrder →
    pending.turnID ≠ f.expectedTurnID

/-- In every run: a fence is never replaced; while it is up a claim takes no slot, and where
    `Holds` none hands out work for the fenced turn; from the acceptance of an interrupt until a
    start, queued input, a drain or a promotion is applied, no entry of the queue is claimed and no
    steer that was pending is claimed as a carrier, if every step `Holds`; and the step that takes
    the fence down, having visited every execution, leaves nothing of the fenced turn but
    steering. -/
theorem stop_holds (cfg : Config) (events : List Event) :
    let w := run cfg {} events
    (∀ f event, w.store.interruptFence = some f →
      (step cfg w event).1.store.interruptFence = some f ∨
        ((step cfg w event).1.store.interruptFence = none ∧
          ((∀ pending ∈ w.store.pendingExecutions, pending.clientMutationID ∈ event.visited) →
            Finalized f (step cfg w event).1.store))) ∧
    (∀ f event, w.store.interruptFence = some f → event.isClaim = true → Holds w event →
      ClaimFenced cfg f w event) ∧
    ∀ params payloadHash running attempt later f event,
      let accepted := (step cfg w (.interrupt params payloadHash running attempt)).1
      w.store.interruptFence = none → accepted.store.interruptFence = some f →
        HoldsAll cfg accepted later → Unapplied cfg accepted later → event.isClaim = true →
          ClaimParked cfg w.store.steeringOrder (run cfg accepted later) event := by
  intro w
  have hinv : WorldInv w := run_worldInv events worldInv_empty
  refine ⟨?_, ?_, ?_⟩
  · intro f event hfence
    have hstep := @step_advances w cfg hinv event
    refine (hstep.waits.fence hfence).imp_right fun ⟨hnone, hslot, hcleared⟩ => ⟨hnone, ?_⟩
    intro hvisits
    refine ⟨hnone, hslot, ?_⟩
    intro p hp hout hturn
    have hlook : (step cfg w event).1.store.pending? p.clientMutationID = some p :=
      (lookup_eq_some hstep.inv.store.pendingKeys).mpr ⟨hp, rfl⟩
    obtain ⟨hthere, hunvisited⟩ := hcleared hlook hout hturn
    obtain ⟨p₀, hp₀⟩ := Option.ne_none_iff_exists'.mp hthere
    obtain ⟨hmem, hkey⟩ := (lookup_eq_some hinv.store.pendingKeys).mp hp₀
    exact hunvisited (hkey ▸ hvisits p₀ hmem)
  · intro f event hfence hclaim hholds
    obtain ⟨hstore, hwork⟩ := @claim_under_fence w cfg event f hinv hfence hclaim
    refine ⟨by rw [hstore], fun queued hqueued hfenced => ?_⟩
    obtain ⟨⟨order, save, rfl⟩, pending, hp, hmethod, hstate, hnamed, hturn, hslot⟩ :=
      hwork queued hqueued
    have hmem := ((lookup_eq_some hinv.store.pendingKeys).mp hp).1
    exact hholds rfl f hfence pending hmem ⟨hmethod, hstate, hnamed, hslot⟩ (hturn.trans hfenced)
  · intro params payloadHash running attempt later f event accepted hopen hfence hholds hwait hclaim
    have hparked := interrupt_parks hinv hopen rfl hfence
    have hstep := (@step_advances w cfg hinv
      (.interrupt params payloadHash running attempt)).inv
    exact claim_while_parked (run_worldInv later hstep)
      (run_parked later hstep hparked (hholds.unreleased hstep hwait)) hclaim

/-- Queued input, a start that is claimed, and a steer. -/
def heldAtStop : List Event :=
  [.accept
      { method := .queue
        params := { clientMutationID := "m1", input := [{ type := "text", text := "later" }] }
        payloadHash := "h1" } {},
    .accept
      { method := .start
        params := { clientMutationID := "m2", input := [{ type := "text", text := "hi" }] }
        payloadHash := "h2" } {},
    .claimStart ["m2"] true .saved,
    .accept
      { method := .steer
        params := { clientMutationID := "m3", input := [{ type := "text", text := "stop" }] }
        payloadHash := "h3" } {}]

def stopOfHeld : Event := .interrupt { clientMutationID := "m4" } "h4" true {}

def recoveredStop : Event :=
  .recoverInterrupt
    { recorded := fun _ => none, claimedRecorded := fun _ => false, order := ["m2", "m3"] } .saved

def heldFence : InterruptFence := { clientMutationID := "m4", expectedTurnID := "turn_m1" }

/-- The recovery applies nothing. -/
theorem recoveredStop_unapplied :
    let cfg : Config := { threadID := "t", maxTurns := 0 }
    Unapplied cfg (step cfg (run cfg {} heldAtStop) stopOfHeld).1 [recoveredStop] := by
  intro cfg
  refine ⟨?_, trivial⟩
  rintro ⟨id, r, hwaits, hr, happlied, _⟩
  have hsettled : ∀ r ∈ (step cfg (step cfg (run cfg {} heldAtStop) stopOfHeld).1
      recoveredStop).1.store.journal, r.operationState = .applied →
        ∃ r₀ ∈ (step cfg (run cfg {} heldAtStop) stopOfHeld).1.store.record? r.clientMutationID,
          r₀.operationState ≠ .inFlight := by
    decide +kernel
  obtain ⟨r₀, hr₀, hstate⟩ := hsettled r (mem_of_lookup hr) happlied
  rw [Snapshot.key_of_record? _ hr] at hr₀
  exact hwaits ⟨r₀, hr₀, hstate⟩

/-- The Stop of a running start: the claim of starts finds the fence; the recovered finalization
    retires the start; past it the queue and the steer are held. -/
theorem stop_holds_of_start :
    let cfg : Config := { threadID := "t", maxTurns := 0 }
    let held := run cfg {} heldAtStop
    let stopped := (step cfg held stopOfHeld).1
    Finalized heldFence (step cfg stopped recoveredStop).1.store ∧
      ClaimFenced cfg heldFence stopped (.claimStart ["m2", "m3"] true .saved) ∧
      ClaimParked cfg held.store.steeringOrder (run cfg stopped [recoveredStop])
        (.popQueueHead true .saved) ∧
      ClaimParked cfg held.store.steeringOrder (run cfg stopped [recoveredStop])
        (.claimCarrier [] true .saved) := by
  intro cfg held stopped
  have hheld : run cfg {} heldAtStop = held := rfl
  have hstopped : (step cfg held stopOfHeld).1 = stopped := rfl
  have hrun : run cfg {} (heldAtStop ++ [stopOfHeld]) = stopped := List.foldl_concat _ _ _ _
  have hopen : held.store.interruptFence = none := by decide +kernel
  have hfence : stopped.store.interruptFence = some heldFence := by decide +kernel
  have hdown : (step cfg stopped recoveredStop).1.store.interruptFence ≠ some heldFence := by
    decide +kernel
  have hnone : ∀ pending ∈ stopped.store.pendingExecutions, pending.method ≠ .queue := by
    decide +kernel
  have hvisits : ∀ pending ∈ stopped.store.pendingExecutions,
      pending.clientMutationID ∈ recoveredStop.visited := by
    decide +kernel
  have hunapplied : Unapplied cfg stopped [recoveredStop] := recoveredStop_unapplied
  clear_value stopped held
  obtain ⟨hends, hclaims, _⟩ := stop_holds cfg (heldAtStop ++ [stopOfHeld])
  obtain ⟨_, _, hparked⟩ := stop_holds cfg heldAtStop
  rw [hrun] at hends hclaims
  rw [hheld] at hparked
  have hwaits (event : Event) := hparked { clientMutationID := "m4" } "h4" true {} [recoveredStop]
    heldFence event hopen (hstopped ▸ hfence) ⟨trivial, trivial⟩ (hstopped ▸ hunapplied)
  rw [show (step cfg held (.interrupt { clientMutationID := "m4" } "h4" true {})).1 = stopped
    from hstopped] at hwaits
  refine ⟨((hends heldFence recoveredStop hfence).resolve_left hdown).2 hvisits, ?_,
    hwaits _ rfl, hwaits _ rfl⟩
  exact hclaims heldFence (.claimStart ["m2", "m3"] true .saved) hfence rfl
    fun _ _ _ pending hmem hslot => absurd hslot.1 (hnone pending hmem)

/-- Queued input is claimed, recorded and incorporated, and then stopped. -/
def queuedTurnThenStop : List Event :=
  [.accept
      { method := .queue
        params := { clientMutationID := "m1", input := [{ type := "text", text := "hi" }] }
        payloadHash := "h1" } {},
    .popQueueHead true .saved,
    .record "m1",
    .markIncorporated "m1" .saved,
    .interrupt { clientMutationID := "m2" } "h2" true {}]

/-- The queue branches of the claim of starts are not fenced: the incorporated turn the fence names
    is handed out again. -/
theorem fenced_turn_handed_out :
    let w := run { threadID := "t", maxTurns := 0 } {} queuedTurnThenStop
    w.store.interruptFence = some { clientMutationID := "m2", expectedTurnID := "turn_m1" } ∧
      (claimedBy w (.claimStart ["m1"] true .saved)).map QueuedInput.stableTurnID =
        some "turn_m1" := by
  decide

end Evener.ClientMutation
