/-
  Returns, completions, the end of a Stop and the restore of a restart keep every input in its one
  place, since each visit of their loops does.
-/
import Evener.ClientMutation.Claims

namespace Evener.ClientMutation

open Evener.Lib List

variable {accepted : String → Option Input} {s s' : Snapshot} {id : String} {r : Record}
  {p : PendingMutation} {visited : List String}

/-! ## Incorporation and returns -/

theorem markClaimedUserTranscriptIncorporated_kept (h : Inv accepted s)
    (hmark : markClaimedUserTranscriptIncorporated id s = some s') : Kept accepted s s' := by
  unfold markClaimedUserTranscriptIncorporated at hmark
  split at hmark
  · obtain rfl := Option.some.inj hmark
    exact .refl h
  · next p hp =>
    split at hmark
    · simp at hmark
    · next huser =>
      obtain ⟨r, hr, hmark⟩ := Option.bind_eq_some_iff.mp hmark
      obtain rfl := Option.some.inj hmark
      exact h.rewrite ⟨rfl, rfl, rfl, rfl, rfl⟩ hr hp rfl rfl rfl rfl (Or.inl (by simpa using huser))
        (Or.inl rfl)

theorem returnClaimedClientMutationStart_kept (h : Inv accepted s)
    (hreturn : returnClaimedClientMutationStart id s = some s') : Kept accepted s s' := by
  unfold returnClaimedClientMutationStart at hreturn
  split at hreturn
  · obtain rfl := Option.some.inj hreturn
    exact .refl h
  · next p hp =>
    split at hreturn
    · obtain rfl := Option.some.inj hreturn
      exact .refl h
    · next hstart =>
      obtain ⟨r, hr, hreturn⟩ := Option.bind_eq_some_iff.mp hreturn
      obtain rfl := Option.some.inj hreturn
      simp only [not_or, not_not] at hstart
      exact h.rewrite ⟨rfl, rfl, rfl, rfl, rfl⟩ hr hp rfl rfl rfl rfl
        (Or.inl (by simp [hstart.1, isUserTurn])) (Or.inl rfl)

/-- What a returned claim and its stored record come to. -/
theorem returnClaimedQueuedMutation_kept {returned : Snapshot × Record} (h : Inv accepted s)
    (hr : s.record? id = some r) (hp : s.pending? id = some p) (hmethod : p.method = .queue)
    (hreturn : returnClaimedQueuedMutation s id p r = some returned) :
    Kept accepted s (returned.1.putRecord { returned.2 with executionState := .accepted }) := by
  unfold returnClaimedQueuedMutation at hreturn
  split at hreturn
  · next entryID hentry =>
    obtain rfl := Option.some.inj hreturn
    exact h.unclaim ⟨rfl, rfl, rfl, rfl, rfl⟩ hr hp hmethod hentry rfl rfl rfl rfl rfl
  · simp at hreturn

theorem returnQueuedClaim_kept (h : Inv accepted s) (hr : s.record? id = some r)
    (hp : s.pending? id = some p) (hmethod : p.method = .queue)
    (hreturn : returnQueuedClaim s id p r = some s') : Kept accepted s s' := by
  obtain ⟨returned, hreturned, hs'⟩ := Option.bind_eq_some_iff.mp hreturn
  obtain rfl := Option.some.inj hs'
  have hkept := returnClaimedQueuedMutation_kept h hr hp hmethod hreturned
  exact hkept.trans (queueRevision_kept hkept.inv _)

/-! ## Steering -/

variable {x : ExecutionState} {recorded : String → Option ExecutionState} {fence : InterruptFence}
  {sample : StopSample} {cfg : Config}

theorem finalizeSteeringInSnapshot_kept (h : Inv accepted s) (hp : s.pending? id = some p)
    (hfinal : finalizeSteeringInSnapshot s id x = some s') : Kept accepted s s' := by
  obtain ⟨r, hr, hfinal⟩ := Option.bind_eq_some_iff.mp hfinal
  obtain rfl := Option.some.inj hfinal
  exact h.retire ⟨rfl, rfl, rfl, rfl, rfl⟩ hr hp rfl rfl rfl (Or.inr rfl) (Or.inl rfl)

theorem finalizeIncorporatedSteering_kept (h : Inv accepted s)
    (hfinal : finalizeIncorporatedSteering id s = some s') : Kept accepted s s' := by
  unfold finalizeIncorporatedSteering at hfinal
  split at hfinal
  · obtain rfl := Option.some.inj hfinal
    exact .refl h
  · next p hp =>
    split at hfinal
    · simp at hfinal
    · exact finalizeSteeringInSnapshot_kept h hp hfinal

theorem reconcileSteer_kept (h : Inv accepted s) (hstep : reconcileSteer recorded s id = some s') :
    Kept accepted s s' := by
  unfold reconcileSteer at hstep
  split at hstep
  · next hnone =>
    -- an order entry always has its pending execution
    have hnot : id ∉ s.steeringOrder := by
      intro hmem
      have hheld := h.held id
      rw [Snapshot.Held, hnone] at hheld
      have hcount : 0 < s.steeringOrder.count id := count_pos_iff.mpr hmem
      generalize s.record? id = r, s.entriesOf id = entries, s.steeringOrder.count id = n
        at hheld hcount
      cases hheld <;> simp at hcount
    rw [erase_of_not_mem hnot] at hstep
    obtain rfl := Option.some.inj hstep
    exact .refl h
  · next p hp =>
    split at hstep
    · exact finalizeSteeringInSnapshot_kept h hp hstep
    · obtain rfl := Option.some.inj hstep
      exact .refl h

/-- Every place of the steering order is a steer that can still be delivered. -/
theorem hasPendingUserSteering_iff (h : Inv accepted s) :
    snapshotHasPendingUserSteering s = true ↔ s.steeringOrder ≠ [] := by
  unfold snapshotHasPendingUserSteering
  rw [any_eq_true]
  constructor
  · rintro ⟨id, hid, _⟩
    exact ne_nil_of_mem hid
  · intro hne
    obtain ⟨id, hid⟩ := exists_mem_of_ne_nil _ hne
    refine ⟨id, hid, ?_⟩
    have hheld := h.held id
    have hcount : 0 < s.steeringOrder.count id := count_pos_iff.mpr hid
    rw [Snapshot.Held] at hheld
    generalize s.record? id = r, s.pending? id = p, s.entriesOf id = entries,
      s.steeringOrder.count id = n at hheld hcount ⊢
    cases hheld with
    | steering _ _ _ _ haccepted => simp [haccepted]
    | _ => simp at hcount

theorem reconcileClientSteering_kept {stopping : Bool} (h : Inv accepted s)
    (hrun : reconcileClientSteering recorded stopping s = some s') : Kept accepted s s' := by
  obtain ⟨s₁, hloop, hs'⟩ := Option.bind_eq_some_iff.mp hrun
  obtain rfl := Option.some.inj hs'
  have hkept := Kept.foldlM (fun h' hstep => reconcileSteer_kept h' hstep) h hloop
  refine hkept.trans ⟨?_, .of_journal rfl, rfl, rfl, fun _ hid => hid, ?_⟩
  · exact hkept.inv.frame rfl rfl rfl rfl rfl (Nat.le_refl _) rfl hkept.inv.slot
  · intro hheld
    by_cases hempty : s₁.steeringOrder = []
    · exact Or.inr hempty
    · refine Or.inl ?_
      show (_ && (_ || _)) = true
      rw [(hasPendingUserSteering_iff hkept.inv).mpr hempty, hheld]
      simp

/-! ## The end of a Stop -/

theorem interruptExecution_kept (h : Inv accepted s)
    (hstep : interruptExecution fence sample s id = some s') : Kept accepted s s' := by
  unfold interruptExecution at hstep
  split at hstep
  · obtain rfl := Option.some.inj hstep
    exact .refl h
  · next p hp =>
    split at hstep
    · obtain rfl := Option.some.inj hstep
      exact .refl h
    · next htarget =>
      obtain ⟨r, hr, hstep⟩ := Option.bind_eq_some_iff.mp hstep
      simp only [not_or] at htarget
      split at hstep
      · next hclaimed => exact returnQueuedClaim_kept h hr hp hclaimed.1 hstep
      · obtain rfl := Option.some.inj hstep
        exact h.retire ⟨rfl, rfl, rfl, rfl, rfl⟩ hr hp rfl rfl rfl
          (Or.inl ⟨rfl, count_eq_zero_of_not_mem htarget.2⟩) (Or.inl rfl)

/-- An execution a visit leaves is one it found; the visited one is of another turn or waits in the
    steering order, which stays. -/
theorem interruptExecution_leaves (hstep : interruptExecution fence sample s id = some s') :
    s'.steeringOrder = s.steeringOrder ∧ (∀ {j p}, s'.pending? j = some p → s.pending? j = some p) ∧
      ∀ {p}, s'.pending? id = some p → id ∉ s.steeringOrder → p.turnID ≠ fence.expectedTurnID := by
  unfold interruptExecution at hstep
  split at hstep
  · next hnone =>
    obtain rfl := Option.some.inj hstep
    exact ⟨rfl, fun hp => hp, fun hp => by simp [hnone] at hp⟩
  · next p hp =>
    split at hstep
    · next hother =>
      obtain rfl := Option.some.inj hstep
      refine ⟨rfl, fun hp => hp, fun hp' hout => ?_⟩
      obtain rfl : p = _ := Option.some.inj (hp.symm.trans hp')
      exact hother.resolve_right hout
    · obtain ⟨r, hr, hstep⟩ := Option.bind_eq_some_iff.mp hstep
      -- both ends of the visit delete the execution and keep the order
      have hgone : s'.steeringOrder = s.steeringOrder ∧
          ∀ j, s'.pending? j = if j = id then none else s.pending? j := by
        split at hstep
        · obtain ⟨returned, hreturned, hs'⟩ := Option.bind_eq_some_iff.mp hstep
          obtain rfl := Option.some.inj hs'
          unfold returnClaimedQueuedMutation at hreturned
          split at hreturned
          · obtain rfl := Option.some.inj hreturned
            exact ⟨rfl, fun j => s.pending?_deletePending id j⟩
          · simp at hreturned
        · obtain rfl := Option.some.inj hstep
          exact ⟨rfl, fun j => s.pending?_deletePending id j⟩
      refine ⟨hgone.1, ?_, ?_⟩
      · intro j p' hp'
        rw [hgone.2] at hp'
        split at hp'
        · simp at hp'
        · exact hp'
      · intro p' hp'
        simp [hgone.2] at hp'

theorem interruptExecutions_leave {ids : List String}
    (hloop : ids.foldlM (interruptExecution fence sample) s = some s') :
    s'.steeringOrder = s.steeringOrder ∧ ∀ {j p}, s'.pending? j = some p →
      s.pending? j = some p ∧
        (j ∉ s.steeringOrder → p.turnID = fence.expectedTurnID → j ∉ ids) := by
  induction ids generalizing s with
  | nil =>
    obtain rfl := Option.some.inj hloop
    exact ⟨rfl, fun hp => ⟨hp, by simp⟩⟩
  | cons id ids ih =>
    rw [foldlM_cons] at hloop
    obtain ⟨s₁, hs₁, hrest⟩ := Option.bind_eq_some_iff.mp hloop
    obtain ⟨horder, hfound, hvisited⟩ := interruptExecution_leaves hs₁
    obtain ⟨horder', hrest⟩ := ih hrest
    refine ⟨horder'.trans horder, fun {j p} hp => ⟨hfound (hrest hp).1, fun hout hturn hmem => ?_⟩⟩
    rcases mem_cons.mp hmem with rfl | hmem
    · exact hvisited (hrest hp).1 hout hturn
    · exact (hrest hp).2 (horder ▸ hout) hturn hmem

theorem reconcileSteer_leaves (hstep : reconcileSteer recorded s id = some s') {j : String}
    (hp : s'.pending? j = some p) : s.pending? j = some p := by
  unfold reconcileSteer at hstep
  split at hstep
  · obtain rfl := Option.some.inj hstep
    exact hp
  · split at hstep
    · obtain ⟨r, _, hstep⟩ := Option.bind_eq_some_iff.mp hstep
      obtain rfl := Option.some.inj hstep
      replace hp : (s.deletePending id).pending? j = some p := hp
      rw [s.pending?_deletePending] at hp
      split at hp
      · simp at hp
      · exact hp
    · obtain rfl := Option.some.inj hstep
      exact hp

theorem reconcileClientSteering_leaves {stopping : Bool}
    (hrun : reconcileClientSteering recorded stopping s = some s') {j : String}
    (hp : s'.pending? j = some p) : s.pending? j = some p := by
  obtain ⟨s₁, hloop, hs'⟩ := Option.bind_eq_some_iff.mp hrun
  obtain rfl := Option.some.inj hs'
  refine (foldlM_run (P := fun _ => True)
    (R := fun s t => t.pending? j = some p → s.pending? j = some p) ?_ ?_ ?_ trivial hloop).2 hp
  · exact fun _ h => h
  · intro _ _ _ h h' hp
    exact h (h' hp)
  · intro _ _ _ _ hstep
    exact ⟨trivial, reconcileSteer_leaves hstep⟩

/-- Of the executions outside the steering order, only one that was there and was not visited
    still names the fenced turn. -/
def Cleared (visited : List String) (f : InterruptFence) (s s' : Snapshot) : Prop :=
  ∀ {id p}, s'.pending? id = some p → id ∉ s'.steeringOrder → p.turnID = f.expectedTurnID →
    s.pending? id ≠ none ∧ id ∉ visited

/-- What the finalization of a Stop leaves: as `Kept`, with the interrupt over, no fence, an empty
    slot, and nothing of the fenced turn among the executions it visited. -/
structure Ended (accepted : String → Option Input) (visited : List String) (s s' : Snapshot) :
    Prop where
  inv : Inv accepted s'
  evolves : s.Evolves s'
  stopped : ∀ {f}, s.interruptFence = some f →
    ∃ r, s'.record? f.clientMutationID = some r ∧ r.operationState = .terminal
  fence : s'.interruptFence = none
  slot : s'.activeTurnID = ""
  cleared : ∀ {f}, s.interruptFence = some f → Cleared visited f s s'
  queueHeld : s'.queueHeld = s.queueHeld
  order : s'.steeringOrder ⊆ s.steeringOrder
  parked : s.steeringHeld = true → s'.steeringHeld = true ∨ s'.steeringOrder = []

theorem Kept.ended {s₁ s₂ s₃ : Snapshot} (h : Kept accepted s₁ s₂)
    (hpending : ∀ {id}, s₂.pending? id ≠ none → s₁.pending? id ≠ none)
    (h' : Ended accepted visited s₂ s₃) : Ended accepted visited s₁ s₃ where
  inv := h'.inv
  evolves := h.evolves.trans h'.evolves
  stopped hf := h'.stopped (h.fence.trans hf)
  fence := h'.fence
  slot := h'.slot
  cleared hf := fun hp hout hturn =>
    (h'.cleared (h.fence.trans hf) hp hout hturn).imp_left hpending
  queueHeld := h'.queueHeld.trans h.queueHeld
  order := fun _ hid => h.order (h'.order hid)
  parked hheld := by
    rcases h.parked hheld with hs | hs
    · exact h'.parked hs
    · exact Or.inr (subset_nil.mp (hs ▸ h'.order))

theorem Ended.visit (h : Ended accepted [] s s')
    (hcleared : ∀ {f}, s.interruptFence = some f → Cleared visited f s s') :
    Ended accepted visited s s' := { h with cleared := hcleared }

/-- The interrupt of the open fence ends. -/
theorem Inv.endFence {fence : InterruptFence} {r' : Record} (h : Inv accepted s)
    (hfence : s.interruptFence = some fence) (hkey : r'.clientMutationID = fence.clientMutationID)
    (hmethod : r'.method = .interrupt) (hturn : r'.stableTurnID = fence.expectedTurnID)
    (hentries : r'.stableQueueEntryIDs = []) (hstate : r'.operationState = .terminal)
    (hhash : ∀ {r}, s.record? fence.clientMutationID = some r → r'.payloadHash = r.payloadHash) :
    Ended accepted [] s { s.putRecord r' with activeTurnID := "", interruptFence := none } := by
  obtain ⟨rf, hrf, hflight, hrm, hrt, hre⟩ := h.fence hfence
  have hunplaced := (h.held_record hrf).of_not_applied (by simp [hflight])
  refine ⟨⟨keysNodup_put h.journalKeys _, h.pendingKeys, ?_, ?_, ?_, ?_, ?_, ?_, ?_⟩, ?_, ?_, rfl, rfl,
    ?_, rfl, fun _ hid => hid, Or.inl⟩
  · intro id
    show Custody _ ((s.putRecord r').record? id) (s.pending? id) (s.entriesOf id)
      (s.steeringOrder.count id)
    rw [s.record?_putRecord]
    split
    · next hid =>
      rw [← hid, hkey, hunplaced.1, hunplaced.2.1, hunplaced.2.2]
      exact .unplaced (by simp [hstate])
    · exact h.held id
  · refine h.turns.put clientMutationTurnID_inj (Nat.le_refl _) fun turnID hname => ?_
    exact absurd hmethod (Record.ownTurn_eq_some.mp hname).1
  · refine h.entries.put (fun he => queueEntryID_inj (singleton_inj.mp he)) (Nat.le_refl _)
      fun ids hname => ?_
    simp [Record.ownEntries, hmethod] at hname
  · intro id r hr
    replace hr : (s.putRecord r').record? id = some r := hr
    rw [s.record?_putRecord] at hr
    split at hr
    · obtain rfl := Option.some.inj hr
      simp [hentries]
    · exact h.stable hr
  · intro id r hr hqueued hs
    replace hr : (s.putRecord r').record? id = some r := hr
    rw [s.record?_putRecord] at hr
    split at hr
    · obtain rfl := Option.some.inj hr
      simp [hmethod] at hqueued
    · exact h.unnamed hr hqueued hs
  · intro f hf
    simp at hf
  · intro id r _ _ hne
    exact hne.symm
  · refine @Snapshot.Evolves.of_put s _ r' rfl fun r₀ hr₀ => ?_
    rw [hkey] at hr₀
    obtain rfl : rf = r₀ := Option.some.inj (hrf.symm.trans hr₀)
    exact ⟨hmethod.trans hrm.symm, hhash hr₀, fun _ => hturn.trans hrt.symm,
      fun hne => absurd hre hne, fun hs => absurd hflight hs, fun hs => by simp [hflight] at hs⟩
  · intro f hf
    obtain rfl : fence = f := Option.some.inj (hfence.symm.trans hf)
    refine ⟨r', ?_, hstate⟩
    show (s.putRecord r').record? _ = _
    rw [s.record?_putRecord, if_pos hkey]
  · intro f _ id p hp _ _
    replace hp : s.pending? id = some p := hp
    simp [hp]

theorem finalizeClientMutationInterrupt_ended (h : Inv accepted s)
    (hfence : s.interruptFence = some fence)
    (hfinal : finalizeClientMutationInterrupt cfg sample s = some s') :
    Ended accepted sample.order s s' := by
  unfold finalizeClientMutationInterrupt at hfinal
  rw [hfence] at hfinal
  obtain ⟨r, hr, hfinal⟩ := Option.bind_eq_some_iff.mp hfinal
  obtain ⟨s₁, hs₁, hfinal⟩ := Option.bind_eq_some_iff.mp hfinal
  obtain ⟨s₂, hs₂, hfinal⟩ := Option.bind_eq_some_iff.mp hfinal
  obtain rfl := Option.some.inj hfinal
  have hkept₁ := reconcileClientSteering_kept h hs₁
  have hkept := hkept₁.trans
    (Kept.foldlM (fun h' hstep => interruptExecution_kept h' hstep) hkept₁.inv hs₂)
  obtain ⟨rf, hrf, _, hmethod, _, hentries⟩ := h.fence hfence
  obtain rfl : r = rf := Option.some.inj (hr.symm.trans hrf)
  obtain ⟨horder, hleft⟩ := interruptExecutions_leave hs₂
  have hpending : ∀ {j p}, s₂.pending? j = some p → s.pending? j = some p :=
    fun hp => reconcileClientSteering_leaves hs₁ (hleft hp).1
  refine Ended.visit (hkept.ended ?_ (hkept.inv.endFence (hkept.fence.trans hfence)
    (s.key_of_record? hr :) hmethod rfl hentries rfl ?_)) ?_
  · intro j hne
    obtain ⟨p, hp⟩ := Option.ne_none_iff_exists'.mp hne
    simp [hpending hp]
  · intro r₂ hr₂
    obtain ⟨r₃, hr₃, hevolves⟩ := hkept.evolves _ _ hr
    obtain rfl : r₂ = r₃ := Option.some.inj (hr₂.symm.trans hr₃)
    exact hevolves.payloadHash.symm
  · intro f hf id p hp hout hturn
    obtain rfl : fence = f := Option.some.inj (hfence.symm.trans hf)
    replace hp : s₂.pending? id = some p := hp
    replace hout : id ∉ s₂.steeringOrder := hout
    exact ⟨by simp [hpending hp], (hleft hp).2 (horder ▸ hout) hturn⟩

/-! ## Completion -/

theorem settleTurn_kept (h : Inv accepted s) (hr : s.record? id = some r)
    (hp : s.pending? id = some p) (huser : isUserTurn p.method = true)
    (hsettle : settleTurn cfg x sample s p r = some s') :
    Kept accepted s s' ∨ (s.interruptFence.isSome ∧ Ended accepted sample.order s s') := by
  have hkey := s.key_of_pending? hp
  unfold settleTurn at hsettle
  dsimp only at hsettle
  generalize hs₁ : ({ (s.putRecord _).deletePending _ with activeTurnID := _ } : Snapshot) = s₁
    at hsettle
  have hkept : Kept accepted s s₁ := by
    rw [← hs₁]
    refine h.retire ⟨rfl, rfl, rfl, rfl, rfl⟩ hr hp rfl (by rw [← hkey]; rfl) rfl
      (Or.inl ⟨rfl, (h.held_pending hp).places_eq_zero huser⟩) ?_
    by_cases hactive : s.activeTurnID = p.turnID
    · exact Or.inr (if_pos hactive)
    · exact Or.inl (if_neg hactive)
  split at hsettle
  · next hstopped =>
    obtain ⟨fence, hfence, _⟩ := Option.map_eq_some_iff.mp hstopped
    refine Or.inr ⟨by simp [hfence], ?_⟩
    refine hkept.ended ?_ (finalizeClientMutationInterrupt_ended hkept.inv
      (hkept.fence.trans hfence) hsettle)
    intro j hne
    rw [← hs₁] at hne
    replace hne : (s.deletePending p.clientMutationID).pending? j ≠ none := hne
    rw [s.pending?_deletePending] at hne
    split at hne
    · exact absurd rfl hne
    · exact hne
  · obtain rfl := Option.some.inj hsettle
    exact Or.inl hkept

theorem completeClientMutationTurnWithState_kept (h : Inv accepted s)
    (hcomplete : completeClientMutationTurnWithState cfg id x sample s = some s') :
    Kept accepted s s' ∨ (s.interruptFence.isSome ∧ Ended accepted sample.order s s') := by
  unfold completeClientMutationTurnWithState at hcomplete
  split at hcomplete
  · obtain rfl := Option.some.inj hcomplete
    exact Or.inl (.refl h)
  · next p hp =>
    split at hcomplete
    · next hclaimed =>
      obtain ⟨r, hr, hcomplete⟩ := Option.bind_eq_some_iff.mp hcomplete
      split at hcomplete
      · -- the transcript holds the turn: it is incorporated, then settled
        have huser : isUserTurn p.method = true := by simp [hclaimed.2, isUserTurn]
        have hkept : Kept accepted s (s.putPending { p with executionState := .incorporated }) := by
          have hkey := s.key_of_record? hr
          have hjournal : s.journal = put Record.clientMutationID
              { r with executionState := r.executionState, projectionState := r.projectionState }
              s.journal := (put_eq_self (v := r) (hkey ▸ hr)).symm
          exact h.rewrite ⟨rfl, rfl, rfl, rfl, rfl⟩ hr hp hjournal rfl rfl rfl (Or.inl huser)
            (Or.inl rfl)
        have hp' : (s.putPending { p with executionState := .incorporated }).pending? id =
            some { p with executionState := .incorporated } := by
          rw [s.pending?_putPending, if_pos (s.key_of_pending? hp)]
        refine (settleTurn_kept hkept.inv hr hp' huser hcomplete).imp hkept.trans fun hended => ?_
        refine ⟨hended.1, hkept.ended ?_ hended.2⟩
        intro j hne
        rw [s.pending?_putPending] at hne
        split at hne
        · next hj =>
          obtain rfl : id = j := (s.key_of_pending? hp).symm.trans hj
          simp [hp]
        · exact hne
      · exact Or.inl (returnQueuedClaim_kept h hr hp hclaimed.2 hcomplete)
    · split at hcomplete
      · obtain rfl := Option.some.inj hcomplete
        exact Or.inl (.refl h)
      · split at hcomplete
        · simp at hcomplete
        · next huser =>
          obtain ⟨r, hr, hcomplete⟩ := Option.bind_eq_some_iff.mp hcomplete
          exact settleTurn_kept h hr hp (by simpa using huser) hcomplete

/-! ## Restart -/

theorem restoreExecution_kept {incorporated : String → Option String} (h : Inv accepted s)
    (hstep : restoreExecution incorporated s id = some s') : Kept accepted s s' := by
  unfold restoreExecution at hstep
  split at hstep
  · obtain rfl := Option.some.inj hstep
    exact .refl h
  · next p hp =>
    split at hstep
    · obtain rfl := Option.some.inj hstep
      exact .refl h
    · next hskip =>
      have huser : isUserTurn p.method = true := by
        simp only [Bool.or_eq_true, not_or] at hskip
        simpa using hskip.2
      split at hstep
      · obtain ⟨r, hr, hstep⟩ := Option.bind_eq_some_iff.mp hstep
        obtain rfl := Option.some.inj hstep
        exact h.rewrite ⟨rfl, rfl, rfl, rfl, rfl⟩ hr hp rfl rfl rfl rfl (Or.inl huser) (Or.inl rfl)
      · split at hstep
        · obtain rfl := Option.some.inj hstep
          exact .refl h
        · obtain ⟨r, hr, hstep⟩ := Option.bind_eq_some_iff.mp hstep
          split at hstep
          · next hmethod =>
            obtain ⟨returned, hreturned, hstep⟩ := Option.bind_eq_some_iff.mp hstep
            obtain rfl := Option.some.inj hstep
            exact returnClaimedQueuedMutation_kept h hr hp hmethod hreturned
          · obtain rfl := Option.some.inj hstep
            exact h.rewrite ⟨rfl, rfl, rfl, rfl, rfl⟩ hr hp rfl rfl rfl rfl (Or.inl huser)
              (Or.inl rfl)

theorem restoreClaimedSteer_kept (h : Inv accepted s)
    (hstep : restoreClaimedSteer s id = some s') : Kept accepted s s' := by
  unfold restoreClaimedSteer at hstep
  split at hstep
  · obtain rfl := Option.some.inj hstep
    exact .refl h
  · next p hp =>
    split at hstep
    · obtain rfl := Option.some.inj hstep
      exact .refl h
    · obtain ⟨r, hr, hstep⟩ := Option.bind_eq_some_iff.mp hstep
      obtain rfl := Option.some.inj hstep
      exact h.rewrite ⟨rfl, rfl, rfl, rfl, rfl⟩ hr hp rfl rfl rfl rfl (Or.inr rfl) (Or.inl rfl)

theorem restoreDurableClientMutationQueues_kept {sample : RestoreSample} (h : Inv accepted s)
    (hrestore : restoreDurableClientMutationQueues sample s = some s') : Kept accepted s s' := by
  have hkept₀ := acceptedTurns_kept h (max s.acceptedTurns sample.turns)
  obtain ⟨s₁, hs₁, hrestore⟩ := Option.bind_eq_some_iff.mp hrestore
  obtain ⟨s₂, hs₂, hrestore⟩ := Option.bind_eq_some_iff.mp hrestore
  obtain ⟨s₃, hs₃, hrestore⟩ := Option.bind_eq_some_iff.mp hrestore
  obtain rfl := Option.some.inj hrestore
  have hkept₁ := hkept₀.trans
    (Kept.foldlM (fun h' hstep => restoreExecution_kept h' hstep) hkept₀.inv hs₁)
  have hkept₂ := hkept₁.trans
    (Kept.foldlM (fun h' hstep => restoreClaimedSteer_kept h' hstep) hkept₁.inv hs₂)
  have hkept₃ := hkept₂.trans (reconcileClientSteering_kept hkept₂.inv hs₃)
  exact hkept₃.trans (queueRevision_kept hkept₃.inv _)

end Evener.ClientMutation
