/-
  The claims and the returns keep every input in its one place.

  Each transition of the lifecycle is one of the moves: what it commits, when it commits
  anything, is `Kept`.
-/
import Evener.ClientMutation.Moves

namespace Evener.ClientMutation

open Evener.Lib List Option

variable {accepted : String → Option Input} {s s' : Snapshot} {id : String} {r : Record}
  {p : PendingMutation} {queued : Option QueuedInput}

/-! ## Changes that hold no input -/

/-- The journal, the places and the fence are left alone, and the slot names no waiting turn. -/
theorem Inv.frame (h : Inv accepted s) (hjournal : s'.journal = s.journal)
    (hpending : s'.pendingExecutions = s.pendingExecutions) (hqueue : s'.inputQueue = s.inputQueue)
    (horder : s'.steeringOrder = s.steeringOrder) (hfence : s'.interruptFence = s.interruptFence)
    (hturns : s.nextTurnSequence ≤ s'.nextTurnSequence)
    (hentries : s'.nextQueueEntrySequence = s.nextQueueEntrySequence)
    (hslot : ∀ {id r}, s.entriesOf id ≠ [] → s.record? id = some r → r.stableTurnID ≠ "" →
      s'.activeTurnID ≠ r.stableTurnID) : Inv accepted s' where
  journalKeys := hjournal ▸ h.journalKeys
  pendingKeys := hpending ▸ h.pendingKeys
  held id := by
    rw [Snapshot.Held, Snapshot.record?, Snapshot.pending?, Snapshot.entriesOf, hjournal, hpending,
      hqueue, horder]
    exact h.held id
  turns := hjournal ▸ h.turns.mono hturns
  entries := hjournal ▸ hentries ▸ h.entries
  stable hr := h.stable (by rwa [Snapshot.record?, hjournal] at hr)
  unnamed hr := h.unnamed (by rwa [Snapshot.record?, hjournal] at hr)
  fence hf := by
    rw [Snapshot.record?, hjournal]
    exact h.fence (hfence ▸ hf)
  slot hq hr := by
    rw [Snapshot.entriesOf, hqueue] at hq
    rw [Snapshot.record?, hjournal] at hr
    exact hslot hq hr

theorem Inv.slot_free (h : Inv accepted s) : Inv accepted { s with activeTurnID := "" } :=
  h.frame rfl rfl rfl rfl rfl (Nat.le_refl _) rfl fun _ _ hne => hne.symm

theorem Inv.raiseTurnSequence (h : Inv accepted s) (floor : Nat) :
    Inv accepted (raiseTurnSequence floor s) :=
  h.frame rfl rfl rfl rfl rfl (Nat.le_max_left _ _) rfl h.slot

theorem Inv.forgetRunningTurnNoOneOwns (h : Inv accepted s) :
    Inv accepted (forgetRunningTurnNoOneOwns s) := by
  unfold ClientMutation.forgetRunningTurnNoOneOwns
  split
  · exact h
  · split
    · exact h
    · exact h.slot_free

theorem mintRunningTurnID_kept (h : Inv accepted s) : Kept accepted s (mintRunningTurnID s).1 := by
  unfold mintRunningTurnID
  split
  · exact .refl h
  · refine ⟨?_, .of_journal rfl, rfl, rfl, fun _ hid => hid, Or.inl⟩
    refine h.frame rfl rfl rfl rfl rfl (Nat.le_succ _) rfl ?_
    intro id r hq hr hne hclash
    -- the minted name is above every reserved one
    obtain ⟨entry, hentry⟩ := exists_mem_of_ne_nil _ hq
    obtain ⟨_, _, _, _, rq, hrq, _, hqueued, _⟩ := (h.held id).of_entry hentry
    rw [hr] at hrq
    obtain rfl := some.inj hrq
    obtain ⟨k, hk, hname⟩ :=
      h.turns.issued hr (Record.ownTurn_eq_some.mpr ⟨by simp [hqueued], hne, rfl⟩)
    have : s.nextTurnSequence + 1 = k := clientMutationTurnID_inj (hclash.trans hname)
    omega

theorem releaseRunningTurnID_kept (h : Inv accepted s) (turnID : String) :
    Kept accepted s (releaseRunningTurnID turnID s) := by
  unfold releaseRunningTurnID
  split
  · exact .refl h
  · exact ⟨h.slot_free, .of_journal rfl, rfl, rfl, fun _ hid => hid, Or.inl⟩

theorem acceptedTurns_kept (h : Inv accepted s) (n : Nat) :
    Kept accepted s { s with acceptedTurns := n } :=
  ⟨h.frame rfl rfl rfl rfl rfl (Nat.le_refl _) rfl h.slot, .of_journal rfl, rfl, rfl,
    fun _ hid => hid, Or.inl⟩

theorem queueRevision_kept (h : Inv accepted s) (n : Nat) :
    Kept accepted s { s with queueRevision := n } :=
  ⟨h.frame rfl rfl rfl rfl rfl (Nat.le_refl _) rfl h.slot, .of_journal rfl, rfl, rfl,
    fun _ hid => hid, Or.inl⟩

theorem claimDirectClientMutationTurn_kept {cfg : Config} {floor : Nat} (h : Inv accepted s)
    (hclaim : claimDirectClientMutationTurn cfg floor s = some s') : Kept accepted s s' := by
  unfold claimDirectClientMutationTurn at hclaim
  dsimp only at hclaim
  split at hclaim
  · simp at hclaim
  · obtain rfl := some.inj hclaim
    exact acceptedTurns_kept h _

/-! ## Claims -/

theorem popQueueHead_kept {healthy : Bool} (h : Inv accepted s)
    (hpop : popQueueHead healthy s = some (s', queued)) : Kept accepted s s' := by
  unfold popQueueHead at hpop
  split at hpop
  · simp only [Option.some.injEq, Prod.mk.injEq] at hpop
    exact hpop.1 ▸ .refl h
  · split at hpop
    · simp at hpop
    · split at hpop
      · simp only [Option.some.injEq, Prod.mk.injEq] at hpop
        exact hpop.1 ▸ .refl h
      · next entry rest hhead =>
        obtain ⟨record, hrecord, hpop⟩ := bind_eq_some_iff.mp hpop
        simp only [Option.pure_def, Option.some.injEq, Prod.mk.injEq] at hpop
        obtain rfl := hpop.1
        by_cases hunnamed : record.stableTurnID = ""
        · rw [if_pos hunnamed]
          exact h.claimEntry hhead hrecord ⟨rfl, rfl, rfl, rfl⟩ (Or.inr ⟨hunnamed, rfl, rfl⟩) rfl
            rfl rfl rfl (Or.inr rfl)
        · rw [if_neg hunnamed]
          exact h.claimEntry hhead hrecord ⟨rfl, rfl, rfl, rfl⟩ (Or.inl ⟨rfl, rfl⟩) rfl rfl rfl rfl
            (Or.inr rfl)

theorem claimStart_kept (h : Inv accepted s) (hr : s.record? id = some r)
    (hp : s.pending? id = some p) (hmethod : p.method = .start) :
    Kept accepted s (claimStart s r p).1 := by
  have huser : isUserTurn p.method = true := by simp [hmethod, isUserTurn]
  unfold claimStart
  dsimp only
  by_cases hstate : p.executionState = .accepted
  · rw [if_pos hstate]
    exact h.rewrite ⟨rfl, rfl, rfl, rfl, rfl⟩ hr hp rfl rfl rfl rfl (Or.inl huser)
      (Or.inr (Or.inr rfl))
  · rw [if_neg hstate]
    exact h.rewrite ⟨rfl, rfl, rfl, rfl, rfl⟩ hr hp rfl rfl rfl rfl (Or.inl huser)
      (Or.inr (Or.inr rfl))

/-- Every claimable id has a pending start. -/
theorem pending_of_claimable {recoveredTurnID : String} (h : Inv accepted s)
    (hid : id ∈ claimableClientMutationStartIDs recoveredTurnID s) :
    ∃ p, s.pending? id = some p ∧ p.method = .start ∧
      (p.executionState = .accepted ∨ p.executionState = .incorporated) := by
  obtain ⟨p, hp, rfl⟩ := mem_map.mp (mem_sortBy.mp hid)
  rw [mem_filter, Bool.and_eq_true, Bool.or_eq_true] at hp
  exact ⟨p, (lookup_eq_some h.pendingKeys).mpr ⟨hp.1, rfl⟩, by simpa using hp.2.1,
    by simpa using hp.2.2⟩

theorem claimClientMutationStart_kept {recoveredTurnID : String} {order : List String}
    {healthy : Bool} (h : Inv accepted s)
    (hclaim : claimClientMutationStart recoveredTurnID order healthy s = some (s', queued)) :
    Kept accepted s s' := by
  unfold claimClientMutationStart at hclaim
  dsimp only at hclaim
  split at hclaim
  · next id ids hids =>
    have hid : id ∈ claimableClientMutationStartIDs recoveredTurnID s := by
      split at hids
      · rw [hids]
        exact mem_cons_self
      · simp at hids
    obtain ⟨p, hp, hclaim⟩ := bind_eq_some_iff.mp hclaim
    obtain ⟨p', hp', hmethod, _⟩ := pending_of_claimable h hid
    obtain rfl : p = p' := some.inj (hp.symm.trans hp')
    obtain ⟨record, hrecord, hclaim⟩ := bind_eq_some_iff.mp hclaim
    split at hclaim
    · simp at hclaim
    · simp only [Option.pure_def, Option.some.injEq, Prod.mk.injEq] at hclaim
      exact hclaim.1 ▸ claimStart_kept h hrecord hp hmethod
  · split at hclaim
    · split at hclaim
      · simp at hclaim
      · simp only [Option.some.injEq, Prod.mk.injEq] at hclaim
        exact hclaim.1 ▸ .refl h
    · split at hclaim
      · simp only [Option.some.injEq, Prod.mk.injEq] at hclaim
        exact hclaim.1 ▸ .refl h
      · next entry rest hhead =>
        split at hclaim
        · simp only [Option.some.injEq, Prod.mk.injEq] at hclaim
          exact hclaim.1 ▸ .refl h
        · next record hrecord =>
          split at hclaim
          · simp only [Option.some.injEq, Prod.mk.injEq] at hclaim
            exact hclaim.1 ▸ .refl h
          · split at hclaim
            · simp at hclaim
            · simp only [Option.some.injEq, Prod.mk.injEq] at hclaim
              obtain rfl := hclaim.1
              exact h.claimEntry hhead hrecord ⟨rfl, rfl, rfl, rfl⟩ (Or.inl ⟨rfl, rfl⟩) rfl rfl rfl
                rfl (Or.inl rfl)

/-- A claimable carrier is pending steering. -/
theorem pending_of_carrier {inFlight : List String}
    (hcarrier : claimableSteeringCarrier s inFlight = some p) :
    p.clientMutationID ∈ s.steeringOrder ∧ s.pending? p.clientMutationID = some p := by
  obtain ⟨id, hid, hp⟩ := exists_of_findSome?_eq_some hcarrier
  obtain ⟨hp, _⟩ := filter_eq_some_iff.mp hp
  have hkey := s.key_of_pending? hp
  exact ⟨hkey ▸ hid, hkey ▸ hp⟩

theorem claimSteeringCarrierInput_kept {inFlight : List String} {healthy : Bool}
    (h : Inv accepted s) (hclaim : claimSteeringCarrierInput inFlight healthy s = some (s', queued)) :
    Kept accepted s s' := by
  unfold claimSteeringCarrierInput at hclaim
  split at hclaim
  · simp only [Option.some.injEq, Prod.mk.injEq] at hclaim
    exact hclaim.1 ▸ .refl h
  · split at hclaim
    · simp only [Option.some.injEq, Prod.mk.injEq] at hclaim
      exact hclaim.1 ▸ .refl h
    · next p hcarrier =>
      split at hclaim
      · simp at hclaim
      · simp only [Option.some.injEq, Prod.mk.injEq] at hclaim
        obtain rfl := hclaim.1
        obtain ⟨_, hp⟩ := pending_of_carrier hcarrier
        obtain ⟨hempty, r, hr, happlied, _, hturn⟩ := (h.held_pending hp).of_pending
        have hinterrupt := (h.held_record hr).ne_interrupt happlied
        refine ⟨?_, .of_journal rfl, rfl, rfl, fun _ hid => hid, Or.inl⟩
        refine h.frame rfl rfl rfl rfl rfl (Nat.le_refl _) rfl fun hq hr' hne => ?_
        show p.turnID ≠ _
        rw [hturn]
        exact h.turn_ne_waiting hr hinterrupt hempty hq hr' hne

end Evener.ClientMutation
