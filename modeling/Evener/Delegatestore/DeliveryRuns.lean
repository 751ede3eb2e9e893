/-
  Over a whole accepted journal every delivery is queued once, in order, and none is lost.

  Ids are unique over the run since a generation finishes once and an update's id holds its
  event's sequence number. `Ledger` carries both along the journal.
-/
import Evener.Delegatestore.Deliveries
import Evener.Lib.IssuedNames

namespace Evener.Delegatestore

open Evener.Lib List

/-! ## Delivery ids -/

theorem terminalDeliveryId_inj {id : String} {m n : Nat}
    (h : terminalDeliveryId id m = terminalDeliveryId id n) : m = n := append_toString_inj h

theorem updateDeliveryId_inj {id : String} {m n : Nat}
    (h : updateDeliveryId id m = updateDeliveryId id n) : m = n := append_toString_inj h

/-- The two shapes of id differ right after the delegate's. -/
theorem terminalDeliveryId_ne_update (id : String) (m n : Nat) :
    terminalDeliveryId id m ≠ updateDeliveryId id n := by
  intro h
  have hlist := congrArg String.toList h
  unfold terminalDeliveryId updateDeliveryId at hlist
  simp only [String.toList_append, append_assoc] at hlist
  have htext := congrArg (fun l => l[1]?) (append_cancel_left hlist)
  have hterminal : ("/delivery/".toList ++ (toString m).toList)[1]? = some 'd' := rfl
  have hupdate : ("/update/".toList ++ (toString n).toList)[1]? = some 'u' := rfl
  rw [hterminal, hupdate] at htext
  exact absurd (Option.some.inj htext) (by decide)

/-! ## The account of one delegate -/

/-- What was put into a delegate's queue so far, acknowledged, and taken out by a stop. -/
structure Account where
  queued : List PendingDelivery := []
  acked : List PendingDelivery := []
  dropped : List PendingDelivery := []

/-- One event read off the queue before and after it. -/
def Account.record (account : Account) (id : String) (event : Event) (before after : State) :
    Account :=
  let old := pendingOf before id
  let new := pendingOf after id
  if event.kind = .delegateDeliveryAcknowledged then
    { account with acked := account.acked ++ old.take (old.length - new.length) }
  else if event.kind = .delegateSubtreeStopCompleted then
    { account with dropped := account.dropped ++ old.filter fun d => d ∉ new }
  else { account with queued := account.queued ++ new.drop old.length }

/-- The account along a fold from `state`. -/
def accountFrom (json : Json) (id : String) : State → Account → List (Event × Nat) → Account
  | _, account, [] => account
  | state, account, entry :: entries =>
    match foldStep json state entry with
    | .error _ => account
    | .ok next => accountFrom json id next (account.record id entry.1 state next) entries

/-- The account of a delegate over a whole journal. -/
def accountOf (json : Json) (id : String) (events : List Event) : Account :=
  accountFrom json id [] {} events.zipIdx

variable {d : PendingDelivery}

section Record

variable {account : Account} {id : String} {event : Event} {before after : State}

theorem record_same (hsame : pendingOf after id = pendingOf before id) :
    account.record id event before after = account := by
  unfold Account.record
  dsimp only
  rw [hsame]
  split
  · simp
  · split
    · have hnone : (pendingOf before id).filter (fun d => d ∉ pendingOf before id) = [] := by
        rw [filter_eq_nil_iff]
        simp
      rw [hnone, append_nil]
    · simp

theorem record_queues (hack : event.kind ≠ .delegateDeliveryAcknowledged)
    (hstop : event.kind ≠ .delegateSubtreeStopCompleted)
    (hnew : pendingOf after id = pendingOf before id ++ [d]) :
    account.record id event before after =
      { account with queued := account.queued ++ [d] } := by
  unfold Account.record
  rw [if_neg hack, if_neg hstop, hnew, drop_left]

theorem record_pops (hack : event.kind = .delegateDeliveryAcknowledged)
    (hold : pendingOf before id = d :: pendingOf after id) :
    account.record id event before after = { account with acked := account.acked ++ [d] } := by
  have hlength : (d :: pendingOf after id).length - (pendingOf after id).length = 1 := by
    rw [length_cons]
    omega
  unfold Account.record
  rw [if_pos hack, hold, hlength]
  rfl

theorem record_drops {keep : PendingDelivery → Bool}
    (hstop : event.kind = .delegateSubtreeStopCompleted)
    (hnew : pendingOf after id = (pendingOf before id).filter keep) :
    account.record id event before after =
      { account with
        dropped := account.dropped ++ (pendingOf before id).filter fun d => !keep d } := by
  have hgone : (pendingOf before id).filter (fun d => d ∉ (pendingOf before id).filter keep) =
      (pendingOf before id).filter fun d => !keep d := by
    refine filter_congr fun d hd => ?_
    rw [Bool.eq_iff_iff]
    simp [hd]
  unfold Account.record
  rw [if_neg (by simp [hstop]), if_pos hstop, hnew, hgone]

/-- What was queued stays on the account. -/
theorem queued_record (account : Account) (id : String) (event : Event) (before after : State) :
    account.queued <+: (account.record id event before after).queued := by
  unfold Account.record
  split
  · exact prefix_rfl
  · split
    · exact prefix_rfl
    · exact prefix_append _ _

end Record

/-! ## The ledger -/

/-- The account of `id` after `read` events agrees with the state. -/
structure Ledger (read : Nat) (state : State) (id : String) (account : Account) : Prop where
  origin : ∀ d ∈ account.queued,
    (∃ generation a, d.deliveryId = terminalDeliveryId id generation ∧
      aggregateOf state id = some a ∧ a.life.Settled generation) ∨
    ∃ seq, seq ≤ read ∧ d.deliveryId = updateDeliveryId id seq
  nodup : (account.queued.map (·.deliveryId)).Nodup
  dropped : ∀ d ∈ account.dropped, d ∈ account.queued
  balance : account.acked ++ pendingOf state id =
    account.queued.filter fun d => d ∉ account.dropped

theorem ledger_nil (id : String) : Ledger 0 [] id {} where
  origin := fun _ hd => absurd hd not_mem_nil
  nodup := nodup_nil
  dropped := fun _ hd => absurd hd not_mem_nil
  balance := rfl

section Step

variable {read : Nat} {state state' : State} {id : String} {account : Account} {event : Event}

/-- Where a delivery came from stays true. -/
theorem Ledger.origin_step (h : Ledger read state id account)
    (hevolves : Evolves event state state') (d : PendingDelivery) (hd : d ∈ account.queued) :
    (∃ generation a, d.deliveryId = terminalDeliveryId id generation ∧
      aggregateOf state' id = some a ∧ a.life.Settled generation) ∨
    ∃ seq, seq ≤ read + 1 ∧ d.deliveryId = updateDeliveryId id seq := by
  rcases h.origin d hd with ⟨generation, a, hid, ha, hsettled⟩ | ⟨seq, hseq, hid⟩
  · obtain ⟨a', label, ha', _, hstep, _⟩ := hevolves.step ha
    exact Or.inl ⟨generation, a', hid, ha', hstep.settled hsettled⟩
  · exact Or.inr ⟨seq, by omega, hid⟩

theorem Ledger.stays (h : Ledger read state id account) (hevolves : Evolves event state state')
    (hsame : pendingOf state' id = pendingOf state id) :
    Ledger (read + 1) state' id (account.record id event state state') := by
  rw [record_same hsame]
  refine ⟨h.origin_step hevolves, h.nodup, h.dropped, ?_⟩
  rw [hsame]
  exact h.balance

/-- A delivery of the event's own is new to the account, and accounted for after it. -/
theorem Ledger.fresh (h : Ledger read state event.delegateId account)
    (hevolves : Evolves event state state') (hseq : event.seq = read + 1) (hqueues : Queues event d) :
    (∀ d' ∈ account.queued, d'.deliveryId ≠ d.deliveryId) ∧
      ((∃ generation a, d.deliveryId = terminalDeliveryId event.delegateId generation ∧
        aggregateOf state' event.delegateId = some a ∧ a.life.Settled generation) ∨
      ∃ seq, seq ≤ read + 1 ∧ d.deliveryId = updateDeliveryId event.delegateId seq) := by
  cases hqueues with
  | finish generation hfinish hid =>
    obtain ⟨a, ha⟩ := Option.isSome_iff_exists.mp (hevolves.isSome_of_run (Or.inr hfinish))
    obtain ⟨a', label, ha', _, hstep, _, hlabel⟩ := hevolves.step ha
    rw [hlabel generation hfinish] at hstep
    obtain ⟨hopen, hsettled⟩ := hstep.of_finish
    refine ⟨fun d' hd' hclash => ?_, Or.inl ⟨generation, a', hid, ha', hsettled⟩⟩
    rw [hid] at hclash
    rcases h.origin d' hd' with ⟨generation', b, hid', hb, hsettled'⟩ | ⟨seq, _, hid'⟩
    · -- the generation had not finished before
      rw [hid'] at hclash
      rw [ha] at hb
      rw [terminalDeliveryId_inj hclash, ← Option.some.inj hb] at hsettled'
      exact hopen hsettled'
    · rw [hid'] at hclash
      exact terminalDeliveryId_ne_update _ _ _ hclash.symm
  | update hkind hid =>
    refine ⟨fun d' hd' hclash => ?_, Or.inr ⟨event.seq, by omega, hid⟩⟩
    rw [hid] at hclash
    rcases h.origin d' hd' with ⟨generation', b, hid', _, _⟩ | ⟨seq, hle, hid'⟩
    · rw [hid'] at hclash
      exact terminalDeliveryId_ne_update _ _ _ hclash
    · rw [hid'] at hclash
      have := updateDeliveryId_inj hclash
      omega

theorem finishesRun_unique {generation generation' : Nat}
    (h : finishesRun id generation event = true) (h' : finishesRun id generation' event = true) :
    generation = generation' := by
  unfold finishesRun at h h'
  simp only [Bool.and_eq_true, decide_eq_true_eq, Option.any_eq_true_iff_get] at h h'
  obtain ⟨_, _, h⟩ := h
  obtain ⟨_, _, h'⟩ := h'
  exact h.symm.trans h'

theorem Queues.kinds (h : Queues event d) :
    event.kind ≠ .delegateDeliveryAcknowledged ∧ event.kind ≠ .delegateSubtreeStopCompleted := by
  cases h with
  | finish generation hfinish =>
    have hkind : event.kind = .delegateRunFinished := by
      unfold finishesRun at hfinish
      simp only [Bool.and_eq_true, decide_eq_true_eq] at hfinish
      exact hfinish.1.1
    rw [hkind]
    decide
  | update hkind =>
    rw [hkind]
    decide

theorem Ledger.queues (h : Ledger read state event.delegateId account)
    (hevolves : Evolves event state state') (hseq : event.seq = read + 1) (hqueues : Queues event d)
    (hown : pendingOf state' event.delegateId = pendingOf state event.delegateId ++ [d]) :
    Ledger (read + 1) state' event.delegateId
      (account.record event.delegateId event state state') := by
  obtain ⟨hnew, horigin⟩ := h.fresh hevolves hseq hqueues
  rw [record_queues hqueues.kinds.1 hqueues.kinds.2 hown]
  refine ⟨fun d' hd' => ?_, ?_, fun d' hd' => mem_append_left _ (h.dropped d' hd'), ?_⟩
  · rcases mem_append.mp hd' with hd' | hd'
    · exact h.origin_step hevolves d' hd'
    · rw [mem_singleton.mp hd']
      exact horigin
  · rw [map_append, nodup_append]
    refine ⟨h.nodup, nodup_singleton _, fun x hx y hy => ?_⟩
    obtain ⟨d', hd', rfl⟩ := mem_map.mp hx
    rw [map_singleton, mem_singleton] at hy
    rw [hy]
    exact hnew d' hd'
  · have hkept : d ∉ account.dropped := fun hd => hnew d (h.dropped d hd) rfl
    rw [hown, ← append_assoc, h.balance, filter_append]
    congr 1
    simp [hkept]

theorem Ledger.pops (h : Ledger read state event.delegateId account)
    (hevolves : Evolves event state state') (hkind : event.kind = .delegateDeliveryAcknowledged)
    (hown : pendingOf state event.delegateId = d :: pendingOf state' event.delegateId) :
    Ledger (read + 1) state' event.delegateId
      (account.record event.delegateId event state state') := by
  rw [record_pops hkind hown]
  refine ⟨h.origin_step hevolves, h.nodup, h.dropped, ?_⟩
  have hbalance := h.balance
  rw [hown] at hbalance
  rw [append_assoc]
  exact hbalance

/-- What is acknowledged or pending was queued once. -/
theorem Ledger.nodup_held (h : Ledger read state id account) :
    ((account.acked ++ pendingOf state id).map (·.deliveryId)).Nodup := by
  rw [h.balance]
  exact h.nodup.sublist (filter_sublist.map _)

theorem Ledger.drops (h : Ledger read state id account) (hevolves : Evolves event state state')
    {keep : PendingDelivery → Bool} (hkind : event.kind = .delegateSubtreeStopCompleted)
    (hfiltered : pendingOf state' id = (pendingOf state id).filter keep) :
    Ledger (read + 1) state' id (account.record id event state state') := by
  have hheld := h.nodup_held
  have hqueued : ∀ d ∈ account.acked ++ pendingOf state id, d ∈ account.queued := by
    intro d hd
    rw [h.balance] at hd
    exact (mem_filter.mp hd).1
  rw [record_drops hkind hfiltered]
  refine ⟨h.origin_step hevolves, h.nodup, fun d hd => ?_, ?_⟩
  · rcases mem_append.mp hd with hd | hd
    · exact h.dropped d hd
    · exact hqueued d (mem_append_right _ (mem_filter.mp hd).1)
  · rw [hfiltered]
    have hsplit : account.queued.filter (fun d => d ∉ account.dropped ++
          (pendingOf state id).filter fun d => !keep d) =
        (account.acked ++ pendingOf state id).filter
          fun d => d ∉ (pendingOf state id).filter fun d => !keep d := by
      rw [h.balance, filter_filter]
      refine filter_congr fun d _ => ?_
      rw [Bool.eq_iff_iff]
      simp only [mem_append, not_or, decide_eq_true_eq, Bool.and_eq_true]
      exact And.comm
    rw [hsplit, filter_append]
    have hheld := List.Nodup.of_map _ hheld
    have hapart := (nodup_append.mp hheld).2.2
    congr 1
    · -- nothing acknowledged is pending
      symm
      rw [filter_eq_self]
      intro d hd
      rw [decide_eq_true_eq]
      exact fun hmem => hapart d hd d (mem_filter.mp hmem).1 rfl
    · refine filter_congr fun d hd => ?_
      rw [Bool.eq_iff_iff]
      simp [hd]

theorem Ledger.step (h : Ledger read state id account) (hevolves : Evolves event state state')
    (hdelivers : Delivers event state state') (hseq : event.seq = read + 1) :
    Ledger (read + 1) state' id (account.record id event state state') := by
  cases hdelivers with
  | stays _ _ hsame => exact h.stays hevolves (hsame id)
  | queues d hqueues hown hother =>
    by_cases hid : id = event.delegateId
    · subst hid
      exact h.queues hevolves hseq hqueues hown
    · exact h.stays hevolves (hother id hid)
  | pops d hkind _ hown hother =>
    by_cases hid : id = event.delegateId
    · subst hid
      exact h.pops hevolves hkind hown
    · exact h.stays hevolves (hother id hid)
  | drops requestSeq hkind _ hfiltered => exact h.drops hevolves hkind (hfiltered id)

end Step

/-! ## Whole journals -/

section Runs

variable {json : Json} {id : String}

theorem accountFrom_append {l l' : List (Event × Nat)} {state middle : State} {account : Account}
    (h : l.foldlM (foldStep json) state = .ok middle) :
    accountFrom json id state account (l ++ l') =
      accountFrom json id middle (accountFrom json id state account l) l' := by
  induction l generalizing state account with
  | nil =>
    cases h
    rfl
  | cons entry l ih =>
    rw [foldlM_cons] at h
    obtain ⟨next, hnext, h⟩ := bind_eq_ok.mp h
    rw [cons_append, accountFrom, accountFrom, hnext]
    exact ih h

theorem queued_accountFrom (state : State) (account : Account) (entries : List (Event × Nat)) :
    account.queued <+: (accountFrom json id state account entries).queued := by
  induction entries generalizing state account with
  | nil => exact prefix_rfl
  | cons entry entries ih =>
    rw [accountFrom]
    split
    · exact prefix_rfl
    · exact (queued_record _ _ _ _ _).trans (ih _ _)

/-- What is carried along an accepted journal. -/
structure Accounted (read : Nat) (state : State) (id : String) (account : Account) : Prop where
  sound : Sound state
  named : Named state
  ledger : Ledger read state id account

theorem accounted_nil (id : String) : Accounted 0 [] id {} :=
  ⟨sound_nil, fun _ _ ha => (nomatch ha), ledger_nil id⟩

theorem Accounted.step {read : Nat} {state state' : State} {account : Account} {event : Event}
    (h : Accounted read state id account) (hstep : foldStep json state (event, read) = .ok state') :
    Accounted (read + 1) state' id (account.record id event state state') := by
  obtain ⟨hseq, hevolves⟩ := foldStep_evolves h.sound.keys hstep
  have hdelivers := foldStep_delivers h.sound.keys h.named hstep
  exact ⟨hevolves.sound h.sound, foldStep_named h.sound.keys h.named hstep,
    h.ledger.step hevolves hdelivers hseq⟩

theorem Accounted.run {events : List Event} {read : Nat} {state state' : State} {account : Account}
    (h : Accounted read state id account)
    (hfold : (events.zipIdx read).foldlM (foldStep json) state = .ok state') :
    Accounted (read + events.length) state' id
      (accountFrom json id state account (events.zipIdx read)) := by
  induction events generalizing read state account with
  | nil =>
    cases hfold
    exact h
  | cons event events ih =>
    rw [zipIdx_cons, foldlM_cons] at hfold
    obtain ⟨next, hnext, hfold⟩ := bind_eq_ok.mp hfold
    have hrest := ih (h.step hnext) hfold
    rw [zipIdx_cons, accountFrom, hnext, length_cons]
    rwa [Nat.add_assoc, Nat.add_comm 1] at hrest

/-- The journal up to an event, the event, and what its step did. -/
theorem fold_at {before after : List Event} {event : Event} {state : State}
    (h : fold json (before ++ event :: after) = .ok state) :
    ∃ s s', fold json before = .ok s ∧ fold json (before ++ [event]) = .ok s' ∧
      foldStep json s (event, before.length) = .ok s' ∧
      Accounted before.length s id (accountOf json id before) ∧
      ((accountOf json id before).record id event s s').queued <+:
        (accountOf json id (before ++ event :: after)).queued := by
  unfold fold at h
  rw [zipIdx_append, zipIdx_cons] at h
  obtain ⟨s, hs, hrest⟩ := foldlM_append_eq_ok.mp h
  rw [foldlM_cons] at hrest
  obtain ⟨s', hs', _⟩ := bind_eq_ok.mp hrest
  rw [Nat.zero_add] at hs'
  refine ⟨s, s', hs, ?_, hs', ?_, ?_⟩
  · unfold fold
    rw [zipIdx_append]
    refine foldlM_append_eq_ok.mpr ⟨s, hs, ?_⟩
    rw [zipIdx_cons, foldlM_cons, Nat.zero_add]
    exact bind_eq_ok.mpr ⟨s', hs', rfl⟩
  · have hrun := (accounted_nil id).run hs
    rwa [Nat.zero_add] at hrun
  · unfold accountOf
    rw [zipIdx_append, accountFrom_append hs, zipIdx_cons, accountFrom, Nat.zero_add, hs']
    exact queued_accountFrom _ _ _

/-- A delivery on the account is there once. -/
theorem Ledger.count_eq_one {read : Nat} {state : State} {account : Account}
    (h : Ledger read state id account) (hd : d ∈ account.queued) :
    (account.queued.map (·.deliveryId)).count d.deliveryId = 1 :=
  count_eq_one_of_mem h.nodup (mem_map_of_mem hd)

/-- The delivery of a finish or an update is put at the end of its queue. -/
theorem Delivers.queued {event : Event} {state state' : State} (h : Delivers event state state')
    (hmust : (event.kind = .delegateRunFinished ∧ ¬ Exempt state event) ∨
      event.kind = .delegateUpdatePosted) :
    ∃ d, Queues event d ∧
      pendingOf state' event.delegateId = pendingOf state event.delegateId ++ [d] := by
  cases h with
  | stays hfinish hupdate _ =>
    rcases hmust with ⟨hkind, hexempt⟩ | hkind
    · exact absurd (hfinish hkind) hexempt
    · exact absurd hkind hupdate
  | queues d hqueues hown _ => exact ⟨d, hqueues, hown⟩
  | pops d hkind _ _ _ => rcases hmust with ⟨h, _⟩ | h <;> exact nomatch hkind.symm.trans h
  | drops requestSeq hkind _ _ => rcases hmust with ⟨h, _⟩ | h <;> exact nomatch hkind.symm.trans h

theorem record_mem {account : Account} {event : Event} {state state' : State}
    (hqueues : Queues event d)
    (hown : pendingOf state' event.delegateId = pendingOf state event.delegateId ++ [d]) :
    d ∈ (account.record event.delegateId event state state').queued := by
  rw [record_queues hqueues.kinds.1 hqueues.kinds.2 hown]
  exact mem_append_right _ (mem_singleton_self d)

/-- A pending delivery goes only by an acknowledgement of the head, or with a stop that covers its
    owner. -/
theorem Delivers.gone {event : Event} {state state' : State} (h : Delivers event state state')
    (hd : d ∈ pendingOf state id) (hgone : d ∉ pendingOf state' id) :
    (event.kind = .delegateDeliveryAcknowledged ∧ event.delegateId = id ∧
      (pendingOf state id).head? = some d ∧
      event.deliveryAcknowledged.map (·.deliveryId) = some d.deliveryId) ∨
    (event.kind = .delegateSubtreeStopCompleted ∧ ∃ requestSeq,
      event.subtreeStopCompleted.map (·.requestSeq) = some requestSeq ∧
      coveredBy state requestSeq d.ownerDelegateId = true) := by
  have hkept : pendingOf state' id ≠ pendingOf state id := fun hsame => hgone (hsame ▸ hd)
  cases h with
  | stays _ _ hsame => exact absurd (hsame id) hkept
  | queues d' _ hown hother =>
    by_cases hid : id = event.delegateId
    · subst hid
      rw [hown] at hgone
      exact absurd (mem_append_left _ hd) hgone
    · exact absurd (hother id hid) hkept
  | pops d' hkind hpayload hown hother =>
    by_cases hid : id = event.delegateId
    · subst hid
      rw [hown] at hd
      rcases mem_cons.mp hd with rfl | hd
      · exact Or.inl ⟨hkind, rfl, by rw [hown]; rfl, hpayload⟩
      · exact absurd hd hgone
    · exact absurd (hother id hid) hkept
  | drops requestSeq hkind hpayload hfiltered =>
    rw [hfiltered, mem_filter, not_and] at hgone
    exact Or.inr ⟨hkind, requestSeq, hpayload, by simpa using hgone hd⟩

/-- No id is queued twice on a delegate; what was acknowledged and what is pending are what was
    queued, in order, less what stops took out; every finish with something to deliver, and every
    update, queues one delivery; and none disappears but from the head or with a stop. -/
theorem deliveries_once_in_order (json : Json) (events : List Event) (state : State)
    (h : fold json events = .ok state) (id : String) :
    ((accountOf json id events).queued.map (·.deliveryId)).Nodup ∧
    ((accountOf json id events).acked.map (·.deliveryId)).Nodup ∧
    (accountOf json id events).acked ++ pendingOf state id =
      (accountOf json id events).queued.filter (fun d => d ∉ (accountOf json id events).dropped) ∧
    ∀ before event after, events = before ++ event :: after →
      ∃ s s', fold json before = .ok s ∧ fold json (before ++ [event]) = .ok s' ∧
        (∀ generation, finishesRun id generation event = true → ¬ Exempt s event →
          (∃ d, pendingOf s' id = pendingOf s id ++ [d] ∧
            d.deliveryId = terminalDeliveryId id generation ∧ d.generation = generation ∧
            d.packet.kind ≠ .update) ∧
          ((accountOf json id events).queued.map (·.deliveryId)).count
            (terminalDeliveryId id generation) = 1) ∧
        (event.kind = .delegateUpdatePosted → event.delegateId = id →
          (∃ d, pendingOf s' id = pendingOf s id ++ [d] ∧
            d.deliveryId = updateDeliveryId id event.seq ∧ d.packet.kind = .update) ∧
          ((accountOf json id events).queued.map (·.deliveryId)).count
            (updateDeliveryId id event.seq) = 1) ∧
        ∀ d ∈ pendingOf s id, d ∉ pendingOf s' id →
          (event.kind = .delegateDeliveryAcknowledged ∧ event.delegateId = id ∧
            (pendingOf s id).head? = some d ∧
            event.deliveryAcknowledged.map (·.deliveryId) = some d.deliveryId) ∨
          (event.kind = .delegateSubtreeStopCompleted ∧ ∃ requestSeq,
            event.subtreeStopCompleted.map (·.requestSeq) = some requestSeq ∧
            coveredBy s requestSeq d.ownerDelegateId = true) := by
  have hledger := (@Accounted.run _ _ events _ _ _ _ (accounted_nil id) h).ledger
  have hheld := hledger.nodup_held
  rw [map_append] at hheld
  refine ⟨hledger.nodup, (nodup_append.mp hheld).1, hledger.balance, ?_⟩
  intro before event after hevents
  rw [hevents] at h
  obtain ⟨s, s', hs, hs', hstep, haccounted, hqueued⟩ := @fold_at _ id _ _ _ _ h
  rw [← hevents] at hqueued
  have hdelivers := foldStep_delivers haccounted.sound.keys haccounted.named hstep
  refine ⟨s, s', hs, hs', fun generation hfinish hexempt => ?_, fun hkind hid => ?_,
    fun d hd hgone => hdelivers.gone hd hgone⟩
  · obtain ⟨⟨hkind, hid⟩, hgeneration⟩ : (event.kind = .delegateRunFinished ∧
        event.delegateId = id) ∧ (event.runFinished.any fun payload =>
          payload.generation = generation) = true := by
      unfold finishesRun at hfinish
      simpa only [Bool.and_eq_true, decide_eq_true_eq] using hfinish
    subst hid
    obtain ⟨d, hqueues, hown⟩ := hdelivers.queued (Or.inl ⟨hkind, hexempt⟩)
    have hmem := hqueued.subset (record_mem hqueues hown)
    cases hqueues with
    | update hupdate => exact nomatch hkind.symm.trans hupdate
    | finish generation' hfinish' hid hgeneration' hpacket =>
      have hsame : generation' = generation := finishesRun_unique hfinish' hfinish
      subst hsame
      refine ⟨⟨d, hown, hid, hgeneration', hpacket⟩, ?_⟩
      rw [← hid]
      exact hledger.count_eq_one hmem
  · subst hid
    obtain ⟨d, hqueues, hown⟩ := hdelivers.queued (Or.inr hkind)
    have hmem := hqueued.subset (record_mem hqueues hown)
    cases hqueues with
    | finish generation' hfinish' =>
      rw [not_finishesRun (by simp [hkind])] at hfinish'
      exact nomatch hfinish'
    | update _ hid hpacket =>
      refine ⟨⟨d, hown, hid, hpacket⟩, ?_⟩
      rw [← hid]
      exact hledger.count_eq_one hmem

end Runs

/-- `encoding/json` on plain quoted texts. -/
def quotingJson : Json where
  valid text := text.head? = some 34 && text.getLast? = some 34
  marshal s := 34 :: (s.toList.map fun c => UInt8.ofNat c.toNat) ++ [34]

def finishedPacket : TerminalPacket := { kind := .reported, message := [34, 111, 107, 34] }

/-- A run posts an update and reports, and its owner acknowledges the update. -/
def reportedRun : List Event :=
  [{ kind := .delegateCreated, seq := 1, delegateId := "c", created := some ⟨plainDescriptor ""⟩ },
    { kind := .delegateRunStarted, seq := 2, delegateId := "c", runStarted := some ⟨1, .initial, 5⟩ },
    { kind := .delegateUpdatePosted, seq := 3, delegateId := "c", updatePosted := some ⟨1, "m"⟩ },
    { kind := .delegateRunFinished, seq := 4, delegateId := "c",
      runFinished := some
        { generation := 1
          outcome := { status := .completed, endedAt := 6 }
          disposition := .reported
          deliveryId := "c/delivery/1"
          packet := some finishedPacket } },
    { kind := .delegateDeliveryAcknowledged, seq := 5, delegateId := "c",
      deliveryAcknowledged := some ⟨"c/update/3"⟩ }]

theorem deliveries_once_in_order_reportedRun :
    ∃ state, fold quotingJson reportedRun = .ok state ∧
      (accountOf quotingJson "c" reportedRun).queued.map (·.deliveryId) =
        ["c/update/3", "c/delivery/1"] ∧
      (accountOf quotingJson "c" reportedRun).acked.map (·.deliveryId) = ["c/update/3"] ∧
      (accountOf quotingJson "c" reportedRun).acked ++ pendingOf state "c" =
        (accountOf quotingJson "c" reportedRun).queued.filter
          (fun d => d ∉ (accountOf quotingJson "c" reportedRun).dropped) := by
  have hok : (fold quotingJson reportedRun).toBool = true := by decide
  cases hstate : fold quotingJson reportedRun with
  | error err =>
    rw [hstate] at hok
    exact nomatch hok
  | ok state =>
    exact ⟨state, rfl, by decide, by decide,
      (deliveries_once_in_order quotingJson reportedRun state hstate "c").2.2.1⟩

end Evener.Delegatestore
