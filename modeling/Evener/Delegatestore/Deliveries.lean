/-
  What an accepted event does to the queues of pending deliveries: `Delivers` lists it once.
-/
import Evener.Delegatestore.Invariant

namespace Evener.Delegatestore

open Evener.Lib Option

/-- The queue of a delegate. -/
def pendingOf (state : State) (id : String) : List PendingDelivery :=
  ((aggregateOf state id).map (·.pendingDeliveries)).getD []

/-- The id `appendDelivery` asks of a generation's delivery. -/
def terminalDeliveryId (delegateId : String) (generation : Nat) : String :=
  delegateId ++ "/delivery/" ++ toString generation

/-- A finish that need not queue anything: there was nothing to do, the observer has been told, or
    a stop that covers the owner as well ended the run. -/
def Exempt (state : State) (event : Event) : Prop :=
  ∃ payload a, event.runFinished = some payload ∧ aggregateOf state event.delegateId = some a ∧
    (payload.disposition = .completedNoAction ∨ payload.observerCallbackDelivered = true ∨
      (a.phase = .stopping ∧ ownerCoveredByStop state a = true))

/-- The delegate belongs to the stop `requestSeq`. -/
def coveredBy (state : State) (requestSeq : Nat) (id : String) : Bool :=
  (aggregateOf state id).any fun a => a.pendingStopSeq = requestSeq

/-- The delivery a finish or an update queues. -/
inductive Queues (event : Event) (d : PendingDelivery) : Prop where
  | finish (generation : Nat) (hfinish : finishesRun event.delegateId generation event = true)
      (hid : d.deliveryId = terminalDeliveryId event.delegateId generation)
      (hgeneration : d.generation = generation) (hpacket : d.packet.kind ≠ .update)
  | update (hkind : event.kind = .delegateUpdatePosted)
      (hid : d.deliveryId = updateDeliveryId event.delegateId event.seq)
      (hpacket : d.packet.kind = .update)

inductive Delivers (event : Event) (state state' : State) : Prop where
  | stays (hfinish : event.kind = .delegateRunFinished → Exempt state event)
      (hupdate : event.kind ≠ .delegateUpdatePosted)
      (hsame : ∀ id, pendingOf state' id = pendingOf state id)
  | queues (d : PendingDelivery) (hqueues : Queues event d)
      (hown : pendingOf state' event.delegateId = pendingOf state event.delegateId ++ [d])
      (hother : ∀ id, id ≠ event.delegateId → pendingOf state' id = pendingOf state id)
  | pops (d : PendingDelivery) (hkind : event.kind = .delegateDeliveryAcknowledged)
      (hpayload : event.deliveryAcknowledged.map (·.deliveryId) = some d.deliveryId)
      (hown : pendingOf state event.delegateId = d :: pendingOf state' event.delegateId)
      (hother : ∀ id, id ≠ event.delegateId → pendingOf state' id = pendingOf state id)
  | drops (requestSeq : Nat) (hkind : event.kind = .delegateSubtreeStopCompleted)
      (hpayload : event.subtreeStopCompleted.map (·.requestSeq) = some requestSeq)
      (hfiltered : ∀ id, pendingOf state' id =
        (pendingOf state id).filter fun d => !coveredBy state requestSeq d.ownerDelegateId)

/-! ## Queues after a rewrite -/

variable {a a' : Aggregate} {state state' : State} {id : String} {event : Event}
  {packet : TerminalPacket} {json : Json} {payload : RunFinished}

theorem pendingOf_of_aggregateOf (ha : aggregateOf state id = some a) :
    pendingOf state id = a.pendingDeliveries := by
  unfold pendingOf
  rw [ha]
  rfl

theorem pendingOf_rewrite {f : String → Aggregate → Aggregate}
    (hf : ∀ id a, (f id a).pendingDeliveries = a.pendingDeliveries) (state : State) (id : String) :
    pendingOf (rewrite f state) id = pendingOf state id := by
  unfold pendingOf
  rw [aggregateOf_rewrite]
  cases aggregateOf state id with
  | none => rfl
  | some a => exact hf id a

theorem pendingOf_write_own (ha : aggregateOf state id = some a) :
    pendingOf (writeAggregate state id a') id = a'.pendingDeliveries := by
  unfold pendingOf writeAggregate
  rw [aggregateOf_rewrite, ha]
  simp

theorem pendingOf_write_other {x : String} (hx : x ≠ id) :
    pendingOf (writeAggregate state id a') x = pendingOf state x := by
  unfold pendingOf writeAggregate
  rw [aggregateOf_rewrite]
  cases aggregateOf state x with
  | none => rfl
  | some b => simp [hx]

theorem pendingOf_write_same (ha : aggregateOf state id = some a)
    (hsame : a'.pendingDeliveries = a.pendingDeliveries) (x : String) :
    pendingOf (writeAggregate state id a') x = pendingOf state x := by
  by_cases hx : x = id
  · subst hx
    rw [pendingOf_write_own ha, pendingOf_of_aggregateOf ha, hsame]
  · exact pendingOf_write_other hx

/-- A later rewrite that leaves the queues alone changes nothing of what was delivered. -/
theorem Delivers.congr {state'' : State} (h : Delivers event state state')
    (hsame : ∀ id, pendingOf state'' id = pendingOf state' id) : Delivers event state state'' := by
  cases h with
  | stays hfinish hupdate hkept =>
    exact .stays hfinish hupdate fun id => (hsame id).trans (hkept id)
  | queues d hqueues hown hother =>
    exact .queues d hqueues ((hsame _).trans hown) fun id hid => (hsame id).trans (hother id hid)
  | pops d hkind hpayload hown hother =>
    refine .pops d hkind hpayload ?_ fun id hid => (hsame id).trans (hother id hid)
    rw [hsame]
    exact hown
  | drops requestSeq hkind hpayload hfiltered =>
    exact .drops requestSeq hkind hpayload fun id => (hsame id).trans (hfiltered id)

/-! ## The kinds of event -/

/-- Every aggregate is under its own id. -/
def Named (state : State) : Prop := ∀ id a, aggregateOf state id = some a → a.delegateId = id

theorem queueDelivery_pending {deliveryId : String} {generation : Nat}
    (h : queueDelivery a deliveryId generation packet = .ok a') :
    ∃ d, a'.pendingDeliveries = a.pendingDeliveries ++ [d] ∧ d.deliveryId = deliveryId ∧
      d.generation = generation ∧ d.packet = packet := by
  unfold queueDelivery at h
  obtain ⟨_, _, h⟩ := bind_eq_ok.mp h
  cases h
  exact ⟨_, rfl, rfl, rfl, rfl⟩

theorem appendDelivery_pending {deliveryId : String} {generation : Nat}
    {packet : Option TerminalPacket} (h : appendDelivery a deliveryId generation packet = .ok a') :
    ∃ d, a'.pendingDeliveries = a.pendingDeliveries ++ [d] ∧
      d.deliveryId = terminalDeliveryId a.delegateId generation ∧ d.generation = generation ∧
      packet = some d.packet := by
  unfold appendDelivery at h
  split at h
  · cases h
  · obtain ⟨_, _, h⟩ := bind_eq_ok.mp h
    obtain ⟨_, hwant, h⟩ := bind_eq_ok.mp h
    obtain ⟨d, hpending, hid, hgeneration, hpacket⟩ := queueDelivery_pending h
    have hwant := not_not.mp (failIf_eq_ok.mp hwant)
    exact ⟨d, hpending, hid.trans hwant, hgeneration, by rw [hpacket]⟩

theorem validateTerminalPacket_kind {u : Unit} (h : validateTerminalPacket json packet = .ok u) :
    packet.kind ≠ .update := by
  unfold validateTerminalPacket at h
  obtain ⟨_, hkind, _⟩ := bind_eq_ok.mp h
  intro hupdate
  exact failIf_eq_ok.mp hkind (by rw [hupdate]; decide)

/-- What a finish leaves of a queue. -/
def FinishQueues (a a' : Aggregate) (generation : Nat) : Prop :=
  ∃ d, a'.pendingDeliveries = a.pendingDeliveries ++ [d] ∧
    d.deliveryId = terminalDeliveryId a.delegateId generation ∧ d.generation = generation ∧
    d.packet.kind ≠ .update

theorem finishStopping_pending {packet packet' : Option TerminalPacket}
    (h : finishStopping json state event a payload packet = .ok (a', packet')) :
    FinishQueues a a' payload.generation ∨
      (ownerCoveredByStop state a = true ∧ a'.pendingDeliveries = a.pendingDeliveries) := by
  unfold finishStopping at h
  obtain ⟨_, _, h⟩ := bind_eq_ok.mp h
  split at h
  · next hcovered =>
    cases h
    exact Or.inr ⟨hcovered, rfl⟩
  · obtain ⟨_, hvalid, h⟩ := bind_eq_ok.mp h
    obtain ⟨b, hb, h⟩ := bind_eq_ok.mp h
    cases h
    obtain ⟨d, hpending, hid, hgeneration, hpacket⟩ := appendDelivery_pending hb
    have hkind := validateTerminalPacket_kind (wrapping_eq_ok.mp hvalid)
    rw [some.inj hpacket] at hkind
    exact Or.inl ⟨d, hpending, hid, hgeneration, hkind⟩

theorem validateFinishPacket_kind {u : Unit}
    (hdisposition : payload.disposition ≠ .completedNoAction)
    (h : validateFinishPacket json a payload (some packet) = .ok u) : packet.kind ≠ .update := by
  unfold validateFinishPacket at h
  rw [if_neg hdisposition] at h
  obtain ⟨_, hvalid, _⟩ := bind_eq_ok.mp h
  exact validateTerminalPacket_kind (wrapping_eq_ok.mp hvalid)

theorem restAggregate_pending (a : Aggregate) :
    (restAggregate a).pendingDeliveries = a.pendingDeliveries := by
  unfold restAggregate
  split <;> rfl

theorem finishSettled_pending {packet packet' : Option TerminalPacket}
    (h : finishSettled json a payload packet = .ok (a', packet')) :
    FinishQueues a a' payload.generation ∨
      ((payload.disposition = .completedNoAction ∨ payload.observerCallbackDelivered = true) ∧
        a'.pendingDeliveries = a.pendingDeliveries) := by
  unfold finishSettled at h
  obtain ⟨_, hvalid, h⟩ := bind_eq_ok.mp h
  obtain ⟨b, hb, h⟩ := bind_eq_ok.mp h
  cases h
  unfold deliverFinish at hb
  split at hb
  · next hdeliver =>
    obtain ⟨d, hpending, hid, hgeneration, rfl⟩ := appendDelivery_pending hb
    refine Or.inl ⟨d, ?_, hid, hgeneration, validateFinishPacket_kind hdeliver.1 hvalid⟩
    rw [restAggregate_pending, hpending]
  · next hdeliver =>
    cases hb
    refine Or.inr ⟨?_, restAggregate_pending _⟩
    by_cases hdisposition : payload.disposition = .completedNoAction
    · exact Or.inl hdisposition
    · exact Or.inr (by simpa [hdisposition] using hdeliver)

theorem applyRunFinished_delivers (hnamed : Named state) (hkind : event.kind = .delegateRunFinished)
    (h : applyRunFinished json state event = .ok state') : Delivers event state state' := by
  unfold applyRunFinished at h
  obtain ⟨payload, hpayload, h⟩ := bind_eq_ok.mp h
  obtain ⟨a, ha, h⟩ := bind_eq_ok.mp h
  obtain ⟨_, _, h⟩ := bind_eq_ok.mp h
  obtain ⟨_, _, h⟩ := bind_eq_ok.mp h
  obtain ⟨_, _, h⟩ := bind_eq_ok.mp h
  obtain ⟨_, _, h⟩ := bind_eq_ok.mp h
  obtain ⟨_, _, h⟩ := bind_eq_ok.mp h
  obtain ⟨finished, hfinished, h⟩ := bind_eq_ok.mp h
  obtain ⟨b, packet⟩ := finished
  cases h
  obtain ⟨ha, _, _⟩ := requireExactOpenRun_ok ha
  have hpayload := deref_eq_ok.mp hpayload
  have hends : FinishQueues a b payload.generation ∨
      (Exempt state event ∧ b.pendingDeliveries = a.pendingDeliveries) := by
    unfold finishRun at hfinished
    dsimp only at hfinished
    split at hfinished
    · next hstopping =>
      refine (finishStopping_pending hfinished).imp_right fun ⟨hcovered, hsame⟩ => ⟨?_, hsame⟩
      exact ⟨payload, a, hpayload, ha, Or.inr (Or.inr ⟨hstopping, hcovered⟩)⟩
    · refine (finishSettled_pending hfinished).imp_right fun ⟨hexempt, hsame⟩ => ⟨?_, hsame⟩
      exact ⟨payload, a, hpayload, ha, hexempt.imp_right Or.inl⟩
  rcases hends with ⟨d, hpending, hid, hgeneration, hpacket⟩ | ⟨hexempt, hsame⟩
  · rw [hnamed _ a ha] at hid
    refine .queues d (.finish payload.generation ?_ hid hgeneration hpacket) ?_
      fun id hne => pendingOf_write_other hne
    · simp [finishesRun, hkind, hpayload]
    · rw [pendingOf_write_own ha, pendingOf_of_aggregateOf ha]
      exact hpending
  · exact .stays (fun _ => hexempt) (by simp [hkind]) (pendingOf_write_same ha hsame)

theorem applyUpdatePosted_delivers (hkind : event.kind = .delegateUpdatePosted)
    (h : applyUpdatePosted json state event = .ok state') : Delivers event state state' := by
  unfold applyUpdatePosted at h
  obtain ⟨payload, _, h⟩ := bind_eq_ok.mp h
  obtain ⟨_, _, h⟩ := bind_eq_ok.mp h
  obtain ⟨a, ha, h⟩ := bind_eq_ok.mp h
  obtain ⟨_, _, h⟩ := bind_eq_ok.mp h
  obtain ⟨_, _, h⟩ := bind_eq_ok.mp h
  obtain ⟨b, hb, h⟩ := bind_eq_ok.mp h
  cases h
  obtain ⟨ha, _, _⟩ := requireExactOpenRun_ok ha
  obtain ⟨d, hpending, hid, _, hpacket⟩ := queueDelivery_pending hb
  refine .queues d (.update hkind hid (by rw [hpacket])) ?_ fun id hne => pendingOf_write_other hne
  rw [pendingOf_write_own ha, pendingOf_of_aggregateOf ha]
  exact hpending

theorem applyDeliveryAcknowledged_delivers (hkind : event.kind = .delegateDeliveryAcknowledged)
    (h : applyDeliveryAcknowledged state event = .ok state') : Delivers event state state' := by
  unfold applyDeliveryAcknowledged at h
  obtain ⟨a, ha, h⟩ := bind_eq_ok.mp h
  obtain ⟨payload, hpayload, h⟩ := bind_eq_ok.mp h
  obtain ⟨_, _, h⟩ := bind_eq_ok.mp h
  obtain ⟨_, hhead, h⟩ := bind_eq_ok.mp h
  cases h
  have ha := requireAggregate_eq_ok.mp ha
  have hhead := not_not.mp (failIf_eq_ok.mp hhead)
  cases hpending : a.pendingDeliveries with
  | nil =>
    rw [hpending] at hhead
    cases hhead
  | cons d rest =>
    rw [hpending] at hhead
    have hid : d.deliveryId = payload.deliveryId := some.inj hhead
    refine .pops d hkind ?_ ?_ fun id hne => pendingOf_write_other hne
    · rw [deref_eq_ok.mp hpayload, hid]
      rfl
    · rw [pendingOf_write_own ha, pendingOf_of_aggregateOf ha]
      exact hpending

theorem applySubtreeStopCompleted_delivers (hkeys : KeysNodup Prod.fst state)
    (hkind : event.kind = .delegateSubtreeStopCompleted)
    (h : applySubtreeStopCompleted state event = .ok state') : Delivers event state state' := by
  obtain ⟨payload, covered, hpayload, _, _, hcovered, _, rfl⟩ := applySubtreeStopCompleted_ok h
  -- the members of the stop are the delegates it covers
  have hmember : ∀ id, id ∈ covered ↔ coveredBy state payload.requestSeq id = true := by
    intro id
    rw [hcovered hkeys id]
    unfold Stamped coveredBy
    cases aggregateOf state id with
    | none => simp
    | some a => simp
  refine .drops payload.requestSeq hkind (by rw [hpayload]; rfl) fun id => ?_
  unfold pendingOf
  rw [aggregateOf_rewrite]
  cases aggregateOf state id with
  | none => rfl
  | some a =>
    have hqueue : (if id ∈ covered then releaseAggregate (dropCovered covered a)
        else dropCovered covered a).pendingDeliveries =
        (dropCovered covered a).pendingDeliveries := by
      split <;> rfl
    refine hqueue.trans (List.filter_congr fun d _ => ?_)
    rw [Bool.eq_iff_iff]
    simp [hmember]

/-- The kinds that touch no queue. -/
theorem delivers_stays (hfinish : event.kind ≠ .delegateRunFinished)
    (hupdate : event.kind ≠ .delegateUpdatePosted)
    (hsame : ∀ id, pendingOf state' id = pendingOf state id) : Delivers event state state' :=
  .stays (fun hkind => absurd hkind hfinish) hupdate hsame

theorem Owned.stays (h : Owned event state state') (hfinish : event.kind ≠ .delegateRunFinished)
    (hack : event.kind ≠ .delegateDeliveryAcknowledged)
    (hupdate : event.kind ≠ .delegateUpdatePosted) : Delivers event state state' := by
  obtain ⟨a, a', label, h⟩ := h
  rw [h.wrote]
  exact delivers_stays hfinish hupdate (pendingOf_write_same h.held (h.queue hfinish hack hupdate))

theorem applyCreated_pending (h : applyCreated json state event = .ok state') :
    (∀ id, pendingOf state' id = pendingOf state id) ∧
      ∀ id a, aggregateOf state' id = some a → aggregateOf state id = some a ∨ a.delegateId = id := by
  obtain ⟨_, d, _, rfl⟩ := applyCreated_ok h
  refine ⟨fun id => ?_, fun id a ha => ?_⟩
  · unfold pendingOf
    rw [aggregateOf_append]
    cases aggregateOf state id with
    | some a => rfl
    | none => by_cases hid : event.delegateId = id <;> simp [hid, createdAggregate]
  · rcases aggregateOf_append_eq_some ha with hold | ⟨hid, rfl⟩
    · exact Or.inl hold
    · exact Or.inr hid.symm

theorem pendingDeliveries_clearAttention {condition : Prop} [Decidable condition] (a : Aggregate) :
    (if condition then { a with needsAttention := false } else a).pendingDeliveries =
      a.pendingDeliveries := by
  split <;> rfl

theorem applyEvent_delivers (hkeys : KeysNodup Prod.fst state) (hnamed : Named state)
    (h : applyEvent json state event = .ok state') : Delivers event state state' := by
  unfold applyEvent at h
  split at h
  · next hkind =>
    exact delivers_stays (by simp [hkind]) (by simp [hkind]) (applyCreated_pending h).1
  · next hkind =>
    exact (applyRunStarted_owned hkind h).stays (by simp [hkind]) (by simp [hkind]) (by simp [hkind])
  · next hkind =>
    exact (applyTerminalPrepared_owned hkind h).stays (by simp [hkind]) (by simp [hkind]) (by simp [hkind])
  · next hkind => exact applyRunFinished_delivers hnamed hkind h
  · next hkind =>
    unfold applyResumabilityClosed at h
    obtain ⟨a, ha, h⟩ := bind_eq_ok.mp h
    obtain ⟨payload, _, h⟩ := bind_eq_ok.mp h
    obtain ⟨_, _, h⟩ := bind_eq_ok.mp h
    obtain ⟨_, _, h⟩ := bind_eq_ok.mp h
    cases h
    refine delivers_stays (by simp [hkind]) (by simp [hkind]) fun id => ?_
    rw [pendingOf_rewrite]
    · refine pendingOf_write_same (requireAggregate_eq_ok.mp ha) ?_ id
      rfl
    · exact fun id b => pendingDeliveries_clearAttention b
  · next hkind =>
    obtain ⟨_, _, _, rfl⟩ := applySubtreeStopRequested_ok h
    refine delivers_stays (by simp [hkind]) (by simp [hkind]) fun id => ?_
    rw [pendingOf_rewrite]
    intro id b
    split <;> rfl
  · next hkind => exact applySubtreeStopCompleted_delivers hkeys hkind h
  · next hkind => exact applyDeliveryAcknowledged_delivers hkind h
  · next hkind =>
    exact (applyAttentionChanged_owned hkind h).stays (by simp [hkind]) (by simp [hkind])
      (by simp [hkind])
  · next hkind => exact applyUpdatePosted_delivers hkind h
  · next hkind =>
    exact (applyIntentStated_owned hkind h).stays (by simp [hkind]) (by simp [hkind])
      (by simp [hkind])
  · cases h

/-! ## One turn of the fold -/

theorem foldStep_delivers {entry : Event × Nat} (hkeys : KeysNodup Prod.fst state)
    (hnamed : Named state) (h : foldStep json state entry = .ok state') :
    Delivers entry.1 state state' := by
  obtain ⟨_, _, after, revision, hafter, rfl⟩ := foldStep_ok h
  refine (applyEvent_delivers hkeys hnamed hafter).congr fun id => ?_
  exact pendingOf_rewrite (f := fun id a => { a with projectionRevision := revision id a })
    (fun _ _ => rfl) after id

theorem Named.rewrite (h : Named state) {f : String → Aggregate → Aggregate}
    (hf : ∀ id a, aggregateOf state id = some a → Keeps a (f id a)) : Named (rewrite f state) := by
  intro id b hb
  rw [aggregateOf_rewrite] at hb
  obtain ⟨a, ha, rfl⟩ := map_eq_some_iff.mp hb
  exact (hf id a ha).delegateId.trans (h id a ha)

/-- An event that creates no delegate keeps every one under its id. -/
theorem Evolves.named (h : Evolves event state state') (hnamed : Named state)
    (hkind : event.kind ≠ .delegateCreated) : Named state' := by
  cases h with
  | created f a hcreated hquiet hnew hparent hlife => exact absurd hcreated hkind
  | moved f label hmoves => exact hnamed.rewrite hmoves.keeps

theorem foldStep_named {entry : Event × Nat} (hkeys : KeysNodup Prod.fst state)
    (hnamed : Named state) (h : foldStep json state entry = .ok state') : Named state' := by
  by_cases hkind : entry.1.kind = .delegateCreated
  · obtain ⟨_, _, after, revision, hafter, rfl⟩ := foldStep_ok h
    have hcreated : applyCreated json state entry.1 = .ok after := by
      unfold applyEvent at hafter
      rwa [hkind] at hafter
    have hafter : Named after := by
      intro id a ha
      exact ((applyCreated_pending hcreated).2 id a ha).elim (hnamed id a) fun hid => hid
    exact hafter.rewrite fun _ _ _ => ⟨rfl, rfl, rfl⟩
  · exact (foldStep_evolves hkeys h).2.named hnamed hkind

end Evener.Delegatestore
