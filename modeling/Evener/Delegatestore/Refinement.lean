/-
  The fold of the journal takes every delegate through the moves of `Life.Step`: an accepted event
  either creates one delegate or moves the lives of those it reaches, and never touches what a
  delegate was created with.
-/
import Evener.Delegatestore.Fold
import Evener.Delegatestore.Lifecycle
import Evener.Lib.CheckedFold

namespace Evener.Delegatestore

open Evener.Lib
open List hiding lookup

/-! ## Accepted checks -/

theorem failIf_eq_ok {condition : Prop} [Decidable condition] {format : String}
    {args : List String} {u : Unit} : failIf condition format args = .ok u ↔ ¬ condition := by
  unfold failIf fail
  split <;> simp_all

theorem wrapping_eq_ok {α : Type} {format : String} {args : List String} {x : Except Failure α}
    {a : α} : wrapping format args x = .ok a ↔ x = .ok a := by
  cases x <;> simp [wrapping]

theorem deref_eq_ok {α : Type} {payload : Option α} {a : α} :
    deref payload = .ok a ↔ payload = some a := by
  cases payload <;> simp [deref, fail]

variable {a a' : Aggregate} {state state' : State} {id : String} {generation : Nat} {event : Event}
  {json : Json} {packet : Option TerminalPacket} {payload : RunFinished} {entry : Event × Nat}

theorem requireAggregate_eq_ok :
    requireAggregate state id = .ok a ↔ aggregateOf state id = some a := by
  unfold requireAggregate
  cases aggregateOf state id <;> simp

theorem requireExactOpenRun_ok (h : requireExactOpenRun state id generation = .ok a) :
    aggregateOf state id = some a ∧ generation = a.generation ∧ a.currentRunOpen = true := by
  unfold requireExactOpenRun at h
  obtain ⟨b, hb, h⟩ := bind_eq_ok.mp h
  obtain ⟨_, hgeneration, h⟩ := bind_eq_ok.mp h
  obtain ⟨_, hopen, h⟩ := bind_eq_ok.mp h
  cases h
  refine ⟨(requireAggregate_eq_ok).mp hb, ?_, ?_⟩
  · simpa using (failIf_eq_ok).mp hgeneration
  · simpa using (failIf_eq_ok).mp hopen

/-! ## Aggregates after a rewrite -/

theorem aggregateOf_rewrite (f : String → Aggregate → Aggregate) (state : State) (id : String) :
    aggregateOf (rewrite f state) id = (aggregateOf state id).map (f id) := by
  unfold aggregateOf rewrite lookup
  rw [find?_map]
  show Option.map Prod.snd (Option.map _ (List.find? (fun entry => decide (entry.1 = id)) state)) = _
  cases h : List.find? (fun entry : String × Aggregate => decide (entry.1 = id)) state with
  | none => rfl
  | some entry =>
    have hid : entry.1 = id := by simpa using find?_some h
    simp [hid]

theorem aggregateOf_append (state : State) (entry : String × Aggregate) (id : String) :
    aggregateOf (state ++ [entry]) id =
      (aggregateOf state id <|> if entry.1 = id then some entry.2 else none) := by
  unfold aggregateOf lookup
  rw [find?_append]
  cases List.find? (fun entry : String × Aggregate => decide (entry.1 = id)) state with
  | some found => rfl
  | none => by_cases h : entry.1 = id <;> simp [h]

theorem put_new (h : aggregateOf state id = none) (a : Aggregate) :
    put Prod.fst (id, a) state = state ++ [(id, a)] := by
  have habsent : lookup Prod.fst id state = none := by simpa [aggregateOf] using h
  exact put_eq_append fun entry hentry => lookup_eq_none.mp habsent entry hentry

theorem mem_of_aggregateOf (h : aggregateOf state id = some a) : (id, a) ∈ state := by
  obtain ⟨entry, hentry, rfl⟩ := Option.map_eq_some_iff.mp h
  have hkey := key_of_lookup hentry
  rw [← hkey]
  exact mem_of_lookup hentry

theorem aggregateOf_of_mem (hkeys : KeysNodup Prod.fst state) (h : (id, a) ∈ state) :
    aggregateOf state id = some a := by
  unfold aggregateOf
  rw [(lookup_eq_some hkeys).mpr ⟨h, rfl⟩]
  rfl

theorem rewrite_rewrite (f g : String → Aggregate → Aggregate) (state : State) :
    rewrite g (rewrite f state) = rewrite (fun id a => g id (f id a)) state := by
  simp [rewrite, map_map, Function.comp_def]

theorem rewrite_append (f : String → Aggregate → Aggregate) (state state' : State) :
    rewrite f (state ++ state') = rewrite f state ++ rewrite f state' :=
  map_append

/-! ## What an event does to a state -/

/-- What a delegate is created with. -/
structure Keeps (a a' : Aggregate) : Prop where
  createdAt : a'.createdAt = a.createdAt
  delegateId : a'.delegateId = a.delegateId
  descriptor : a'.descriptor = a.descriptor

theorem Keeps.refl (a : Aggregate) : Keeps a a := ⟨rfl, rfl, rfl⟩

theorem Keeps.trans {b c : Aggregate} (h : Keeps a b) (h' : Keeps b c) : Keeps a c :=
  ⟨h'.createdAt.trans h.createdAt, h'.delegateId.trans h.delegateId,
    h'.descriptor.trans h.descriptor⟩

/-- Only data outside the lifecycle is rewritten. -/
structure Quiet (a a' : Aggregate) : Prop where
  keeps : Keeps a a'
  life : a'.life = a.life

theorem Quiet.refl (a : Aggregate) : Quiet a a := ⟨Keeps.refl a, rfl⟩

theorem Quiet.trans {b c : Aggregate} (h : Quiet a b) (h' : Quiet b c) : Quiet a c :=
  ⟨h.keeps.trans h'.keeps, h'.life.trans h.life⟩

/-- The revision stays as well. -/
structure Calm (a a' : Aggregate) : Prop extends Quiet a a' where
  revision : a'.projectionRevision = a.projectionRevision

/-- The event starts generation `generation` of `id`. -/
def startsRun (id : String) (generation : Nat) (event : Event) : Bool :=
  event.kind = .delegateRunStarted && event.delegateId = id &&
    event.runStarted.any fun payload => payload.generation = generation

def finishesRun (id : String) (generation : Nat) (event : Event) : Bool :=
  event.kind = .delegateRunFinished && event.delegateId = id &&
    event.runFinished.any fun payload => payload.generation = generation

/-- The moves of an event on the delegates of a state. -/
structure Moves (event : Event) (state : State) (f : String → Aggregate → Aggregate)
    (label : String → Life.Label) : Prop where
  keeps : ∀ id a, aggregateOf state id = some a → Keeps a (f id a)
  step : ∀ id a, aggregateOf state id = some a → Life.Step (label id) a.life (f id a).life
  starts : ∀ id generation, startsRun id generation event = true →
    (aggregateOf state id).isSome ∧ label id = .start generation
  finishes : ∀ id generation, finishesRun id generation event = true →
    (aggregateOf state id).isSome ∧ label id = .finish generation
  stops : ∀ id seq, label id = .stop seq →
    seq = event.seq ∧ ∀ id' a, aggregateOf state id' = some a → a.pendingStopSeq = 0

inductive Evolves (event : Event) (state : State) : State → Prop where
  | created (f : String → Aggregate → Aggregate) (a : Aggregate)
      (hkind : event.kind = .delegateCreated)
      (hquiet : ∀ id a, aggregateOf state id = some a → Quiet a (f id a))
      (hnew : aggregateOf state event.delegateId = none)
      (hparent : a.descriptor.parentDelegateId = "" ∨
        (aggregateOf state a.descriptor.parentDelegateId).isSome)
      (hlife : a.life = Life.initial a.resumable) :
      Evolves event state (rewrite f state ++ [(event.delegateId, a)])
  | moved (f : String → Aggregate → Aggregate) (label : String → Life.Label)
      (hmoves : Moves event state f label) : Evolves event state (rewrite f state)

/-- A later rewrite outside the lifecycle changes nothing of it. -/
theorem Evolves.rewrite_quiet (h : Evolves event state state') {g : String → Aggregate → Aggregate}
    (hg : ∀ id a, Quiet a (g id a)) : Evolves event state (rewrite g state') := by
  cases h with
  | created f a hkind hquiet hnew hparent hlife =>
    rw [rewrite_append, rewrite_rewrite]
    have hga := hg event.delegateId a
    refine Evolves.created _ (g event.delegateId a) hkind
      (fun id b hb => (hquiet id b hb).trans (hg id _)) hnew ?_ ?_
    · rw [hga.keeps.descriptor]
      exact hparent
    · have hresumable : (g event.delegateId a).resumable = a.resumable :=
        congrArg Life.resumable hga.life
      rw [hga.life, hresumable]
      exact hlife
  | moved f label hmoves =>
    rw [rewrite_rewrite]
    refine Evolves.moved _ label { hmoves with keeps := ?_, step := ?_ }
    · intro id a ha
      exact (hmoves.keeps id a ha).trans (hg id _).keeps
    · intro id a ha
      rw [(hg id _).life]
      exact hmoves.step id a ha

/-- A kind that neither starts nor finishes a run. -/
theorem not_startsRun (h : event.kind ≠ .delegateRunStarted) (id : String) (generation : Nat) :
    startsRun id generation event = false := by
  simp [startsRun, h]

theorem not_finishesRun (h : event.kind ≠ .delegateRunFinished) (id : String) (generation : Nat) :
    finishesRun id generation event = false := by
  simp [finishesRun, h]

/-- The event writes its own delegate only, moving its life by `label`. -/
theorem evolves_write {label : Life.Label} (ha : aggregateOf state event.delegateId = some a)
    (hkeeps : Keeps a a') (hstep : Life.Step label a.life a'.life)
    (hstarts : ∀ generation, startsRun event.delegateId generation event = true → label = .start generation)
    (hfinishes : ∀ generation, finishesRun event.delegateId generation event = true → label = .finish generation)
    (hstops : ∀ seq, label ≠ .stop seq) :
    Evolves event state (writeAggregate state event.delegateId a') := by
  refine Evolves.moved _ (fun id => if id = event.delegateId then label else .quiet)
    ⟨?_, ?_, ?_, ?_, ?_⟩
  · intro id b hb
    by_cases hid : id = event.delegateId
    · subst hid
      rw [ha] at hb
      cases hb
      simpa using hkeeps
    · simpa [hid] using Keeps.refl b
  · intro id b hb
    by_cases hid : id = event.delegateId
    · subst hid
      rw [ha] at hb
      cases hb
      simpa using hstep
    · simpa [hid] using Life.Step.quiet (l := b.life)
  · intro id generation hstart
    have hid : event.delegateId = id := by
      simp [startsRun] at hstart
      exact hstart.1.2
    subst hid
    exact ⟨by simp [ha], by simpa using hstarts generation hstart⟩
  · intro id generation hfinish
    have hid : event.delegateId = id := by
      simp [finishesRun] at hfinish
      exact hfinish.1.2
    subst hid
    exact ⟨by simp [ha], by simpa using hfinishes generation hfinish⟩
  · intro id seq hlabel
    split at hlabel
    · exact absurd hlabel (hstops seq)
    · cases hlabel

/-- What an accepted event does that writes its own delegate only. -/
structure Own (event : Event) (state state' : State) (a a' : Aggregate) (label : Life.Label) :
    Prop where
  held : aggregateOf state event.delegateId = some a
  wrote : state' = writeAggregate state event.delegateId a'
  keeps : Keeps a a'
  step : Life.Step label a.life a'.life
  revision : a'.projectionRevision = a.projectionRevision
  stamp : a'.pendingStopSeq = a.pendingStopSeq
  queue : event.kind ≠ .delegateRunFinished → event.kind ≠ .delegateDeliveryAcknowledged →
    event.kind ≠ .delegateUpdatePosted → a'.pendingDeliveries = a.pendingDeliveries
  starts : ∀ generation, startsRun event.delegateId generation event = true →
    label = .start generation
  finishes : ∀ generation, finishesRun event.delegateId generation event = true →
    label = .finish generation
  stops : ∀ seq, label ≠ .stop seq

def Owned (event : Event) (state state' : State) : Prop :=
  ∃ a a' label, Own event state state' a a' label

theorem Owned.evolves (h : Owned event state state') : Evolves event state state' := by
  obtain ⟨a, a', label, h⟩ := h
  rw [h.wrote]
  exact evolves_write h.held h.keeps h.step h.starts h.finishes h.stops

/-- The event writes its own delegate, and nothing of its life. -/
theorem owned_calm (ha : aggregateOf state event.delegateId = some a) (hcalm : Calm a a')
    (hqueue : event.kind ≠ .delegateDeliveryAcknowledged → event.kind ≠ .delegateUpdatePosted →
      a'.pendingDeliveries = a.pendingDeliveries)
    (hstart : event.kind ≠ .delegateRunStarted) (hfinish : event.kind ≠ .delegateRunFinished) :
    Owned event state (writeAggregate state event.delegateId a') := by
  have hstep : Life.Step .quiet a.life a'.life := by
    rw [hcalm.life]
    exact Life.Step.quiet
  refine ⟨a, a', .quiet, ha, rfl, hcalm.keeps, hstep, hcalm.revision,
    congrArg Life.stopSeq hcalm.life, fun _ => hqueue, ?_, ?_, fun seq h => nomatch h⟩
  · intro generation h
    rw [not_startsRun hstart] at h
    cases h
  · intro generation h
    rw [not_finishesRun hfinish] at h
    cases h

/-! ## The kinds of event -/

/-- The aggregate a delegate is created with. -/
def createdAggregate (event : Event) (descriptor : Descriptor) : Aggregate :=
  { createdAt := event.ts
    delegateId := event.delegateId
    descriptor := descriptor
    phase := if descriptor.resumable then .idle else .closed
    resumable := descriptor.resumable }

theorem applyCreated_ok (h : applyCreated json state event = .ok state') :
    aggregateOf state event.delegateId = none ∧ ∃ d,
      ((cloneDescriptor d).parentDelegateId = "" ∨
        (aggregateOf state (cloneDescriptor d).parentDelegateId).isSome) ∧
      state' = state ++ [(event.delegateId, createdAggregate event (cloneDescriptor d))] := by
  unfold applyCreated at h
  obtain ⟨payload, _, h⟩ := bind_eq_ok.mp h
  split at h
  · cases h
  · next hheld =>
    obtain ⟨_, _, h⟩ := bind_eq_ok.mp h
    split at h
    · cases h
    · next hparent =>
      cases h
      have hnew : aggregateOf state event.delegateId = none := by simpa using hheld
      refine ⟨hnew, payload.descriptor, ?_, put_new hnew _⟩
      rw [Option.isSome_iff_ne_none]
      exact or_iff_not_imp_left.mpr fun hroot hnone => hparent ⟨hroot, hnone⟩

theorem applyCreated_evolves (hkind : event.kind = .delegateCreated)
    (h : applyCreated json state event = .ok state') : Evolves event state state' := by
  obtain ⟨hnew, d, hparent, rfl⟩ := applyCreated_ok h
  have hid : state = rewrite (fun _ a => a) state := by simp [rewrite]
  rw [show state ++ _ = rewrite (fun _ a => a) state ++ _ from congrArg (· ++ _) hid]
  exact Evolves.created _ _ hkind (fun _ a _ => Quiet.refl a) hnew hparent rfl

theorem applyRunStarted_owned (hkind : event.kind = .delegateRunStarted)
    (h : applyRunStarted state event = .ok state') : Owned event state state' := by
  unfold applyRunStarted at h
  obtain ⟨a, ha, h⟩ := bind_eq_ok.mp h
  obtain ⟨payload, hpayload, h⟩ := bind_eq_ok.mp h
  obtain ⟨_, hgeneration, h⟩ := bind_eq_ok.mp h
  obtain ⟨_, hphase, h⟩ := bind_eq_ok.mp h
  obtain ⟨_, _, h⟩ := bind_eq_ok.mp h
  obtain ⟨_, _, h⟩ := bind_eq_ok.mp h
  obtain ⟨_, _, h⟩ := bind_eq_ok.mp h
  obtain ⟨_, _, h⟩ := bind_eq_ok.mp h
  cases h
  have hidle : a.phase = .idle := by simpa using failIf_eq_ok.mp hphase
  have hnext : payload.generation = a.generation + 1 := by simpa using failIf_eq_ok.mp hgeneration
  have hstep := Life.Step.start (l := a.life) hidle
  rw [show a.life.generation + 1 = payload.generation from hnext.symm] at hstep
  refine ⟨a, _, _, requireAggregate_eq_ok.mp ha, rfl, ⟨rfl, rfl, rfl⟩, hstep, rfl, rfl,
    fun _ _ _ => rfl, ?_, ?_, fun seq h => nomatch h⟩
  · intro generation hstart
    simp [startsRun, hkind, deref_eq_ok.mp hpayload] at hstart
    rw [hstart]
  · intro generation hfinish
    simp [finishesRun, hkind] at hfinish

theorem applyTerminalPrepared_owned (hkind : event.kind = .delegateTerminalPrepared)
    (h : applyTerminalPrepared json state event = .ok state') : Owned event state state' := by
  unfold applyTerminalPrepared at h
  obtain ⟨payload, _, h⟩ := bind_eq_ok.mp h
  obtain ⟨a, ha, h⟩ := bind_eq_ok.mp h
  obtain ⟨_, hphase, h⟩ := bind_eq_ok.mp h
  obtain ⟨_, _, h⟩ := bind_eq_ok.mp h
  cases h
  obtain ⟨ha, _, hopen⟩ := requireExactOpenRun_ok ha
  have hrunning : a.phase = .running := by simpa using failIf_eq_ok.mp hphase
  refine ⟨a, _, _, ha, rfl, ⟨rfl, rfl, rfl⟩, Life.Step.prepare (l := a.life) hopen hrunning, rfl,
    rfl, fun _ _ _ => rfl, ?_, ?_, fun seq h => nomatch h⟩
  · intro generation hstart
    simp [startsRun, hkind] at hstart
  · intro generation hfinish
    simp [finishesRun, hkind] at hfinish

theorem queueDelivery_calm {deliveryId : String} {packet : TerminalPacket}
    (h : queueDelivery a deliveryId generation packet = .ok a') : Calm a a' := by
  unfold queueDelivery at h
  obtain ⟨_, _, h⟩ := bind_eq_ok.mp h
  cases h
  exact ⟨⟨⟨rfl, rfl, rfl⟩, rfl⟩, rfl⟩

theorem appendDelivery_calm {deliveryId : String}
    (h : appendDelivery a deliveryId generation packet = .ok a') : Calm a a' := by
  unfold appendDelivery at h
  split at h
  · cases h
  · obtain ⟨_, _, h⟩ := bind_eq_ok.mp h
    obtain ⟨_, _, h⟩ := bind_eq_ok.mp h
    exact queueDelivery_calm h

theorem finishStopping_calm {packet' : Option TerminalPacket}
    (h : finishStopping json state event a payload packet = .ok (a', packet')) : Calm a a' := by
  unfold finishStopping at h
  obtain ⟨_, _, h⟩ := bind_eq_ok.mp h
  split at h
  · cases h
    exact ⟨⟨⟨rfl, rfl, rfl⟩, rfl⟩, rfl⟩
  · obtain ⟨_, _, h⟩ := bind_eq_ok.mp h
    obtain ⟨b, hb, h⟩ := bind_eq_ok.mp h
    cases h
    have hqueued := appendDelivery_calm hb
    exact ⟨⟨⟨hqueued.keeps.createdAt, hqueued.keeps.delegateId, hqueued.keeps.descriptor⟩,
      hqueued.life⟩, hqueued.revision⟩

theorem deliverFinish_calm (h : deliverFinish a payload packet = .ok a') : Calm a a' := by
  unfold deliverFinish at h
  split at h
  · exact appendDelivery_calm h
  · cases h
    exact ⟨Quiet.refl a, rfl⟩

theorem restAggregate_keeps (a : Aggregate) : Keeps a (restAggregate a) := by
  unfold restAggregate
  split <;> exact ⟨rfl, rfl, rfl⟩

theorem restAggregate_life (a : Aggregate) : (restAggregate a).life =
    { a.life with
      prepared := false
      phase := Life.restPhase a.resumable } := by
  unfold restAggregate Life.restPhase
  split <;> rfl

/-- A finish outside a stop: the delegate rests, with nothing prepared. -/
theorem finishSettled_spec {packet' : Option TerminalPacket}
    (h : finishSettled json a payload packet = .ok (a', packet')) :
    Keeps a a' ∧ a'.projectionRevision = a.projectionRevision ∧ a'.life =
      { a.life with
        prepared := false
        phase := Life.restPhase a.resumable } := by
  unfold finishSettled at h
  obtain ⟨_, _, h⟩ := bind_eq_ok.mp h
  obtain ⟨b, hb, h⟩ := bind_eq_ok.mp h
  cases h
  have hqueued := deliverFinish_calm hb
  have hkeeps : Keeps a b :=
    ⟨hqueued.keeps.createdAt, hqueued.keeps.delegateId, hqueued.keeps.descriptor⟩
  have hlife : b.life = a.life := hqueued.life
  have hresumable : b.resumable = a.resumable := congrArg Life.resumable hlife
  have hrevision : (restAggregate b).projectionRevision = b.projectionRevision := by
    unfold restAggregate
    split <;> rfl
  refine ⟨hkeeps.trans (restAggregate_keeps b), hrevision.trans hqueued.revision, ?_⟩
  rw [restAggregate_life, hlife, hresumable]

theorem applyRunFinished_owned (hkind : event.kind = .delegateRunFinished)
    (h : applyRunFinished json state event = .ok state') : Owned event state state' := by
  unfold applyRunFinished at h
  obtain ⟨payload, hpayload, h⟩ := bind_eq_ok.mp h
  obtain ⟨a, ha, h⟩ := bind_eq_ok.mp h
  obtain ⟨_, hphase, h⟩ := bind_eq_ok.mp h
  obtain ⟨_, _, h⟩ := bind_eq_ok.mp h
  obtain ⟨_, _, h⟩ := bind_eq_ok.mp h
  obtain ⟨_, _, h⟩ := bind_eq_ok.mp h
  obtain ⟨_, _, h⟩ := bind_eq_ok.mp h
  obtain ⟨finished, hfinished, h⟩ := bind_eq_ok.mp h
  obtain ⟨b, packet⟩ := finished
  cases h
  obtain ⟨ha, hgeneration, hopen⟩ := requireExactOpenRun_ok ha
  have hpayload := deref_eq_ok.mp hpayload
  have hphase := failIf_eq_ok.mp hphase
  have hends : Keeps a b ∧ Life.Step (.finish a.generation) a.life { b.life with runOpen := false } ∧
      b.projectionRevision = a.projectionRevision ∧ b.life.stopSeq = a.life.stopSeq := by
    unfold finishRun at hfinished
    dsimp only at hfinished
    split at hfinished
    · next hstopping =>
      have hcalm := finishStopping_calm hfinished
      rw [hcalm.life]
      exact ⟨hcalm.keeps, Life.Step.finishStopping (l := a.life) hopen hstopping, hcalm.revision,
        rfl⟩
    · next hstopping =>
      obtain ⟨hkeeps, hrevision, hlife⟩ := finishSettled_spec hfinished
      have hworking : a.phase = .running ∨ a.phase = .settling := by
        by_contra hnot
        rw [not_or] at hnot
        exact hphase ⟨hnot.1, hnot.2, hstopping⟩
      rw [hlife]
      exact ⟨hkeeps, Life.Step.finish (l := a.life) hopen hworking, hrevision, rfl⟩
  obtain ⟨hkeeps, hstep, hrevision, hstamp⟩ := hends
  refine ⟨a, _, _, ha, rfl, ⟨hkeeps.createdAt, hkeeps.delegateId, hkeeps.descriptor⟩, hstep,
    hrevision, hstamp, fun hfinish => absurd hkind hfinish, ?_, ?_, fun seq h => nomatch h⟩
  · intro generation hstart
    simp [startsRun, hkind] at hstart
  · intro generation hfinish
    simp [finishesRun, hkind, hpayload] at hfinish
    rw [← hfinish, hgeneration]

theorem quiet_clearAttention {condition : Prop} [Decidable condition] (a : Aggregate) :
    Quiet a (if condition then { a with needsAttention := false } else a) := by
  split
  · exact ⟨⟨rfl, rfl, rfl⟩, rfl⟩
  · exact Quiet.refl a

theorem applyResumabilityClosed_evolves (hkind : event.kind = .delegateResumabilityClosed)
    (h : applyResumabilityClosed state event = .ok state') : Evolves event state state' := by
  unfold applyResumabilityClosed at h
  obtain ⟨a, ha, h⟩ := bind_eq_ok.mp h
  obtain ⟨payload, _, h⟩ := bind_eq_ok.mp h
  obtain ⟨_, _, h⟩ := bind_eq_ok.mp h
  obtain ⟨_, hresumable, h⟩ := bind_eq_ok.mp h
  cases h
  have hopen : a.resumable = true := by simpa using failIf_eq_ok.mp hresumable
  refine Evolves.rewrite_quiet ?_ fun id b => quiet_clearAttention b
  refine evolves_write (requireAggregate_eq_ok.mp ha) ⟨rfl, rfl, rfl⟩
    (Life.Step.close (l := a.life) hopen) ?_ ?_ (fun seq h => nomatch h)
  · intro generation hstart
    simp [startsRun, hkind] at hstart
  · intro generation hfinish
    simp [finishesRun, hkind] at hfinish

theorem applySubtreeStopRequested_ok (h : applySubtreeStopRequested state event = .ok state') :
    event.seq ≠ 0 ∧
      (∃ payload, event.subtreeStopRequested = some payload ∧
        payload.targetDelegateId = event.delegateId) ∧
      (∀ id a, aggregateOf state id = some a → a.pendingStopSeq = 0) ∧
      state' = rewrite (fun id a =>
        if isDelegateOrDescendant state id event.delegateId then stopAggregate event a else a)
        state := by
  unfold applySubtreeStopRequested at h
  obtain ⟨_, hseq, h⟩ := bind_eq_ok.mp h
  obtain ⟨payload, hpayload, h⟩ := bind_eq_ok.mp h
  obtain ⟨_, htarget, h⟩ := bind_eq_ok.mp h
  obtain ⟨_, _, h⟩ := bind_eq_ok.mp h
  have htarget : payload.targetDelegateId = event.delegateId := not_not.mp (failIf_eq_ok.mp htarget)
  rw [htarget] at h
  split at h
  · cases h
  · next hnone =>
    cases h
    refine ⟨failIf_eq_ok.mp hseq, ⟨payload, deref_eq_ok.mp hpayload, htarget⟩, fun id a ha => ?_, rfl⟩
    simpa using find?_eq_none.mp hnone _ (mem_of_aggregateOf ha)

theorem applySubtreeStopRequested_evolves (hkind : event.kind = .delegateSubtreeStopRequested)
    (h : applySubtreeStopRequested state event = .ok state') : Evolves event state state' := by
  obtain ⟨hseq, _, hfree, rfl⟩ := applySubtreeStopRequested_ok h
  refine Evolves.moved _ (fun id =>
    if isDelegateOrDescendant state id event.delegateId then .stop event.seq else .quiet)
    ⟨?_, ?_, ?_, ?_, ?_⟩
  · intro id a _
    split
    · exact ⟨rfl, rfl, rfl⟩
    · exact Keeps.refl a
  · intro id a _
    split
    · exact Life.Step.stop (l := a.life) event.seq hseq
    · exact Life.Step.quiet
  · intro id generation hstart
    simp [startsRun, hkind] at hstart
  · intro id generation hfinish
    simp [finishesRun, hkind] at hfinish
  · intro id seq hlabel
    split at hlabel
    · cases hlabel
      exact ⟨rfl, hfree⟩
    · cases hlabel

/-- The delegate belongs to the pending stop `seq`. -/
def Stamped (seq : Nat) (state : State) (id : String) : Prop :=
  ∃ a, aggregateOf state id = some a ∧ a.pendingStopSeq = seq

/-- A completion takes the deliveries to the delegates it covers out of every queue. -/
def dropCovered (covered : List String) (a : Aggregate) : Aggregate :=
  { a with pendingDeliveries :=
      a.pendingDeliveries.filter fun delivery => delivery.ownerDelegateId ∉ covered }

theorem applySubtreeStopCompleted_ok (h : applySubtreeStopCompleted state event = .ok state') :
    ∃ payload covered, event.subtreeStopCompleted = some payload ∧ payload.requestSeq ≠ 0 ∧
      Stamped payload.requestSeq state event.delegateId ∧
      (KeysNodup Prod.fst state → ∀ id, id ∈ covered ↔ Stamped payload.requestSeq state id) ∧
      (∀ id a, aggregateOf state id = some a → a.pendingStopSeq = payload.requestSeq →
        a.currentRunOpen = false) ∧
      state' = rewrite (fun id a =>
        if id ∈ covered then releaseAggregate (dropCovered covered a) else dropCovered covered a)
        state := by
  unfold applySubtreeStopCompleted at h
  obtain ⟨payload, hpayload, h⟩ := bind_eq_ok.mp h
  obtain ⟨_, hzero, h⟩ := bind_eq_ok.mp h
  obtain ⟨target, htarget, h⟩ := bind_eq_ok.mp h
  obtain ⟨_, hmatch, h⟩ := bind_eq_ok.mp h
  dsimp only at h
  split at h
  · cases h
  next hnone =>
  obtain ⟨_, _, h⟩ := bind_eq_ok.mp h
  cases h
  have hmember : ∀ {id a}, aggregateOf state id = some a → a.pendingStopSeq = payload.requestSeq →
      (id, a) ∈ state.filter fun entry => decide (entry.2.pendingStopSeq = payload.requestSeq) :=
    fun ha hstamp => mem_filter.mpr ⟨mem_of_aggregateOf ha, by simpa using hstamp⟩
  refine ⟨payload, (state.filter fun entry =>
      decide (entry.2.pendingStopSeq = payload.requestSeq)).map Prod.fst, deref_eq_ok.mp hpayload,
    failIf_eq_ok.mp hzero,
    ⟨target, requireAggregate_eq_ok.mp htarget, not_not.mp (failIf_eq_ok.mp hmatch)⟩,
    fun hkeys id => ⟨fun hid => ?_, ?_⟩, fun id a ha hstamp => ?_, rewrite_rewrite ..⟩
  · obtain ⟨entry, hentry, rfl⟩ := mem_map.mp hid
    obtain ⟨hmem, hstamp⟩ := mem_filter.mp hentry
    exact ⟨entry.2, aggregateOf_of_mem hkeys hmem, by simpa using hstamp⟩
  · rintro ⟨a, ha, hstamp⟩
    exact mem_map.mpr ⟨(id, a), hmember ha hstamp, rfl⟩
  · simpa using find?_eq_none.mp hnone _ (hmember ha hstamp)

theorem applySubtreeStopCompleted_evolves (hkeys : KeysNodup Prod.fst state)
    (hkind : event.kind = .delegateSubtreeStopCompleted)
    (h : applySubtreeStopCompleted state event = .ok state') : Evolves event state state' := by
  obtain ⟨payload, covered, _, _, _, hcovered, hclosed, rfl⟩ := applySubtreeStopCompleted_ok h
  refine Evolves.moved _ (fun id => if id ∈ covered then .release else .quiet)
    ⟨?_, ?_, ?_, ?_, ?_⟩
  · intro id a _
    split <;> exact ⟨rfl, rfl, rfl⟩
  · intro id a ha
    split
    · next hid =>
      obtain ⟨b, hb, hstamp⟩ := (hcovered hkeys id).mp hid
      rw [ha] at hb
      cases hb
      exact Life.Step.release (l := a.life) (hclosed id a ha hstamp)
    · exact Life.Step.quiet
  · intro id generation hstart
    simp [startsRun, hkind] at hstart
  · intro id generation hfinish
    simp [finishesRun, hkind] at hfinish
  · intro id seq hlabel
    split at hlabel <;> cases hlabel

theorem applyDeliveryAcknowledged_owned (hkind : event.kind = .delegateDeliveryAcknowledged)
    (h : applyDeliveryAcknowledged state event = .ok state') : Owned event state state' := by
  unfold applyDeliveryAcknowledged at h
  obtain ⟨a, ha, h⟩ := bind_eq_ok.mp h
  obtain ⟨payload, _, h⟩ := bind_eq_ok.mp h
  obtain ⟨_, _, h⟩ := bind_eq_ok.mp h
  obtain ⟨_, _, h⟩ := bind_eq_ok.mp h
  cases h
  exact owned_calm (requireAggregate_eq_ok.mp ha) ⟨⟨⟨rfl, rfl, rfl⟩, rfl⟩, rfl⟩
    (fun hack => absurd hkind hack) (by simp [hkind]) (by simp [hkind])

theorem applyAttentionChanged_owned (hkind : event.kind = .delegateAttentionChanged)
    (h : applyAttentionChanged state event = .ok state') : Owned event state state' := by
  unfold applyAttentionChanged at h
  obtain ⟨a, ha, h⟩ := bind_eq_ok.mp h
  obtain ⟨payload, _, h⟩ := bind_eq_ok.mp h
  cases h
  exact owned_calm (requireAggregate_eq_ok.mp ha) ⟨⟨⟨rfl, rfl, rfl⟩, rfl⟩, rfl⟩ (fun _ _ => rfl)
    (by simp [hkind]) (by simp [hkind])

theorem applyUpdatePosted_owned (hkind : event.kind = .delegateUpdatePosted)
    (h : applyUpdatePosted json state event = .ok state') : Owned event state state' := by
  unfold applyUpdatePosted at h
  obtain ⟨payload, _, h⟩ := bind_eq_ok.mp h
  obtain ⟨_, _, h⟩ := bind_eq_ok.mp h
  obtain ⟨a, ha, h⟩ := bind_eq_ok.mp h
  obtain ⟨_, _, h⟩ := bind_eq_ok.mp h
  obtain ⟨_, _, h⟩ := bind_eq_ok.mp h
  obtain ⟨b, hb, h⟩ := bind_eq_ok.mp h
  cases h
  exact owned_calm (requireExactOpenRun_ok ha).1 (queueDelivery_calm hb)
    (fun _ hupdate => absurd hkind hupdate) (by simp [hkind]) (by simp [hkind])

theorem applyIntentStated_owned (hkind : event.kind = .delegateIntentStated)
    (h : applyIntentStated state event = .ok state') : Owned event state state' := by
  unfold applyIntentStated at h
  obtain ⟨payload, _, h⟩ := bind_eq_ok.mp h
  obtain ⟨a, ha, h⟩ := bind_eq_ok.mp h
  obtain ⟨_, _, h⟩ := bind_eq_ok.mp h
  cases h
  exact owned_calm (requireExactOpenRun_ok ha).1 ⟨⟨⟨rfl, rfl, rfl⟩, rfl⟩, rfl⟩ (fun _ _ => rfl)
    (by simp [hkind]) (by simp [hkind])

/-! ## One turn of the fold -/

theorem applyEvent_evolves (hkeys : KeysNodup Prod.fst state)
    (h : applyEvent json state event = .ok state') : Evolves event state state' := by
  unfold applyEvent at h
  split at h
  · next hkind => exact applyCreated_evolves hkind h
  · next hkind => exact (applyRunStarted_owned hkind h).evolves
  · next hkind => exact (applyTerminalPrepared_owned hkind h).evolves
  · next hkind => exact (applyRunFinished_owned hkind h).evolves
  · next hkind => exact applyResumabilityClosed_evolves hkind h
  · next hkind => exact applySubtreeStopRequested_evolves hkind h
  · next hkind => exact applySubtreeStopCompleted_evolves hkeys hkind h
  · next hkind => exact (applyDeliveryAcknowledged_owned hkind h).evolves
  · next hkind => exact (applyAttentionChanged_owned hkind h).evolves
  · next hkind => exact (applyUpdatePosted_owned hkind h).evolves
  · next hkind => exact (applyIntentStated_owned hkind h).evolves
  · cases h

theorem foldStep_eq_ok :
    foldStep json state entry = .ok state' ↔
      entry.1.seq = entry.2 + 1 ∧ validateEventEnvelope entry.1 = .ok () ∧
        applyWithProjectionRevisions json state entry.1 = .ok state' := by
  unfold foldStep
  rw [bind_eq_ok]
  constructor
  · rintro ⟨_, hseq, h⟩
    obtain ⟨_, henvelope, h⟩ := bind_eq_ok.mp h
    exact ⟨by simpa using failIf_eq_ok.mp hseq, wrapping_eq_ok.mp henvelope, wrapping_eq_ok.mp h⟩
  · rintro ⟨hseq, henvelope, h⟩
    refine ⟨(), failIf_eq_ok.mpr (not_not.mpr hseq), bind_eq_ok.mpr ⟨(), ?_, ?_⟩⟩
    · exact wrapping_eq_ok.mpr henvelope
    · exact wrapping_eq_ok.mpr h

theorem envelope_delegateId (h : validateEventEnvelope event = .ok ()) : event.delegateId ≠ "" := by
  unfold validateEventEnvelope at h
  obtain ⟨_, hid, _⟩ := bind_eq_ok.mp h
  exact failIf_eq_ok.mp hid

/-- The revisions a turn of the fold writes. -/
def withRevisions (revision : String → Aggregate → Nat) (state : State) : State :=
  rewrite (fun id a => { a with projectionRevision := revision id a }) state

/-- The revision a turn leaves a delegate at. -/
def turnRevision (state : State) (event : Event) (id : String) (a : Aggregate) : Nat :=
  if touchedDelegates state event id then
    match aggregateOf state id with
    | none => 1
    | some previous =>
      if publicProjection previous ≠ publicProjection a then a.projectionRevision + 1
      else a.projectionRevision
  else a.projectionRevision

/-- The revisions of a turn, over the state its event gives. -/
theorem foldStep_ok (h : foldStep json state entry = .ok state') :
    entry.1.seq = entry.2 + 1 ∧ entry.1.delegateId ≠ "" ∧
      ∃ (after : State) (revision : String → Aggregate → Nat),
        applyEvent json state entry.1 = .ok after ∧
        state' = withRevisions revision after := by
  obtain ⟨hseq, henvelope, h⟩ := foldStep_eq_ok.mp h
  unfold applyWithProjectionRevisions at h
  obtain ⟨after, hafter, h⟩ := bind_eq_ok.mp h
  cases h
  refine ⟨hseq, envelope_delegateId henvelope, after, turnRevision state entry.1, hafter, ?_⟩
  unfold withRevisions turnRevision
  congr 1
  funext id a
  cases touchedDelegates state entry.1 id with
  | false => rfl
  | true =>
    cases aggregateOf state id with
    | none => rfl
    | some previous =>
      by_cases hshown : publicProjection previous ≠ publicProjection a
      · simp only [if_true, if_pos hshown]
      · simp only [if_true, if_neg hshown]

theorem foldStep_evolves (hkeys : KeysNodup Prod.fst state)
    (h : foldStep json state entry = .ok state') :
    entry.1.seq = entry.2 + 1 ∧ Evolves entry.1 state state' := by
  obtain ⟨hseq, _, after, revision, hafter, rfl⟩ := foldStep_ok h
  -- a revision is not part of a lifecycle
  exact ⟨hseq, (applyEvent_evolves hkeys hafter).rewrite_quiet fun _ _ => ⟨⟨rfl, rfl, rfl⟩, rfl⟩⟩

end Evener.Delegatestore
