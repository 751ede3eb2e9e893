/-
  What an accepted event writes: the aggregates that `touchedDelegates` lists and no others, never
  a revision, and a pending stop only when the event is about one.
-/
import Evener.Delegatestore.Invariant

namespace Evener.Delegatestore

open Evener.Lib Option

/-- What an accepted event leaves alone: the delegates it does not list, every revision, and every
    pending stop unless it is about one. -/
structure Writes (event : Event) (state state' : State) : Prop where
  frame : ∀ id, touchedDelegates state event id = false →
    aggregateOf state' id = aggregateOf state id
  held : ∀ id, touchedDelegates state event id = true → (aggregateOf state' id).isSome
  revision : ∀ id a a', aggregateOf state id = some a → aggregateOf state' id = some a' →
    a'.projectionRevision = a.projectionRevision
  stamp : event.kind ≠ .delegateSubtreeStopRequested → event.kind ≠ .delegateSubtreeStopCompleted →
    ∀ id a a', aggregateOf state id = some a → aggregateOf state' id = some a' →
      a'.pendingStopSeq = a.pendingStopSeq

/-- The kinds that reach their own delegate only. -/
def EventKind.local : EventKind → Bool
  | .delegateResumabilityClosed | .delegateSubtreeStopRequested | .delegateSubtreeStopCompleted =>
    false
  | _ => true

variable {state state' : State} {event : Event}

theorem touchedDelegates_local (h : event.kind.local = true) (id : String) :
    touchedDelegates state event id = decide (id = event.delegateId) := by
  unfold touchedDelegates
  split <;> simp_all [EventKind.local]

/-- A rewrite that leaves alone what it should. -/
theorem writes_rewrite {f : String → Aggregate → Aggregate}
    (hframe : ∀ id a, aggregateOf state id = some a → touchedDelegates state event id = false → f id a = a)
    (hheld : ∀ id, touchedDelegates state event id = true → (aggregateOf state id).isSome)
    (hrevision : ∀ id a, aggregateOf state id = some a → (f id a).projectionRevision = a.projectionRevision)
    (hstamp : event.kind ≠ .delegateSubtreeStopRequested →
      event.kind ≠ .delegateSubtreeStopCompleted → ∀ id a, aggregateOf state id = some a →
      (f id a).pendingStopSeq = a.pendingStopSeq) :
    Writes event state (rewrite f state) := by
  have hone : ∀ {id a a'}, aggregateOf state id = some a →
      aggregateOf (rewrite f state) id = some a' → a' = f id a := by
    intro id a a' ha ha'
    rw [aggregateOf_rewrite, ha] at ha'
    exact (some.inj ha').symm
  refine ⟨?_, ?_, ?_, ?_⟩
  · intro id hid
    rw [aggregateOf_rewrite]
    cases ha : aggregateOf state id with
    | none => rfl
    | some a => exact congrArg some (hframe id a ha hid)
  · intro id hid
    rw [aggregateOf_rewrite, isSome_map]
    exact hheld id hid
  · intro id a a' ha ha'
    rw [hone ha ha']
    exact hrevision id a ha
  · intro hrequest hcomplete id a a' ha ha'
    rw [hone ha ha']
    exact hstamp hrequest hcomplete id a ha

theorem writes_write {a a' : Aggregate} (hlocal : event.kind.local = true)
    (ha : aggregateOf state event.delegateId = some a)
    (hrevision : a'.projectionRevision = a.projectionRevision)
    (hstamp : a'.pendingStopSeq = a.pendingStopSeq) :
    Writes event state (writeAggregate state event.delegateId a') := by
  have hself : ∀ {id b}, aggregateOf state id = some b → id = event.delegateId → b = a := by
    intro id b hb hid
    rw [hid, ha] at hb
    exact (some.inj hb).symm
  refine writes_rewrite ?_ ?_ ?_ ?_
  · intro id b _ hid
    rw [touchedDelegates_local hlocal, decide_eq_false_iff_not] at hid
    exact if_neg hid
  · intro id hid
    rw [touchedDelegates_local hlocal, decide_eq_true_iff] at hid
    rw [hid, ha]
    rfl
  · intro id b hb
    split
    · next hid => rw [hself hb hid, hrevision]
    · rfl
  · intro _ _ id b hb
    split
    · next hid => rw [hself hb hid, hstamp]
    · rfl

theorem aggregateOf_put (state : State) (id : String) (a : Aggregate) (x : String) :
    aggregateOf (put Prod.fst (id, a) state) x = if id = x then some a else aggregateOf state x := by
  unfold aggregateOf
  rw [lookup_put]
  split <;> rfl

theorem applyCreated_writes {json : Json} (hkind : event.kind = .delegateCreated)
    (h : applyCreated json state event = .ok state') : Writes event state state' := by
  obtain ⟨hnone, d, _, rfl⟩ := applyCreated_ok h
  rw [← put_new hnone]
  generalize createdAggregate event (cloneDescriptor d) = a
  have hlocal : event.kind.local = true := by rw [hkind]; rfl
  have hsame : ∀ {x b b'}, aggregateOf state x = some b →
      aggregateOf (put Prod.fst (event.delegateId, a) state) x = some b' → b' = b := by
    intro x b b' hb hb'
    have hx : event.delegateId ≠ x := by
      intro hx
      rw [← hx, hnone] at hb
      cases hb
    rw [aggregateOf_put, if_neg hx, hb] at hb'
    exact (some.inj hb').symm
  refine ⟨?_, ?_, ?_, ?_⟩
  · intro id hid
    rw [touchedDelegates_local hlocal, decide_eq_false_iff_not] at hid
    rw [aggregateOf_put, if_neg (Ne.symm hid)]
  · intro id hid
    rw [touchedDelegates_local hlocal, decide_eq_true_iff] at hid
    rw [aggregateOf_put, if_pos hid.symm]
    rfl
  · intro id b b' hb hb'
    rw [hsame hb hb']
  · intro _ _ id b b' hb hb'
    rw [hsame hb hb']

theorem Owned.writes (h : Owned event state state') (hlocal : event.kind.local = true) :
    Writes event state state' := by
  obtain ⟨a, a', label, h⟩ := h
  rw [h.wrote]
  exact writes_write hlocal h.held h.revision h.stamp

/-- The climb reads the parents only. -/
theorem climbsTo_congr (target : String)
    (h : ∀ id, (aggregateOf state' id).map (·.descriptor.parentDelegateId) =
      (aggregateOf state id).map (·.descriptor.parentDelegateId))
    (fuel : Nat) (current : String) :
    climbsTo state' target fuel current = climbsTo state target fuel current := by
  induction fuel generalizing current with
  | zero => rfl
  | succ fuel ih =>
    have hparent := h current
    unfold climbsTo
    cases hold : aggregateOf state current with
    | none =>
      rw [hold] at hparent
      rw [Option.map_eq_none_iff.mp hparent]
    | some a =>
      rw [hold] at hparent
      obtain ⟨b, hnew, hsame⟩ := map_eq_some_iff.mp hparent
      simp only [hnew, hsame, ih]

theorem isDelegateOrDescendant_rewrite {f : String → Aggregate → Aggregate}
    (hkeeps : ∀ id a, aggregateOf state id = some a → Keeps a (f id a)) (id target : String) :
    isDelegateOrDescendant (rewrite f state) id target = isDelegateOrDescendant state id target := by
  have hlength : (rewrite f state).length = state.length := List.length_map _
  unfold isDelegateOrDescendant
  rw [hlength, climbsTo_congr target]
  intro x
  rw [aggregateOf_rewrite]
  cases ha : aggregateOf state x with
  | none => rfl
  | some a => simp [(hkeeps x a ha).descriptor]

theorem isDelegateOrDescendant_self (state : State) {id : String} (h : id ≠ "") :
    isDelegateOrDescendant state id id = true := by
  unfold isDelegateOrDescendant climbsTo
  rw [if_neg h, if_pos rfl]
  rfl

theorem applyResumabilityClosed_writes (hkind : event.kind = .delegateResumabilityClosed)
    (hid : event.delegateId ≠ "") (h : applyResumabilityClosed state event = .ok state') :
    Writes event state state' := by
  unfold applyResumabilityClosed at h
  obtain ⟨a, ha, h⟩ := bind_eq_ok.mp h
  obtain ⟨payload, _, h⟩ := bind_eq_ok.mp h
  obtain ⟨_, _, h⟩ := bind_eq_ok.mp h
  obtain ⟨_, _, h⟩ := bind_eq_ok.mp h
  cases h
  have ha := requireAggregate_eq_ok.mp ha
  have hself : ∀ {id b}, aggregateOf state id = some b → id = event.delegateId → b = a := by
    intro id b hb hid
    rw [hid, ha] at hb
    exact (some.inj hb).symm
  have htouched : ∀ {id}, touchedDelegates state event id =
      ((aggregateOf state id).isSome && isDelegateOrDescendant state id event.delegateId) := by
    intro id
    simp [touchedDelegates, hkind]
  have hclear : ∀ (condition : Bool) (b : Aggregate),
      (if condition then { b with needsAttention := false } else b).projectionRevision =
        b.projectionRevision ∧
      (if condition then { b with needsAttention := false } else b).pendingStopSeq =
        b.pendingStopSeq := by
    intro condition b
    cases condition <;> exact ⟨rfl, rfl⟩
  unfold writeAggregate
  rw [rewrite_rewrite]
  refine writes_rewrite ?_ ?_ ?_ ?_
  · intro id b hb houtside
    rw [htouched, hb] at houtside
    have houtside : isDelegateOrDescendant state id event.delegateId = false := houtside
    have hother : id ≠ event.delegateId := by
      intro heq
      rw [heq, isDelegateOrDescendant_self state hid] at houtside
      cases houtside
    rw [isDelegateOrDescendant_rewrite, houtside]
    · simp [hother]
    · intro x c hc
      split
      · next hx =>
        rw [hself hc hx]
        exact ⟨rfl, rfl, rfl⟩
      · exact Keeps.refl c
  · intro id hin
    rw [htouched, Bool.and_eq_true] at hin
    exact hin.1
  · intro id b hb
    rw [(hclear _ _).1]
    split
    · next hx => rw [hself hb hx]
    · rfl
  · intro _ _ id b hb
    rw [(hclear _ _).2]
    split
    · next hx => rw [hself hb hx]
    · rfl

theorem applySubtreeStopRequested_writes (hkind : event.kind = .delegateSubtreeStopRequested)
    (h : applySubtreeStopRequested state event = .ok state') : Writes event state state' := by
  obtain ⟨_, _, _, rfl⟩ := applySubtreeStopRequested_ok h
  have htouched : ∀ {id}, touchedDelegates state event id =
      ((aggregateOf state id).isSome && isDelegateOrDescendant state id event.delegateId) := by
    intro id
    simp [touchedDelegates, hkind]
  refine writes_rewrite ?_ ?_ ?_ ?_
  · intro id b hb houtside
    rw [htouched, hb] at houtside
    have houtside : isDelegateOrDescendant state id event.delegateId = false := houtside
    simp [houtside]
  · intro id hin
    rw [htouched, Bool.and_eq_true] at hin
    exact hin.1
  · intro id b _
    split <;> rfl
  · exact fun hrequest => absurd hkind hrequest

theorem applySubtreeStopCompleted_writes (hkind : event.kind = .delegateSubtreeStopCompleted)
    (h : applySubtreeStopCompleted state event = .ok state') : Writes event state state' := by
  obtain ⟨payload, covered, _, _, _, _, _, rfl⟩ := applySubtreeStopCompleted_ok h
  have htouched : ∀ {id}, touchedDelegates state event id = (aggregateOf state id).isSome := by
    intro id
    simp [touchedDelegates, hkind]
  refine writes_rewrite ?_ ?_ ?_ ?_
  · intro id b hb houtside
    rw [htouched, hb] at houtside
    cases houtside
  · intro id hin
    rwa [htouched] at hin
  · intro id b _
    split <;> rfl
  · exact fun _ hcomplete => absurd hkind hcomplete

theorem applyEvent_writes {json : Json} (hid : event.delegateId ≠ "")
    (h : applyEvent json state event = .ok state') : Writes event state state' := by
  unfold applyEvent at h
  split at h
  · next hkind => exact applyCreated_writes hkind h
  · next hkind => exact (applyRunStarted_owned hkind h).writes (by rw [hkind]; rfl)
  · next hkind => exact (applyTerminalPrepared_owned hkind h).writes (by rw [hkind]; rfl)
  · next hkind => exact (applyRunFinished_owned hkind h).writes (by rw [hkind]; rfl)
  · next hkind => exact applyResumabilityClosed_writes hkind hid h
  · next hkind => exact applySubtreeStopRequested_writes hkind h
  · next hkind => exact applySubtreeStopCompleted_writes hkind h
  · next hkind => exact (applyDeliveryAcknowledged_owned hkind h).writes (by rw [hkind]; rfl)
  · next hkind => exact (applyAttentionChanged_owned hkind h).writes (by rw [hkind]; rfl)
  · next hkind => exact (applyUpdatePosted_owned hkind h).writes (by rw [hkind]; rfl)
  · next hkind => exact (applyIntentStated_owned hkind h).writes (by rw [hkind]; rfl)
  · cases h

end Evener.Delegatestore
