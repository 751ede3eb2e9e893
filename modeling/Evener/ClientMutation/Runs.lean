/-
  Runs of the daemon keep every input in its one place.

  `WorldInv` carries the invariant through memory and file, and ties the history to the journal.
  One step keeps it (`step_advances`), and with it every run.
-/
import Evener.ClientMutation.Effects
import Mathlib.Data.List.Nodup

namespace Evener.ClientMutation

open Evener.Lib List Option

/-- The executions the finalization of a Stop visits, when the event is one. -/
def Event.visited : Event → List String
  | .update _ sample _ | .recoverInterrupt sample _ | .complete _ _ sample _ => sample.order
  | _ => []

variable {w w' : World} {s s' next : Snapshot} {id : String} {cfg : Config}
  {commits : List Commit} {visited : List String} {released : Prop}

/-! ## The history -/

def Commit.preparedID : Commit → Option String
  | .prepare id => some id
  | .effect _ _ => none

def Commit.effectedID : Commit → Option String
  | .prepare _ => none
  | .effect id _ => some id

theorem Commit.preparedID_eq_some {c : Commit} : c.preparedID = some id ↔ c = .prepare id := by
  cases c <;> simp [Commit.preparedID]

theorem Commit.effectedID_eq_some {c : Commit} :
    c.effectedID = some id ↔ ∃ input, c = .effect id input := by
  cases c <;> simp [Commit.effectedID, eq_comm]

variable {history : List Commit} {r : Record} {accepted : String → Option Input} {save : Save}

theorem acceptedInput_of_not_mem (h : ∀ input, .effect id input ∉ history) :
    acceptedInput history id = none := by
  unfold acceptedInput
  rw [findSome?_eq_none_iff]
  intro c hc
  cases c with
  | prepare id' => rfl
  | effect id' input =>
    have hne : id' ≠ id := by
      rintro rfl
      exact h input hc
    simp [hne]

theorem acceptedInput_append_of_ne {id' : String} {input : Input} (h : id ≠ id') :
    acceptedInput (history ++ [.effect id' input]) id = acceptedInput history id := by
  simp [acceptedInput, findSome?_append, Ne.symm h]

theorem acceptedInput_append_self {input : Input} (h : ∀ input, .effect id input ∉ history) :
    acceptedInput (history ++ [.effect id input]) id = some input := by
  have hnone := acceptedInput_of_not_mem h
  unfold acceptedInput at hnone ⊢
  rw [findSome?_append, hnone]
  simp

theorem acceptedInput_append_prepare {id' : String} :
    acceptedInput (history ++ [.prepare id']) = acceptedInput history := by
  funext id
  simp [acceptedInput, findSome?_append]

/-! ## The invariant of a run -/

structure WorldInv (w : World) : Prop where
  file : Inv (acceptedInput w.history) w.file
  store : Inv (acceptedInput w.history) w.store
  /-- Memory is the file, but for what a load makes of the slot and the turn sequence. -/
  loaded : w.store = { w.file with
    activeTurnID := w.store.activeTurnID, nextTurnSequence := w.store.nextTurnSequence }
  prepared : ∀ {id}, .prepare id ∈ w.history → w.store.record? id ≠ none
  effected : ∀ {id input}, .effect id input ∈ w.history →
    ∃ r, w.store.record? id = some r ∧ r.operationState ≠ .inFlight
  preparedOnce : (w.history.filterMap Commit.preparedID).Nodup
  effectedOnce : (w.history.filterMap Commit.effectedID).Nodup

theorem worldInv_empty : WorldInv {} where
  file := inv_empty _
  store := inv_empty _
  loaded := rfl
  prepared h := by simp at h
  effected h := by simp at h
  preparedOnce := nodup_nil
  effectedOnce := nodup_nil

namespace WorldInv

/-- An id in flight has had no effect. -/
theorem not_effected (h : WorldInv w) (hr : w.store.record? id = some r)
    (hflight : r.operationState = .inFlight) (input : Input) : .effect id input ∉ w.history := by
  intro hmem
  obtain ⟨r', hr', hne⟩ := h.effected hmem
  rw [hr] at hr'
  exact hne (some.inj hr' ▸ hflight)

/-- Only the snapshots and the history matter. -/
theorem congr (h : WorldInv w) (hfile : w'.file = w.file) (hstore : w'.store = w.store)
    (hhistory : w'.history = w.history) : WorldInv w' := by
  refine ⟨?_, ?_, ?_, ?_, ?_, ?_, ?_⟩
  · rw [hfile, hhistory]
    exact h.file
  · rw [hstore, hhistory]
    exact h.store
  · rw [hstore, hfile]
    exact h.loaded
  · rw [hstore, hhistory]
    exact h.prepared
  · rw [hstore, hhistory]
    exact h.effected
  · rw [hhistory]
    exact h.preparedOnce
  · rw [hhistory]
    exact h.effectedOnce

/-- A commit that prepares only an absent id and takes effect only on one in flight. -/
theorem commit (h : WorldInv w) (hinv : Inv (acceptedInput (w.history ++ commits)) next)
    (hevolves : w.store.Evolves next) (honce : commits.length ≤ 1)
    (hprepare : ∀ {id}, .prepare id ∈ commits →
      w.store.record? id = none ∧ next.record? id ≠ none)
    (heffect : ∀ {id input}, .effect id input ∈ commits →
      (∃ r, w.store.record? id = some r ∧ r.operationState = .inFlight) ∧
        ∃ r', next.record? id = some r' ∧ r'.operationState ≠ .inFlight) :
    WorldInv (w.commit next commits) := by
  -- a name of the new commit is not one of the history
  have hnodup : ∀ {f : Commit → Option String}, (w.history.filterMap f).Nodup →
      (∀ c ∈ commits, ∀ a, f c = some a → ∀ c' ∈ w.history, f c' ≠ some a) →
      ((w.history ++ commits).filterMap f).Nodup := by
    intro f hold hnew
    rw [filterMap_append, nodup_append]
    refine ⟨hold, ?_, ?_⟩
    · have hle := (length_filterMap_le f commits).trans honce
      match hl : commits.filterMap f, hle with
      | [], _ => exact nodup_nil
      | [a], _ => exact nodup_singleton a
    · intro a ha b hb hab
      obtain ⟨c', hc', hfa⟩ := mem_filterMap.mp ha
      obtain ⟨c, hc, hfb⟩ := mem_filterMap.mp hb
      exact hnew c hc b hfb c' hc' (hab ▸ hfa)
  refine ⟨hinv, hinv, rfl, ?_, ?_, ?_, ?_⟩
  · intro id hid
    rcases mem_append.mp hid with hid | hid
    · obtain ⟨r, hr⟩ := Option.ne_none_iff_exists'.mp (h.prepared hid)
      obtain ⟨r', hr', _⟩ := hevolves id r hr
      exact Option.ne_none_iff_exists'.mpr ⟨r', hr'⟩
    · exact (hprepare hid).2
  · intro id input hid
    rcases mem_append.mp hid with hid | hid
    · obtain ⟨r, hr, hne⟩ := h.effected hid
      obtain ⟨r', hr', he⟩ := hevolves id r hr
      exact ⟨r', hr', he.settled hne⟩
    · exact (heffect hid).2
  · refine hnodup h.preparedOnce ?_
    intro c hc a ha c' hc' ha'
    rw [Commit.preparedID_eq_some] at ha ha'
    exact h.prepared (ha' ▸ hc') (hprepare (ha ▸ hc)).1
  · refine hnodup h.effectedOnce ?_
    intro c hc a ha c' hc' ha'
    obtain ⟨input, rfl⟩ := Commit.effectedID_eq_some.mp ha
    obtain ⟨input', rfl⟩ := Commit.effectedID_eq_some.mp ha'
    obtain ⟨⟨r, hr, hflight⟩, _⟩ := heffect hc
    exact h.not_effected hr hflight input' hc'

end WorldInv

/-! ## What a step does to the wait a Stop started -/

/-- An id whose fate is decided. -/
def Snapshot.Settled (s : Snapshot) (id : String) : Prop :=
  ∃ r, s.record? id = some r ∧ r.operationState ≠ .inFlight

/-- The start `id`, which was not journaled, has its turn. -/
def StartReserved (id : String) (s s' : Snapshot) : Prop :=
  ∃ r', s.record? id = none ∧ s'.record? id = some r' ∧ r'.method = .start ∧ r'.stableTurnID ≠ ""

/-- A start, queued input, a drain or a promotion is applied. -/
def InputApplied (s s' : Snapshot) : Prop :=
  ∃ id r', ¬s.Settled id ∧ s'.record? id = some r' ∧ r'.operationState = .applied ∧
    (r'.method = .start ∨ r'.method = .queue ∨ r'.method = .drain ∨ r'.method = .promote)

/-- What ends the wait a Stop started, in the request `id`: the user asks for a run again. -/
def Released (id : String) (s s' : Snapshot) : Prop := StartReserved id s s' ∨ InputApplied s s'

theorem Snapshot.Evolves.settled (h : s.Evolves s') (hid : s.Settled id) : s'.Settled id := by
  obtain ⟨r, hr, hne⟩ := hid
  obtain ⟨r', hr', he⟩ := h id r hr
  exact ⟨r', hr', he.settled hne⟩

theorem StartReserved.evolves (h : StartReserved id s s') (he : s'.Evolves next) :
    StartReserved id s next := by
  obtain ⟨r, hnew, hr, hmethod, hturn⟩ := h
  obtain ⟨r', hr', hevolves⟩ := he id r hr
  exact ⟨r', hnew, hr', hevolves.method.trans hmethod, by rw [hevolves.turn hturn]; exact hturn⟩

theorem InputApplied.after (h : InputApplied s' next) (he : s.Evolves s') : InputApplied s next := by
  obtain ⟨id, r, hopen, hrest⟩ := h
  exact ⟨id, r, fun hsettled => hopen (he.settled hsettled), hrest⟩

/-- A fence is kept, or taken down with its turn cleared among the `visited` executions; it is
    never replaced. The holds of a Stop stay, unless `released`: that of the queue as it is, that
    of the steering for every steer that was there. -/
structure Waits (visited : List String) (released : Prop) (s s' : Snapshot) : Prop where
  fence : ∀ {f}, s.interruptFence = some f → s'.interruptFence = some f ∨
    (s'.interruptFence = none ∧ s'.activeTurnID = "" ∧ Cleared visited f s s')
  queueHeld : s.queueHeld = true → s'.queueHeld = true ∨ released
  order : ∀ {id}, id ∈ s'.steeringOrder → s.Settled id → id ∈ s.steeringOrder
  steeringHeld : ∀ {id}, s.steeringHeld = true → id ∈ s'.steeringOrder → s.Settled id →
    s'.steeringHeld = true ∨ released

theorem Waits.imp {p q : Prop} (h : Waits visited p s s') (himp : p → q) : Waits visited q s s' where
  fence := h.fence
  queueHeld hs := (h.queueHeld hs).imp_right himp
  order := h.order
  steeringHeld hs hid hsettled := (h.steeringHeld hs hid hsettled).imp_right himp

theorem Waits.trans {p q : Prop} (h : Waits visited p s s') (he : s.Evolves s') (h' : Waits visited q s' next)
    (hfence : next.interruptFence = s.interruptFence) : Waits visited (p ∨ q) s next where
  fence hf := Or.inl (hfence.trans hf)
  queueHeld hs := by
    rcases h.queueHeld hs with hs' | hp
    · exact (h'.queueHeld hs').imp_right Or.inr
    · exact Or.inr (Or.inl hp)
  order hid hsettled := h.order (h'.order hid (he.settled hsettled)) hsettled
  steeringHeld hs hid hsettled := by
    have hmid := h'.order hid (he.settled hsettled)
    rcases h.steeringHeld hs hmid hsettled with hs' | hp
    · exact (h'.steeringHeld hs' hid (he.settled hsettled)).imp_right Or.inr
    · exact Or.inr (Or.inl hp)

theorem Kept.waits (h : Kept accepted s s') :
    Waits visited False s s' where
  fence hf := Or.inl (h.fence.trans hf)
  queueHeld hs := Or.inl (h.queueHeld.trans hs)
  order hid _ := h.order hid
  steeringHeld hs hid _ := by
    rcases h.parked hs with hs' | hempty
    · exact Or.inl hs'
    · simp [hempty] at hid

theorem Ended.waits (h : Ended accepted visited s s') :
    Waits visited False s s' where
  fence hf := Or.inr ⟨h.fence, h.slot, h.cleared hf⟩
  queueHeld hs := Or.inl (h.queueHeld.trans hs)
  order hid _ := h.order hid
  steeringHeld hs hid _ := by
    rcases h.parked hs with hs' | hempty
    · exact Or.inl hs'
    · simp [hempty] at hid

/-! ## What a step does -/

structure Advances (visited : List String) (released : Prop) (w w' : World) : Prop where
  inv : WorldInv w'
  evolves : w.store.Evolves w'.store
  waits : Waits visited released w.store w'.store

namespace Advances

theorem of_store (h : WorldInv w) (hfile : w'.file = w.file) (hstore : w'.store = w.store)
    (hhistory : w'.history = w.history) : Advances visited released w w' where
  inv := h.congr hfile hstore hhistory
  evolves := .of_journal (by rw [hstore])
  waits := by
    rw [hstore]
    exact (Kept.refl h.store).waits.imp False.elim

theorem refl (h : WorldInv w) : Advances visited released w w := of_store h rfl rfl rfl

/-- Only the snapshots and the history of the world reached matter. -/
theorem congr {w'' : World} (h : Advances visited released w w') (hfile : w''.file = w'.file)
    (hstore : w''.store = w'.store) (hhistory : w''.history = w'.history) :
    Advances visited released w w'' where
  inv := h.inv.congr hfile hstore hhistory
  evolves := hstore ▸ h.evolves
  waits := hstore ▸ h.waits

/-- Another world may stand for the one left, with the same journal, executions, fence, holds and
    steering. -/
theorem before {w₀ : World} (h : Advances visited released w w')
    (hjournal : w.store.journal = w₀.store.journal)
    (hpending : w.store.pendingExecutions = w₀.store.pendingExecutions)
    (hfence : w.store.interruptFence = w₀.store.interruptFence)
    (hqueue : w.store.queueHeld = w₀.store.queueHeld)
    (hsteering : w.store.steeringHeld = w₀.store.steeringHeld)
    (horder : w.store.steeringOrder = w₀.store.steeringOrder) : Advances visited released w₀ w' := by
  have hrecord : ∀ id, w.store.record? id = w₀.store.record? id := by
    intro id
    rw [Snapshot.record?, Snapshot.record?, hjournal]
  have hsettled : ∀ {id}, w₀.store.Settled id → w.store.Settled id := by
    intro id hid
    unfold Snapshot.Settled
    rw [hrecord]
    exact hid
  refine ⟨h.inv, fun id r hr => h.evolves id r (hrecord id ▸ hr), ?_, ?_, ?_, ?_⟩
  · intro f hf
    refine (h.waits.fence (hfence.trans hf)).imp_right fun hended => ⟨hended.1, hended.2.1, ?_⟩
    intro id p hp hout hturn
    have hleft := hended.2.2 hp hout hturn
    rw [Snapshot.pending?, hpending] at hleft
    exact hleft
  · intro hs
    exact h.waits.queueHeld (hqueue.trans hs)
  · intro id hid hset
    exact horder ▸ h.waits.order hid (hsettled hset)
  · intro id hs hid hset
    exact h.waits.steeringHeld (hsteering.trans hs) hid (hsettled hset)

end Advances

/-- A commit of a transition that touches no history. -/
theorem WorldInv.advance_kept (h : WorldInv w)
    (hkept : Kept (acceptedInput w.history) w.store next) :
    Advances visited released w (w.commit next []) where
  inv := h.commit (by rw [append_nil]; exact hkept.inv) hkept.evolves (by simp)
    (fun hc => by simp at hc) fun hc => by simp at hc
  evolves := hkept.evolves
  waits := hkept.waits.imp False.elim

/-- The commit of the end of a Stop, which is the interrupt's one effect. -/
theorem WorldInv.advance_ended {f : InterruptFence} (h : WorldInv w)
    (hfence : w.store.interruptFence = some f)
    (hended : Ended (acceptedInput w.history) visited w.store next) :
    Advances visited released w (w.commit next [.effect f.clientMutationID []]) := by
  obtain ⟨r, hr, hflight, _⟩ := h.store.fence hfence
  obtain ⟨r', hr', hterminal⟩ := hended.stopped hfence
  refine ⟨?_, hended.evolves, hended.waits.imp False.elim⟩
  refine h.commit ?_ hended.evolves (by simp) (fun hc => by simp at hc) ?_
  · refine hended.inv.congr fun {id r₀} hr₀ happlied => acceptedInput_append_of_ne ?_
    rintro rfl
    obtain rfl : r' = r₀ := some.inj (hr'.symm.trans hr₀)
    simp [hterminal] at happlied
  · intro id input hc
    simp only [mem_singleton, Commit.effect.injEq] at hc
    obtain ⟨rfl, rfl⟩ := hc
    exact ⟨⟨r, hr, hflight⟩, r', hr', by simp [hterminal]⟩

theorem World.mutate_advances {f : Snapshot → Option Snapshot} {save : Save} (h : WorldInv w)
    (hf : ∀ {next}, f w.store = some next → Kept (acceptedInput w.history) w.store next ∨
      (w.store.interruptFence.isSome ∧ Ended (acceptedInput w.history) visited w.store next)) :
    Advances visited released w (w.mutate save f).1 := by
  unfold World.mutate
  split
  · exact .refl h
  · next next hnext =>
    split
    · show Advances visited released w (w.commit next (World.stopEffect w.store next))
      rcases hf hnext with hkept | ⟨hfence, hended⟩
      · have hnone : World.stopEffect w.store next = [] := by
          unfold World.stopEffect
          rw [hkept.fence]
          cases w.store.interruptFence <;> rfl
        rw [hnone]
        exact h.advance_kept hkept
      · obtain ⟨f, hf⟩ := isSome_iff_exists.mp hfence
        rw [World.stopEffect, hf, hended.fence]
        exact h.advance_ended hf hended
    · exact .refl h

theorem World.claim_advances {f : Snapshot → Option (Snapshot × Option QueuedInput)}
    (h : WorldInv w)
    (hf : ∀ {next queued}, f w.store = some (next, queued) → Kept (acceptedInput w.history) w.store next) :
    Advances visited released w (w.claim save f).1 := by
  unfold World.claim
  split
  · exact .refl h
  · next next queued hnext =>
    split
    · exact h.advance_kept (hf hnext)
    · exact .refl h

/-! ## Requests -/

/-- A preparation leaves the fence, and releases the holds only with the turn of a start. -/
theorem prepareMethod_holds {recoveredTurnID : String} {params : Params} {method : InputMethod}
    {r' : Record} (hmethod : r.method = method.method)
    (hprepare : prepareMethod cfg recoveredTurnID params method s r = (s', r')) :
    s'.interruptFence = s.interruptFence ∧
      (s'.queueHeld = s.queueHeld ∧ s'.steeringHeld = s.steeringHeld ∨
        r'.method = .start ∧ r'.stableTurnID ≠ "") := by
  cases method <;>
    simp only [prepareMethod, prepareStart, prepareQueue, prepareSteer, prepareDrain, preparePromote,
      prepareCancel, reserveClientMutationTurnID] at hprepare <;>
    (repeat' split at hprepare) <;>
    obtain ⟨rfl, rfl⟩ := Prod.mk.inj hprepare
  case start.isFalse.isFalse.isFalse =>
    exact ⟨rfl, Or.inr ⟨hmethod, clientMutationTurnID_ne_empty _⟩⟩
  all_goals exact ⟨rfl, Or.inl ⟨rfl, rfl⟩⟩

theorem acceptClientMutationPrepare_holds {recoveredTurnID : String} {request : InputRequest}
    {r' : Record} (hmethod : r.method = request.method.method)
    (hprepare : acceptClientMutationPrepare cfg recoveredTurnID request s r = (s', r')) :
    s'.interruptFence = s.interruptFence ∧
      (s'.queueHeld = s.queueHeld ∧ s'.steeringHeld = s.steeringHeld ∨
        r'.method = .start ∧ r'.stableTurnID ≠ "") := by
  unfold acceptClientMutationPrepare at hprepare
  split at hprepare
  · obtain ⟨rfl, rfl⟩ := Prod.mk.inj hprepare
    exact ⟨rfl, Or.inl ⟨rfl, rfl⟩⟩
  · have hholds := prepareMethod_holds hmethod (Prod.mk.eta.symm :
      prepareMethod cfg recoveredTurnID request.params request.method s r = _)
    dsimp only at hprepare
    split at hprepare <;> obtain ⟨rfl, rfl⟩ := Prod.mk.inj hprepare <;> exact hholds

/-- The reservation of an unseen request. -/
theorem WorldInv.reserve (h : WorldInv w) {request : InputRequest} {s' : Snapshot} {r' : Record}
    (hnew : w.store.record? request.params.clientMutationID = none)
    (hprepare : acceptClientMutationPrepare cfg w.recoveredTurnID request w.store
      (World.freshRecord request) = (s', r')) :
    Advances visited (StartReserved request.params.clientMutationID w.store
        (s'.putRecord (World.nextAttempt r'))) w (w.commit (s'.putRecord (World.nextAttempt r'))
      [.prepare request.params.clientMutationID]) ∧
      (s'.putRecord (World.nextAttempt r')).record? request.params.clientMutationID =
        some (World.nextAttempt r') ∧
      s'.interruptFence = w.store.interruptFence ∧ r'.method = request.method.method := by
  have hfresh : (World.freshRecord request).Fresh := ⟨rfl, rfl, rfl⟩
  have hadmits : Admits w.store s' (World.freshRecord request) r' := by
    rw [show s' = _ from (congrArg Prod.fst hprepare).symm,
      show r' = _ from (congrArg Prod.snd hprepare).symm]
    exact acceptClientMutationPrepare_admits hfresh rfl h.store.queue_ids_nodup
  obtain ⟨hfence, hholds⟩ := acceptClientMutationPrepare_holds rfl hprepare
  obtain ⟨hinv, hevolves⟩ := h.store.admission hnew hadmits rfl (Or.inl hfence)
  have hkey : (World.nextAttempt r').clientMutationID = request.params.clientMutationID :=
    hadmits.key
  have hlook : (s'.putRecord (World.nextAttempt r')).record? request.params.clientMutationID =
      some (World.nextAttempt r') := by
    rw [s'.record?_putRecord, if_pos hkey]
  have hwaits : Waits visited (StartReserved request.params.clientMutationID w.store
      (s'.putRecord (World.nextAttempt r'))) w.store (s'.putRecord (World.nextAttempt r')) := by
    have horder : (s'.putRecord (World.nextAttempt r')).steeringOrder = w.store.steeringOrder :=
      hadmits.order
    refine ⟨fun hf => Or.inl (hfence.trans hf), ?_, fun hid _ => horder ▸ hid, ?_⟩
    · intro hs
      rcases hholds with ⟨hq, _⟩ | ⟨hm, ht⟩
      · exact Or.inl (hq.trans hs)
      · exact Or.inr ⟨_, hnew, hlook, hm, ht⟩
    · intro id hs _ _
      rcases hholds with ⟨_, hq⟩ | ⟨hm, ht⟩
      · exact Or.inl (hq.trans hs)
      · exact Or.inr ⟨_, hnew, hlook, hm, ht⟩
  refine ⟨⟨?_, hevolves, hwaits⟩, hlook, hfence, hadmits.method⟩
  refine h.commit ?_ hevolves (by simp) ?_ (fun hc => by simp at hc)
  · rw [acceptedInput_append_prepare]
    exact hinv
  · intro id hc
    simp only [mem_singleton, Commit.prepare.injEq] at hc
    subst hc
    exact ⟨hnew, by rw [hlook]; simp⟩

theorem World.applyEffect_advances {request : InputRequest} {r : Record} {save : Save}
    (h : WorldInv w) (hr : w.store.record? request.params.clientMutationID = some r)
    (hflight : r.operationState = .inFlight) (hmethod : r.method = request.method.method) :
    Advances visited (InputApplied w.store (w.applyEffect request cfg save).1.store) w
        (w.applyEffect request cfg save).1 ∧
      (w.applyEffect request cfg save).1.store.interruptFence = w.store.interruptFence := by
  unfold World.applyEffect
  rw [hr]
  dsimp only
  split
  · exact ⟨.refl h, rfl⟩
  · next s' r' heffect =>
    split
    · have hkey := w.store.key_of_record? hr
      have hopen : ∀ input, .effect request.params.clientMutationID input ∉ w.history :=
        h.not_effected hr hflight
      have happlies : Applies (acceptedInput (w.history ++
          [.effect request.params.clientMutationID request.params.input])) w.store r s' r' :=
        effectMethod_applies (fun hj => acceptedInput_append_of_ne (hkey ▸ hj)) h.store
          ⟨hkey ▸ hr, hflight⟩ hmethod
          (by rw [hkey]; exact acceptedInput_append_self hopen) heffect
      have hlook : (s'.putRecord r').record? request.params.clientMutationID = some r' := by
        rw [s'.record?_putRecord, if_pos (happlies.key.trans hkey)]
      have hunsettled : ¬w.store.Settled request.params.clientMutationID := by
        rintro ⟨r₀, hr₀, hne⟩
        rw [hr] at hr₀
        exact hne (some.inj hr₀ ▸ hflight)
      have hrelease : r'.operationState = .applied ∧
          (r.method = .queue ∨ r.method = .drain ∨ r.method = .promote) →
          InputApplied w.store (s'.putRecord r') := by
        rintro ⟨hstate, hm⟩
        obtain ⟨r₀, hr₀, he⟩ := happlies.evolves _ _ hr
        obtain rfl : r' = r₀ := some.inj (hlook.symm.trans hr₀)
        exact ⟨_, r', hunsettled, hlook, hstate, Or.inr (he.method ▸ hm)⟩
      have hwaits : Waits visited (InputApplied w.store (s'.putRecord r')) w.store (s'.putRecord r') := by
        refine ⟨fun hf => Or.inl (happlies.fence.trans hf), ?_, ?_, ?_⟩
        · intro hs
          rcases happlies.holds with ⟨hq, _⟩ | hm
          · exact Or.inl (hq.trans hs)
          · exact Or.inr (hrelease hm)
        · intro id hid hsettled
          rcases happlies.order id hid with hold | rfl
          · exact hold
          · exact absurd (hkey ▸ hsettled) hunsettled
        · intro id hs _ _
          rcases happlies.holds with ⟨_, hq⟩ | hm
          · exact Or.inl (hq.trans hs)
          · exact Or.inr (hrelease hm)
      refine ⟨⟨?_, happlies.evolves, hwaits⟩, happlies.fence⟩
      refine h.commit happlies.inv happlies.evolves (by simp) (fun hc => by simp at hc) ?_
      intro id input hc
      simp only [mem_singleton, Commit.effect.injEq] at hc
      obtain ⟨rfl, rfl⟩ := hc
      exact ⟨⟨r, hr, hflight⟩, r', hlook, happlies.settled⟩
    · exact ⟨.refl h, rfl⟩

/-- The effect follows its reservation. -/
theorem Advances.applyEffect {request : InputRequest} {r : Record} {save : Save}
    (h : Advances visited (StartReserved id w.store w'.store) w w')
    (hsame : w'.store.interruptFence = w.store.interruptFence)
    (hr : w'.store.record? request.params.clientMutationID = some r)
    (hflight : r.operationState = .inFlight) (hmethod : r.method = request.method.method) :
    Advances visited (Released id w.store (w'.applyEffect request cfg save).1.store) w
      (w'.applyEffect request cfg save).1 := by
  obtain ⟨hadvances, hfence⟩ :=
    @World.applyEffect_advances _ cfg visited _ _ save h.inv hr hflight hmethod
  refine ⟨hadvances.inv, h.evolves.trans hadvances.evolves, ?_⟩
  refine (h.waits.trans h.evolves hadvances.waits (hfence.trans hsame)).imp ?_
  rintro (hreserved | happlied)
  · exact Or.inl (hreserved.evolves hadvances.evolves)
  · exact Or.inr (happlied.after h.evolves)

theorem World.executeAtomic_advances {request : InputRequest} {attempt : World.Attempt}
    (h : WorldInv w) :
    Advances visited (Released request.params.clientMutationID w.store
      (w.executeAtomic cfg request attempt).1.store) w (w.executeAtomic cfg request attempt).1 := by
  unfold World.executeAtomic
  dsimp only
  split
  · exact .refl h
  · split
    · next r hr =>
      split
      · exact .refl h
      · next hsame =>
        simp only [not_or, not_not] at hsame
        split
        · exact .refl h
        · next hflight =>
          rw [not_not] at hflight
          split
          · exact .refl h
          · have hkept := h.store.reattempt_kept hr hflight
            split
            · exact h.advance_kept hkept
            · refine (h.advance_kept hkept).applyEffect (r := World.nextAttempt r) rfl ?_ hflight hsame.1
              show (w.store.putRecord (World.nextAttempt r)).record? _ = _
              rw [w.store.record?_putRecord]
              exact if_pos (w.store.key_of_record? hr)
    · next hnew =>
      split
      · exact .refl h
      · have hprepare : acceptClientMutationPrepare cfg w.recoveredTurnID request w.store
            (World.freshRecord request) = (_, _) := Prod.mk.eta.symm
        obtain ⟨hadvances, hlook, hfence, hmethod⟩ := @WorldInv.reserve w cfg visited h _ _ _
          hnew hprepare
        have hreserved : Advances visited (Released request.params.clientMutationID w.store _) w _ :=
          ⟨hadvances.inv, hadvances.evolves, hadvances.waits.imp Or.inl⟩
        split
        · exact hreserved
        · next hflight =>
          rw [not_not] at hflight
          split
          · exact hreserved
          · exact hadvances.applyEffect hfence hlook hflight hmethod

/-! ## Interrupts -/

/-- The reservation of an unseen interrupt: it raises the fence, or is rejected. -/
theorem WorldInv.reserveInterrupt (h : WorldInv w) {running : Bool} {r : Record} (hfresh : r.Fresh)
    (hmethod : r.method = .interrupt) (hnew : w.store.record? r.clientMutationID = none)
    {s' : Snapshot} {r' : Record} (hprepare : prepareInterrupt running w.store r = (s', r')) :
    Advances visited released w
      (w.commit (s'.putRecord (World.nextAttempt r')) [.prepare r.clientMutationID]) := by
  have hadmits : Admits w.store s' r r' := by
    rw [show s' = _ from (congrArg Prod.fst hprepare).symm,
      show r' = _ from (congrArg Prod.snd hprepare).symm]
    exact prepareInterrupt_admits hfresh hmethod
  have hraise : (s'.interruptFence = w.store.interruptFence ∧ s'.queueHeld = w.store.queueHeld ∧
        s'.steeringHeld = w.store.steeringHeld) ∨
      (w.store.interruptFence = none ∧ s'.interruptFence =
          some { clientMutationID := r'.clientMutationID, expectedTurnID := r'.stableTurnID } ∧
        r'.operationState = .inFlight ∧ r'.stableQueueEntryIDs = [] ∧ s'.queueHeld = true ∧
        s'.steeringHeld = snapshotHasPendingUserSteering w.store) := by
    unfold prepareInterrupt at hprepare
    split at hprepare
    · obtain ⟨rfl, rfl⟩ := Prod.mk.inj hprepare
      exact Or.inl ⟨rfl, rfl, rfl⟩
    · next hfence =>
      split at hprepare
      · obtain ⟨rfl, rfl⟩ := Prod.mk.inj hprepare
        exact Or.inl ⟨rfl, rfl, rfl⟩
      · obtain ⟨rfl, rfl⟩ := Prod.mk.inj hprepare
        exact Or.inr ⟨by simpa using hfence, rfl, hfresh.state, hfresh.entries, rfl, rfl⟩
  obtain ⟨hinv, hevolves⟩ := h.store.admission hnew hadmits rfl
    (hraise.imp (fun hk => hk.1) fun hk =>
      ⟨hk.2.1, hk.2.2.1, hadmits.method.trans hmethod, hk.2.2.2.1⟩)
  have hlook : (s'.putRecord (World.nextAttempt r')).record? r.clientMutationID =
      some (World.nextAttempt r') := by
    rw [s'.record?_putRecord]
    exact if_pos hadmits.key
  refine ⟨?_, hevolves, ?_, ?_, fun hid _ => hadmits.order ▸ hid, ?_⟩
  · refine h.commit ?_ hevolves (by simp) ?_ (fun hc => by simp at hc)
    · rw [acceptedInput_append_prepare]
      exact hinv
    · intro id hc
      simp only [mem_singleton, Commit.prepare.injEq] at hc
      subst hc
      exact ⟨hnew, by rw [hlook]; simp⟩
  · intro f hf
    rcases hraise with ⟨hkept, _⟩ | ⟨hnone, _⟩
    · exact Or.inl (hkept.trans hf)
    · simp [hnone] at hf
  · intro hs
    rcases hraise with ⟨_, hq, _⟩ | ⟨_, _, _, _, hq, _⟩
    · exact Or.inl (hq.trans hs)
    · exact Or.inl hq
  · intro id hs hid _
    rcases hraise with ⟨_, _, hq⟩ | ⟨_, _, _, _, _, hq⟩
    · exact Or.inl (hq.trans hs)
    · have hplace : id ∈ w.store.steeringOrder := hadmits.order ▸ hid
      exact Or.inl (hq.trans ((hasPendingUserSteering_iff h.store).mpr (ne_nil_of_mem hplace)))

theorem World.reservePrepared_advances {params : Params} {payloadHash : String} {running : Bool}
    {attempt : World.Attempt} (h : WorldInv w) :
    Advances visited released w (w.reservePrepared params payloadHash running attempt).1 := by
  unfold World.reservePrepared
  dsimp only
  split
  · exact .refl h
  · split
    · next r hr =>
      split
      · exact .refl h
      · split
        · exact .refl h
        · next hflight =>
          rw [not_not] at hflight
          have hadvances : Advances visited released w _ :=
            h.advance_kept (h.store.reattempt_kept hr hflight)
          split
          · exact .refl h
          · split
            · exact .refl h
            · split
              · exact hadvances
              · split
                · exact hadvances.congr rfl rfl rfl
                · exact hadvances.congr rfl rfl rfl
    · next hnew =>
      have hadvances := @WorldInv.reserveInterrupt w visited released h running
        { clientMutationID := params.clientMutationID
          method := .interrupt
          payload := some params
          payloadHash := payloadHash } ⟨rfl, rfl, rfl⟩ rfl hnew _ _ Prod.mk.eta.symm
      split
      · exact .refl h
      · split
        · exact hadvances
        · split
          · exact hadvances.congr rfl rfl rfl
          · exact hadvances.congr rfl rfl rfl

/-- The finalization of a Stop; without a fence it changes nothing. -/
theorem finalizeClientMutationInterrupt_kept {sample : StopSample} (h : Inv accepted s)
    (hfinal : finalizeClientMutationInterrupt cfg sample s = some s') :
    Kept accepted s s' ∨ (s.interruptFence.isSome ∧ Ended accepted sample.order s s') := by
  cases hfence : s.interruptFence with
  | none =>
    simp only [finalizeClientMutationInterrupt, hfence] at hfinal
    exact Or.inl (some.inj hfinal ▸ .refl h)
  | some f => exact Or.inr ⟨rfl, finalizeClientMutationInterrupt_ended h hfence hfinal⟩

theorem World.update_advances {lease : Lease} {sample : StopSample} (h : WorldInv w) :
    Advances sample.order released w (w.update cfg lease sample save).1 := by
  have hrelease : Advances sample.order released w (w.releaseOwner lease) := by
    unfold World.releaseOwner
    split
    · exact .of_store h rfl rfl rfl
    · exact .refl h
  unfold World.update
  split
  · exact .refl h
  · split
    · exact hrelease
    · split
      · exact hrelease
      · refine (World.mutate_advances hrelease.inv fun hnext =>
          finalizeClientMutationInterrupt_kept hrelease.inv.store hnext).before ?_ ?_ ?_ ?_ ?_ ?_
        all_goals
          unfold World.releaseOwner
          split <;> rfl

/-! ## Steps and runs -/

theorem loaded_eq (file : Snapshot) (turnFloor : Nat) :
    raiseTurnSequence turnFloor (forgetRunningTurnNoOneOwns file) =
      { file with
        activeTurnID := (raiseTurnSequence turnFloor (forgetRunningTurnNoOneOwns file)).activeTurnID
        nextTurnSequence :=
          (raiseTurnSequence turnFloor (forgetRunningTurnNoOneOwns file)).nextTurnSequence } := by
  unfold forgetRunningTurnNoOneOwns
  split
  · rfl
  · split <;> rfl

/-- A restart loads what memory has, but for the slot and the turn sequence. -/
theorem WorldInv.reloaded (h : WorldInv w) (turnFloor : Nat) {α : Type} (f : Snapshot → α)
    (hf : ∀ (s : Snapshot) turnID n,
      f { s with activeTurnID := turnID, nextTurnSequence := n } = f s) :
    f (raiseTurnSequence turnFloor (forgetRunningTurnNoOneOwns w.file)) = f w.store := by
  have hload : f (raiseTurnSequence turnFloor (forgetRunningTurnNoOneOwns w.file)) = f w.file :=
    (congrArg f (loaded_eq w.file turnFloor)).trans (hf _ _ _)
  have hmemory : f w.store = f w.file := (congrArg f h.loaded).trans (hf _ _ _)
  exact hload.trans hmemory.symm

theorem World.restart_advances {turnFloor : Nat} {sample : RestoreSample} (h : WorldInv w) :
    Advances visited released w (w.restart turnFloor sample save).1 := by
  have hload := loaded_eq w.file turnFloor
  have hinv : Inv (acceptedInput w.history)
      (raiseTurnSequence turnFloor (forgetRunningTurnNoOneOwns w.file)) :=
    h.file.forgetRunningTurnNoOneOwns.raiseTurnSequence turnFloor
  have hsame {α : Type} (f : Snapshot → α) := h.reloaded turnFloor f
  unfold World.restart
  generalize raiseTurnSequence turnFloor (forgetRunningTurnNoOneOwns w.file) = s
    at hload hinv hsame ⊢
  have hrecord : ∀ id, s.record? id = w.store.record? id := fun id =>
    hsame (Snapshot.record? · id) fun _ _ _ => rfl
  have hloaded : WorldInv
      { w with
        store := s
        owners := []
        recoveredTurnID := recoveredStartTurnID s
        directClaims := 0 } := by
    refine ⟨h.file, hinv, hload, ?_, ?_, h.preparedOnce, h.effectedOnce⟩
    · intro id hid
      show s.record? id ≠ none
      rw [hrecord]
      exact h.prepared hid
    · intro id input hid
      show ∃ r, s.record? id = some r ∧ _
      rw [hrecord]
      exact h.effected hid
  refine (World.mutate_advances hloaded fun hnext =>
    Or.inl (restoreDurableClientMutationQueues_kept hinv hnext)).before ?_ ?_ ?_ ?_ ?_ ?_
  · exact hsame Snapshot.journal fun _ _ _ => rfl
  · exact hsame Snapshot.pendingExecutions fun _ _ _ => rfl
  · exact hsame Snapshot.interruptFence fun _ _ _ => rfl
  · exact hsame Snapshot.queueHeld fun _ _ _ => rfl
  · exact hsame Snapshot.steeringHeld fun _ _ _ => rfl
  · exact hsame Snapshot.steeringOrder fun _ _ _ => rfl

/-- An acceptance ends the wait of a Stop; no other step does. -/
def Event.Releases (cfg : Config) (w : World) : Event → Prop
  | .accept request attempt => Released request.params.clientMutationID w.store
      (step cfg w (.accept request attempt)).1.store
  | _ => False

theorem step_advances (h : WorldInv w) (event : Event) :
    Advances event.visited (event.Releases cfg w) w (step cfg w event).1 := by
  cases event with
  | accept request attempt => exact World.executeAtomic_advances h
  | interrupt params payloadHash running attempt => exact World.reservePrepared_advances h
  | update lease sample save => exact World.update_advances h
  | release lease =>
    show Advances [] False w (w.releaseOwner lease)
    unfold World.releaseOwner
    split
    · exact .of_store h rfl rfl rfl
    · exact .refl h
  | recoverInterrupt sample save =>
    simp only [step]
    split
    · exact .refl h
    · exact World.mutate_advances h fun hnext => finalizeClientMutationInterrupt_kept h.store hnext
  | popQueueHead healthy save =>
    exact World.claim_advances h fun hnext => popQueueHead_kept h.store hnext
  | claimStart order healthy save =>
    exact World.claim_advances h fun hnext => claimClientMutationStart_kept h.store hnext
  | claimCarrier inFlight healthy save =>
    exact World.claim_advances h fun hnext => claimSteeringCarrierInput_kept h.store hnext
  | mintTurn save =>
    refine World.mutate_advances h fun hnext => Or.inl ?_
    exact some.inj hnext ▸ mintRunningTurnID_kept h.store
  | releaseTurn turnID save =>
    simp only [step]
    split
    · exact .refl h
    · refine World.mutate_advances h fun hnext => Or.inl ?_
      exact some.inj hnext ▸ releaseRunningTurnID_kept h.store turnID
  | claimDirect floor save =>
    refine (@World.mutate_advances w _ _ _ save h fun hnext => Or.inl ?_).congr rfl rfl rfl
    exact claimDirectClientMutationTurn_kept h.store hnext
  | returnDirect save =>
    refine (@World.mutate_advances w _ _ _ save h fun hnext => Or.inl ?_).congr rfl rfl rfl
    exact some.inj hnext ▸ acceptedTurns_kept h.store _
  | record id =>
    simp only [step]
    split
    · exact .refl h
    · exact .of_store h rfl rfl rfl
  | markIncorporated id save =>
    simp only [step]
    split
    · exact .refl h
    · exact World.mutate_advances h fun hnext =>
        Or.inl (markClaimedUserTranscriptIncorporated_kept h.store hnext)
  | complete id executionState sample save =>
    exact World.mutate_advances h fun hnext => completeClientMutationTurnWithState_kept h.store hnext
  | returnStart id save =>
    exact World.mutate_advances h fun hnext =>
      Or.inl (returnClaimedClientMutationStart_kept h.store hnext)
  | finalizeSteering id save =>
    simp only [step]
    split
    · exact .refl h
    · exact World.mutate_advances h fun hnext =>
        Or.inl (finalizeIncorporatedSteering_kept h.store hnext)
  | reconcileSteering recorded save =>
    exact World.mutate_advances h fun hnext =>
      Or.inl (reconcileClientSteering_kept h.store hnext)
  | restart turnFloor sample save => exact World.restart_advances h

theorem run_worldInv (events : List Event) (h : WorldInv w) : WorldInv (run cfg w events) := by
  induction events generalizing w with
  | nil => exact h
  | cons event events ih => exact ih (step_advances h event).inv

theorem run_evolves (events : List Event) (h : WorldInv w) :
    w.store.Evolves (run cfg w events).store := by
  induction events generalizing w with
  | nil => exact .of_journal rfl
  | cons event events ih =>
    have hstep := @step_advances w cfg h event
    exact hstep.evolves.trans (ih hstep.inv)

end Evener.ClientMutation
