/-
  A subtree stop, from its request to its completion.

  The request stamps the delegates that descend from its target; while the stop is pending no
  stamp is added and none is lost. A delegate created under the target later carries no stamp.
-/
import Evener.Delegatestore.Writes

namespace Evener.Delegatestore

open Evener.Lib List Option

/-! ## Descent -/

/-- `id` is `ancestor`, or its parents lead there. -/
def Descends (state : State) (ancestor id : String) : Prop :=
  Relation.ReflTransGen (parentOf state) ancestor id

variable {target id : String} {state state' : State} {json : Json} {entry : Event × Nat} {seq : Nat}
  {event : Event}

theorem climbsTo_of_parentOf {parent child : String} {fuel : Nat}
    (hparent : parentOf state parent child) (hchild : child ≠ "") (hne : child ≠ target) :
    climbsTo state target (fuel + 1) child = climbsTo state target fuel parent := by
  obtain ⟨_, a, ha, hsame⟩ := hparent
  rw [climbsTo, if_neg hchild, if_neg hne, ha]
  show climbsTo state target fuel a.descriptor.parentDelegateId = _
  rw [hsame]

/-- The loop finds every descendant; no delegate has the empty id. -/
theorem isDelegateOrDescendant_of_descends (h : Rooted state) (hblank : aggregateOf state "" = none)
    (htarget : target ≠ "") (hdescends : Descends state target id) :
    isDelegateOrDescendant state id target = true := by
  induction hdescends with
  | refl => exact isDelegateOrDescendant_self state htarget
  | @tail parent child _ hparent ih =>
    by_cases hsame : child = target
    · rw [hsame]
      exact isDelegateOrDescendant_self state htarget
    · have hchild : child ≠ "" := by
        intro hempty
        obtain ⟨_, a, ha, _⟩ := hparent
        rw [hempty, hblank] at ha
        cases ha
      have hlength : state.length < state.length + 2 := by omega
      have hclimb := h.isDelegateOrDescendant_eq child target hlength
      rw [climbsTo_of_parentOf hparent hchild hsame,
        h.isDelegateOrDescendant_eq parent target (by omega), ih] at hclimb
      exact (some.inj hclimb).symm

/-- A delegate that was there keeps the ancestors it had. -/
theorem Descends.earlier (h : Rooted state)
    (hkeeps : ∀ id a, aggregateOf state id = some a → ∃ a', aggregateOf state' id = some a' ∧ Keeps a a')
    (hdescends : Descends state' target id) (hheld : (aggregateOf state id).isSome) :
    Descends state target id := by
  induction hdescends with
  | refl => exact Relation.ReflTransGen.refl
  | @tail parent child _ hparent ih =>
    obtain ⟨hne, a', ha', hsame⟩ := hparent
    obtain ⟨a, ha⟩ := isSome_iff_exists.mp hheld
    obtain ⟨b, hb, hab⟩ := hkeeps child a ha
    rw [ha'] at hb
    cases hb
    rw [hab.descriptor] at hsame
    have hbefore : parentOf state parent child := ⟨hne, a, ha, hsame⟩
    exact (ih (h parent child hbefore).1).tail hbefore

/-! ## One turn of the fold -/

/-- A turn on the delegates that were there: what they are created with stays. -/
theorem foldStep_keeps (hkeys : KeysNodup Prod.fst state)
    (h : foldStep json state entry = .ok state') {a : Aggregate}
    (ha : aggregateOf state id = some a) : ∃ a', aggregateOf state' id = some a' ∧ Keeps a a' := by
  obtain ⟨a', _, ha', hkeeps, _⟩ := (foldStep_evolves hkeys h).2.step ha
  exact ⟨a', ha', hkeeps⟩

/-! ## Stamps -/

theorem stamped_withRevisions {revision : String → Aggregate → Nat} :
    Stamped seq (withRevisions revision state) id ↔ Stamped seq state id := by
  constructor
  · rintro ⟨b, hb, hseq⟩
    obtain ⟨a, ha, rfl⟩ := aggregateOf_rewrite_eq_some hb
    exact ⟨a, ha, hseq⟩
  · rintro ⟨a, ha, hseq⟩
    refine ⟨{ a with projectionRevision := revision id a }, ?_, hseq⟩
    unfold withRevisions
    rw [aggregateOf_rewrite, ha]
    rfl

/-- The request stamps its target and every delegate below it. -/
theorem request_stamps (hkind : entry.1.kind = .delegateSubtreeStopRequested)
    (h : foldStep json state entry = .ok state') (hheld : (aggregateOf state id).isSome)
    (hbelow : isDelegateOrDescendant state id entry.1.delegateId = true) :
    Stamped entry.1.seq state' id := by
  obtain ⟨_, _, after, revision, happly, rfl⟩ := foldStep_ok h
  rw [stamped_withRevisions]
  simp only [applyEvent, hkind] at happly
  obtain ⟨_, _, _, rfl⟩ := applySubtreeStopRequested_ok happly
  obtain ⟨a, ha⟩ := isSome_iff_exists.mp hheld
  refine ⟨stopAggregate entry.1 a, ?_, rfl⟩
  rw [aggregateOf_rewrite, ha]
  simp [hbelow]

/-- A request is refused while a stop is pending. -/
theorem not_requested_of_stamped (hstamped : Stamped seq state id) (hseq : seq ≠ 0) :
    applySubtreeStopRequested state event ≠ .ok state' := by
  intro h
  obtain ⟨_, _, hfree, _⟩ := applySubtreeStopRequested_ok h
  obtain ⟨a, ha, hstamp⟩ := hstamped
  exact hseq (hstamp.symm.trans (hfree id a ha))

/-- A stamped delegate is refused a run. -/
theorem not_started_of_stamped (hstamped : Stamped seq state event.delegateId) (hseq : seq ≠ 0) :
    applyRunStarted state event ≠ .ok state' := by
  intro h
  unfold applyRunStarted at h
  obtain ⟨a, ha, h⟩ := bind_eq_ok.mp h
  obtain ⟨payload, _, h⟩ := bind_eq_ok.mp h
  obtain ⟨_, _, h⟩ := bind_eq_ok.mp h
  obtain ⟨_, _, h⟩ := bind_eq_ok.mp h
  obtain ⟨_, _, h⟩ := bind_eq_ok.mp h
  obtain ⟨_, hfree, h⟩ := bind_eq_ok.mp h
  have hfree : a.pendingStopSeq = 0 := by simpa using failIf_eq_ok.mp hfree
  obtain ⟨b, hb, hstamp⟩ := hstamped
  rw [requireAggregate_eq_ok.mp ha] at hb
  cases hb
  exact hseq (hstamp.symm.trans hfree)

/-- What a completion of the stop `seq` finds and leaves. -/
theorem completed_ok (h : applySubtreeStopCompleted state event = .ok state')
    (hpayload : event.subtreeStopCompleted = some ⟨seq⟩) (hkeys : KeysNodup Prod.fst state) :
    seq ≠ 0 ∧ Stamped seq state event.delegateId ∧
      (∀ id, ¬ Stamped seq state' id) ∧
      (∀ id, Stamped seq state id → ∃ a, aggregateOf state' id = some a ∧ a.currentRunOpen = false) ∧
      ∀ id, Stamped seq state id → ∀ id' a, aggregateOf state' id' = some a →
        ∀ delivery ∈ a.pendingDeliveries, delivery.ownerDelegateId ≠ id := by
  obtain ⟨payload, covered, hfound, hzero, hown, hcovered, hclosed, rfl⟩ :=
    applySubtreeStopCompleted_ok h
  rw [hfound] at hpayload
  cases hpayload
  have hcovered := hcovered hkeys
  refine ⟨hzero, hown, ?_, ?_, ?_⟩
  · rintro id ⟨b, hb, hstamp⟩
    obtain ⟨a, ha, rfl⟩ := aggregateOf_rewrite_eq_some hb
    split at hstamp
    · exact hzero hstamp.symm
    · next hout => exact hout ((hcovered id).mpr ⟨a, ha, hstamp⟩)
  · intro id hid
    have hmem := (hcovered id).mpr hid
    obtain ⟨a, ha, hstamp⟩ := hid
    rw [aggregateOf_rewrite, ha]
    exact ⟨_, rfl, by simpa [if_pos hmem, releaseAggregate, dropCovered] using hclosed id a ha hstamp⟩
  · intro id hid id' b hb delivery hdelivery heq
    obtain ⟨a, ha, rfl⟩ := aggregateOf_rewrite_eq_some hb
    have hkept : delivery ∈ (dropCovered covered a).pendingDeliveries := by
      split at hdelivery <;> exact hdelivery
    have hout := (mem_filter.mp hkept).2
    rw [decide_eq_true_eq, heq] at hout
    exact hout ((hcovered id).mpr hid)

/-- A turn under a pending stop: every stamp stays, or the stop was completed and none is left. -/
theorem stamps_kept_or_cleared (hsound : Sound state) (hseq : seq ≠ 0) {member : String}
    (hmember : Stamped seq state member) (h : foldStep json state entry = .ok state') :
    (∀ id, Stamped seq state id → Stamped seq state' id) ∨ ∀ id, ¬ Stamped seq state' id := by
  obtain ⟨_, hid, after, revision, happly, rfl⟩ := foldStep_ok h
  simp only [stamped_withRevisions]
  by_cases hrequest : entry.1.kind = .delegateSubtreeStopRequested
  · simp only [applyEvent, hrequest] at happly
    exact absurd happly (not_requested_of_stamped hmember hseq)
  · by_cases hcomplete : entry.1.kind = .delegateSubtreeStopCompleted
    · simp only [applyEvent, hcomplete] at happly
      -- the completed stop is the pending one
      cases hpayload : entry.1.subtreeStopCompleted with
      | none => simp [applySubtreeStopCompleted, hpayload, deref, fail, bind, Except.bind] at happly
      | some payload =>
        obtain ⟨requestSeq⟩ := payload
        obtain ⟨hne, ⟨target, htarget, hstamp⟩, hcleared, _⟩ :=
          completed_ok happly hpayload hsound.keys
        obtain ⟨a, ha, hpending⟩ := hmember
        have hsame := hsound.oneStop _ _ _ _ htarget ha (by rw [hstamp]; exact hne)
          (by rw [hpending]; exact hseq)
        rw [hstamp, hpending] at hsame
        subst hsame
        exact Or.inr hcleared
    · refine Or.inl fun id hid' => ?_
      obtain ⟨a, ha, hstamp⟩ := hid'
      obtain ⟨a', _, ha', _⟩ := (applyEvent_evolves hsound.keys happly).step ha
      have hsame := (applyEvent_writes hid happly).stamp hrequest hcomplete id a a' ha ha'
      exact ⟨a', ha', hsame.trans hstamp⟩

/-- A turn on another place of the journal adds no stamp of the stop `seq`. -/
theorem stays_cleared (hsound : Sound state) (hseq : seq ≠ 0) (hother : entry.2 + 1 ≠ seq)
    (hcleared : ∀ id, ¬ Stamped seq state id) (h : foldStep json state entry = .ok state')
    (id : String) : ¬ Stamped seq state' id := by
  obtain ⟨hevent, hevolves⟩ := foldStep_evolves hsound.keys h
  rintro ⟨b, hb, hstamp⟩
  have hmoved : ∀ {f label}, Moves entry.1 state f label →
      aggregateOf (rewrite f state) id = some b → False := by
    intro f label hmoves hb
    obtain ⟨a, ha, rfl⟩ := aggregateOf_rewrite_eq_some hb
    rcases (hmoves.step id a ha).stopSeq with hsame | hzero | ⟨seq', hlabel, hset⟩
    · exact hcleared id ⟨a, ha, hsame.symm.trans hstamp⟩
    · exact hseq (hstamp.symm.trans hzero)
    · have hown := (hmoves.stops id seq' hlabel).1
      have hset : (f id a).pendingStopSeq = seq' := hset
      omega
  cases hevolves with
  | created f a hkind hquiet hnew hparent hlife =>
    rcases aggregateOf_append_eq_some hb with hold | ⟨_, rfl⟩
    · exact hmoved (moves_quiet hkind hquiet) hold
    · have hfree : b.pendingStopSeq = 0 := congrArg Life.stopSeq hlife
      exact hseq (hstamp.symm.trans hfree)
  | moved f label hmoves => exact hmoved hmoves hb

/-! ## From the request to the completion -/

/-- No stamp of a stop that is over comes back. -/
theorem cleared_stretch (hseq : seq ≠ 0) (events : List Event) :
    ∀ (n : Nat) (state state' : State), seq ≤ n → Sound state →
      (events.zipIdx n).foldlM (foldStep json) state = .ok state' →
      (∀ id, ¬ Stamped seq state id) → ¬ ∃ id, Stamped seq state' id := by
  induction events with
  | nil =>
    intro n state state' _ _ h hcleared ⟨id, hid⟩
    cases h
    exact hcleared id hid
  | cons event events ih =>
    intro n state state' hn hsound h hcleared
    rw [zipIdx_cons, foldlM_cons] at h
    obtain ⟨next, hstep, h⟩ := bind_eq_ok.mp h
    have hnext := (foldStep_evolves hsound.keys hstep).2.sound hsound
    exact ih (n + 1) next state' (by omega) hnext h
      (stays_cleared hsound hseq (show n + 1 ≠ seq by omega) hcleared hstep)

/-- A stretch of the journal after whose end the stop `seq` is still pending: every delegate
    stamped at its start is stamped at its end, and starts no run in it. -/
theorem stamped_stretch (hseq : seq ≠ 0) (events : List Event) :
    ∀ (n : Nat) (state state' : State), seq ≤ n → Sound state →
      (events.zipIdx n).foldlM (foldStep json) state = .ok state' →
      (∃ id, Stamped seq state' id) →
      (∀ id, Stamped seq state id → Stamped seq state' id) ∧
      ∀ id, Stamped seq state id → ∀ event ∈ events,
        ¬ (event.kind = .delegateRunStarted ∧ event.delegateId = id) := by
  induction events with
  | nil =>
    intro n state state' _ _ h _
    cases h
    exact ⟨fun _ hid => hid, fun _ _ _ hmem => nomatch hmem⟩
  | cons event events ih =>
    intro n state state' hn hsound h hpending
    rw [zipIdx_cons, foldlM_cons] at h
    obtain ⟨next, hstep, h⟩ := bind_eq_ok.mp h
    have hnext := (foldStep_evolves hsound.keys hstep).2.sound hsound
    obtain ⟨hkept, hidle⟩ := ih (n + 1) next state' (by omega) hnext h hpending
    have hstamps : ∀ id, Stamped seq state id → Stamped seq next id := by
      intro id hid
      rcases stamps_kept_or_cleared hsound hseq hid hstep with hkeeps | hcleared
      · exact hkeeps id hid
      · exact absurd hpending (cleared_stretch hseq events (n + 1) next state' (by omega) hnext h hcleared)
    refine ⟨fun id hid => hkept id (hstamps id hid), fun id hid e he => ?_⟩
    rcases mem_cons.mp he with rfl | he
    · rintro ⟨hkind, rfl⟩
      obtain ⟨_, _, after, _, happly, _⟩ := foldStep_ok hstep
      simp only [applyEvent, hkind] at happly
      exact not_started_of_stamped hid hseq happly
    · exact hidle id (hstamps id hid) e he

/-- No accepted event names the empty id. -/
theorem fold_blank {events : List Event} (h : fold json events = .ok state) :
    aggregateOf state "" = none := by
  refine foldlM_induct_nil (P := fun _ now => aggregateOf now "" = none) ?_ rfl h
  intro _ entry now next hblank hstep
  obtain ⟨_, hid, after, revision, happly, rfl⟩ := foldStep_ok hstep
  have houtside : touchedDelegates now entry.1 "" = false := by
    unfold touchedDelegates
    split <;> simp [hblank, Ne.symm hid]
  have hframe := (applyEvent_writes hid happly).frame "" houtside
  unfold withRevisions
  rw [aggregateOf_rewrite, hframe, hblank]
  rfl

/-- The states of a journal around two of its events. -/
theorem fold_split {before between after : List Event} {first second : Event}
    (h : fold json (before ++ first :: (between ++ second :: after)) = .ok state) :
    ∃ s₀ s₁ s₂ s₃, fold json before = .ok s₀ ∧ foldStep json s₀ (first, before.length) = .ok s₁ ∧
      (between.zipIdx (before.length + 1)).foldlM (foldStep json) s₁ = .ok s₂ ∧
      foldStep json s₂ (second, before.length + 1 + between.length) = .ok s₃ ∧
      fold json (before ++ first :: (between ++ [second])) = .ok s₃ := by
  unfold fold at h ⊢
  simp only [zipIdx_append, zipIdx_cons, foldlM_append_eq_ok, foldlM_cons,
    bind_eq_ok, Nat.zero_add] at h
  obtain ⟨s₀, h₀, s₁, h₁, s₂, h₂, s₃, h₃, _⟩ := h
  refine ⟨s₀, s₁, s₂, s₃, h₀, h₁, h₂, h₃, ?_⟩
  simp only [zipIdx_append, zipIdx_cons, foldlM_append_eq_ok, foldlM_cons,
    bind_eq_ok, Nat.zero_add]
  exact ⟨s₀, h₀, s₁, h₁, s₂, h₂, s₃, h₃, rfl⟩

theorem foldlM_keeps {entries : List (Event × Nat)} (hsound : Sound state)
    (h : entries.foldlM (foldStep json) state = .ok state') :
    Sound state' ∧ ∀ id a, aggregateOf state id = some a →
      ∃ a', aggregateOf state' id = some a' ∧ Keeps a a' := by
  refine foldlM_induct_nil (P := fun _ now => Sound now ∧ ∀ id a, aggregateOf state id = some a →
    ∃ a', aggregateOf now id = some a' ∧ Keeps a a') ?_
    ⟨hsound, fun id a ha => ⟨a, ha, Keeps.refl a⟩⟩ h
  intro _ entry now next ⟨hnow, hkeeps⟩ hstep
  refine ⟨(foldStep_evolves hnow.keys hstep).2.sound hnow, fun id a ha => ?_⟩
  obtain ⟨b, hb, hab⟩ := hkeeps id a ha
  obtain ⟨c, hc, hbc⟩ := foldStep_keeps hnow.keys hstep hb
  exact ⟨c, hc, hab.trans hbc⟩

/-- A completed stop has stopped every delegate that descended from its target when it was
    requested. -/
theorem subtree_stop_stops_members (json : Json) (before between after : List Event)
    (request completion : Event) (target : String) (state : State)
    (h : fold json (before ++ request :: (between ++ completion :: after)) = .ok state)
    (hrequest : request.kind = .delegateSubtreeStopRequested)
    (htarget : request.subtreeStopRequested = some ⟨target⟩)
    (hcompletion : completion.kind = .delegateSubtreeStopCompleted)
    (hseq : completion.subtreeStopCompleted = some ⟨request.seq⟩) :
    ∃ atRequest atCompletion, fold json before = .ok atRequest ∧
      fold json (before ++ request :: (between ++ [completion])) = .ok atCompletion ∧
      ∀ id, Descends atCompletion target id → (aggregateOf atRequest id).isSome →
        (∀ event ∈ between, ¬ (event.kind = .delegateRunStarted ∧ event.delegateId = id)) ∧
        (∃ a, aggregateOf atCompletion id = some a ∧ a.currentRunOpen = false) ∧
        ∀ id' a, aggregateOf atCompletion id' = some a →
          ∀ delivery ∈ a.pendingDeliveries, delivery.ownerDelegateId ≠ id := by
  obtain ⟨s₀, s₁, s₂, s₃, h₀, h₁, h₂, h₃, hbefore⟩ := fold_split h
  refine ⟨s₀, s₃, h₀, hbefore, fun id hdescends hheld => ?_⟩
  have hsound₀ := (fold_tracked h₀).sound
  have hsound₁ := (foldStep_evolves hsound₀.keys h₁).2.sound hsound₀
  obtain ⟨hsound₂, hkeeps₂⟩ := foldlM_keeps hsound₁ h₂
  obtain ⟨hplace, htargetId, stamped, _, hrequested, _⟩ := foldStep_ok h₁
  obtain ⟨_, _, done, revision, hcompleted, rfl⟩ := foldStep_ok h₃
  simp only [applyEvent, hcompletion] at hcompleted
  obtain ⟨hne, hpending, _, hclosed, howners⟩ := completed_ok hcompleted hseq hsound₂.keys
  -- the target the payload names is the delegate the event names
  have hsame : target = request.delegateId := by
    simp only [applyEvent, hrequest] at hrequested
    obtain ⟨_, ⟨payload, hpayload, hmatch⟩, _⟩ := applySubtreeStopRequested_ok hrequested
    rw [hpayload] at htarget
    cases htarget
    exact hmatch
  subst hsame
  have hkeeps : ∀ id a, aggregateOf s₀ id = some a →
      ∃ a', aggregateOf (withRevisions revision done) id = some a' ∧ Keeps a a' := by
    intro id a ha
    obtain ⟨b, hb, hab⟩ := foldStep_keeps hsound₀.keys h₁ ha
    obtain ⟨c, hc, hbc⟩ := hkeeps₂ id b hb
    obtain ⟨d, hd, hcd⟩ := foldStep_keeps hsound₂.keys h₃ hc
    exact ⟨d, hd, (hab.trans hbc).trans hcd⟩
  have hbelow := isDelegateOrDescendant_of_descends hsound₀.rooted (fold_blank h₀) htargetId
    (hdescends.earlier hsound₀.rooted hkeeps hheld)
  have hmember := request_stamps hrequest h₁ hheld hbelow
  obtain ⟨hstays, hidle⟩ := stamped_stretch hne between (before.length + 1) s₁ s₂
    (Nat.le_of_eq hplace) hsound₁ h₂ ⟨_, hpending⟩
  refine ⟨hidle id hmember, ?_, ?_⟩
  · obtain ⟨a, ha, hopen⟩ := hclosed id (hstays id hmember)
    refine ⟨{ a with projectionRevision := revision id a }, ?_, hopen⟩
    unfold withRevisions
    rw [aggregateOf_rewrite, ha]
    rfl
  · intro id' b hb delivery hdelivery
    obtain ⟨a, ha, rfl⟩ := aggregateOf_rewrite_eq_some hb
    exact howners id (hstays id hmember) id' a ha delivery hdelivery

/-- A child is created and started under its parent's pending stop, which then completes. -/
def lateChild : List Event :=
  [{ kind := .delegateCreated, seq := 1, delegateId := "p", created := some ⟨plainDescriptor ""⟩ },
    { kind := .delegateSubtreeStopRequested, seq := 2, delegateId := "p",
      subtreeStopRequested := some ⟨"p"⟩ },
    { kind := .delegateCreated, seq := 3, delegateId := "c", created := some ⟨plainDescriptor "p"⟩ },
    { kind := .delegateRunStarted, seq := 4, delegateId := "c", runStarted := some ⟨1, .initial, 5⟩ },
    { kind := .delegateSubtreeStopCompleted, seq := 5, delegateId := "p",
      subtreeStopCompleted := some ⟨2⟩ }]

/-- The child descends from the target, starts its run under the stop, and has it open after the
    completion. -/
theorem lateChild_runs :
    ∃ state a, fold permissiveJson lateChild = .ok state ∧ Descends state "p" "c" ∧
      lateChild.map (fun event => (event.kind, event.delegateId)) =
        [(.delegateCreated, "p"), (.delegateSubtreeStopRequested, "p"), (.delegateCreated, "c"),
          (.delegateRunStarted, "c"), (.delegateSubtreeStopCompleted, "p")] ∧
      aggregateOf state "c" = some a ∧ a.currentRunOpen = true := by
  obtain ⟨state, hstate⟩ : ∃ state, fold permissiveJson lateChild = .ok state := ⟨_, rfl⟩
  have hc : ((fold permissiveJson lateChild).toOption.bind fun state =>
      (aggregateOf state "c").map fun a => (a.descriptor.parentDelegateId, a.currentRunOpen)) =
        some ("p", true) := by decide
  rw [hstate] at hc
  obtain ⟨a, ha, hfields⟩ := map_eq_some_iff.mp hc
  simp only [Prod.mk.injEq] at hfields
  obtain ⟨hparent, hopen⟩ := hfields
  exact ⟨state, a, hstate, Relation.ReflTransGen.single ⟨by decide, a, ha, hparent⟩, by decide, ha,
    hopen⟩

/-- A parent whose child is running. -/
def stoppedPair : List Event :=
  [{ kind := .delegateCreated, seq := 1, delegateId := "p", created := some ⟨plainDescriptor ""⟩ },
    { kind := .delegateCreated, seq := 2, delegateId := "c", created := some ⟨plainDescriptor "p"⟩ },
    { kind := .delegateRunStarted, seq := 3, delegateId := "c", runStarted := some ⟨1, .initial, 5⟩ }]

def pairStop : Event :=
  { kind := .delegateSubtreeStopRequested, seq := 4, delegateId := "p",
    subtreeStopRequested := some ⟨"p"⟩ }

/-- The child's run ends under the stop. -/
def childFinish : Event :=
  { kind := .delegateRunFinished, seq := 5, delegateId := "c",
    runFinished := some
      { generation := 1
        outcome := { status := .stopped, endedAt := 6 }
        disposition := .terminalError } }

def pairStopped : Event :=
  { kind := .delegateSubtreeStopCompleted, seq := 6, delegateId := "p",
    subtreeStopCompleted := some ⟨4⟩ }

theorem subtree_stop_stops_members_stoppedPair :
    ∃ atRequest atCompletion a b, fold permissiveJson stoppedPair = .ok atRequest ∧
      aggregateOf atRequest "c" = some a ∧ a.currentRunOpen = true ∧
      fold permissiveJson (stoppedPair ++ [pairStop, childFinish, pairStopped]) =
        .ok atCompletion ∧
      aggregateOf atCompletion "c" = some b ∧ b.currentRunOpen = false := by
  obtain ⟨final, hfinal⟩ : ∃ final, fold permissiveJson (stoppedPair ++
      pairStop :: ([childFinish] ++ pairStopped :: [])) = .ok final := ⟨_, rfl⟩
  obtain ⟨atRequest, atCompletion, hrequest, hcompletion, hmembers⟩ :=
    subtree_stop_stops_members permissiveJson stoppedPair [childFinish] [] _ _ "p" final hfinal rfl
      rfl rfl rfl
  have hrunning : ((fold permissiveJson stoppedPair).toOption.bind fun state =>
      (aggregateOf state "c").map Aggregate.currentRunOpen) = some true := by decide
  rw [hrequest] at hrunning
  obtain ⟨a, ha, hopen⟩ := map_eq_some_iff.mp hrunning
  have hparent : ((fold permissiveJson
      (stoppedPair ++ [pairStop, childFinish, pairStopped])).toOption.bind fun state =>
      (aggregateOf state "c").map fun b => b.descriptor.parentDelegateId) = some "p" := by decide
  rw [show fold permissiveJson (stoppedPair ++ [pairStop, childFinish, pairStopped]) =
    .ok atCompletion from hcompletion] at hparent
  obtain ⟨b, hb, hsame⟩ := map_eq_some_iff.mp hparent
  obtain ⟨_, ⟨b', hb', hclosed⟩, _⟩ := hmembers "c"
    (Relation.ReflTransGen.single ⟨by decide, b, hb, hsame⟩) (isSome_iff_exists.mpr ⟨a, ha⟩)
  exact ⟨atRequest, atCompletion, a, b', hrequest, ha, hopen, hcompletion, hb', hclosed⟩

end Evener.Delegatestore
