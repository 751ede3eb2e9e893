/-
  `Apply`, the transaction on one event: the aggregates it can reach are cloned, the event is
  applied to the clones, and a refused event puts the originals back.

  The model keeps the writes a refused event leaves behind before it fails.
-/
import Evener.Delegatestore.Writes

namespace Evener.Delegatestore

open Evener.Lib
open List hiding lookup
open Evener.Jobstore (Causal cloneProvenance truncateChain nilIfEmpty maxDiagnosticChain)

/-! ## Writing in place -/

def cloneAggregate (aggregate : Aggregate) : Aggregate :=
  { aggregate with descriptor := cloneDescriptor aggregate.descriptor }

/-- The delegates `touchedDelegates` lists. -/
def touchedIds (state : State) (event : Event) : List String :=
  match event.kind with
  | .delegateResumabilityClosed | .delegateSubtreeStopRequested =>
    (state.map Prod.fst).filter fun id => isDelegateOrDescendant state id event.delegateId
  | .delegateSubtreeStopCompleted => state.map Prod.fst
  | _ => [event.delegateId]

/-- The checks of a finish that come before its first write. -/
def finishing (state : State) (event : Event) : Except Failure (RunFinished × Aggregate) := do
  let payload ← deref event.runFinished
  let aggregate ← requireExactOpenRun state event.delegateId payload.generation
  failIf (aggregate.phase ≠ .running ∧ aggregate.phase ≠ .settling ∧ aggregate.phase ≠ .stopping)
    "delegate %q phase %q cannot finish" [event.delegateId, aggregate.phase.text]
  failIf (validOutcomeStatus payload.outcome.status = false) "delegate %q has invalid outcome %q"
    [event.delegateId, payload.outcome.status.text]
  wrapping "delegate %q outcome: %w" [event.delegateId] (validateOutcome payload.outcome)
  failIf (payload.outcome.endedAt = 0) "delegate %q finish time is zero" [event.delegateId]
  failIf (validDisposition payload.disposition = false) "delegate %q has invalid disposition %q"
    [event.delegateId, payload.disposition.text]
  return (payload, aggregate)

/-- What a refused finish has already written. -/
def abandonedFinish (json : Json) (state : State) (event : Event) : State :=
  match finishing state event with
  | .error _ => state
  | .ok (payload, aggregate) =>
    if aggregate.phase = .stopping then
      writeAggregate state event.delegateId { aggregate with needsAttention := false }
    else
      match validateFinishPacket json aggregate payload
          (payload.packet <|> aggregate.preparedTerminal) with
      | .error _ => state
      | .ok _ =>
        writeAggregate state event.delegateId { aggregate with latestOutcome := some payload.outcome }

/-- The state behind a refused event; every other kind checks before it writes. -/
def leftBehind (json : Json) (state : State) (event : Event) : State :=
  match event.kind with
  | .delegateRunFinished => abandonedFinish json state event
  | _ => state

/-- The rollback: an aggregate that was there is put back, one that was not is deleted. -/
def restoreTouched (state : State) (touched : List String) (left : State) : State :=
  touched.foldl (fun left id =>
    match aggregateOf state id with
    | some aggregate => put Prod.fst (id, aggregate) left
    | none => erase Prod.fst id left) left

/-- `Apply`: the state it leaves, and its error. -/
def apply (json : Json) (state : State) (event : Event) : State × Option Failure :=
  match validateEventEnvelope event with
  | .error err => (state, some err)
  | .ok _ =>
    let touched := touchedIds state event
    let working := rewrite (fun id aggregate =>
      if id ∈ touched then cloneAggregate aggregate else aggregate) state
    match applyEvent json working event with
    | .error err => (restoreTouched state touched (leftBehind json working event), some err)
    | .ok after =>
      (rewrite (fun id aggregate =>
        if id ∈ touched then
          match aggregateOf state id with
          | none => { aggregate with projectionRevision := 1 }
          | some original =>
            if publicProjection original ≠ publicProjection aggregate then
              { aggregate with projectionRevision := original.projectionRevision + 1 }
            else { aggregate with projectionRevision := original.projectionRevision }
        else aggregate) after, none)

variable {event : Event} {state state' : State} {json : Json} {f : String → Aggregate → Aggregate}
  {events : List Event}

theorem mem_touchedIds {id : String} :
    id ∈ touchedIds state event ↔ touchedDelegates state event id = true := by
  cases hkind : event.kind <;> simp [touchedIds, touchedDelegates, hkind, isSome_aggregateOf]

/-! ## Clones -/

theorem cloneProvenance_idem (p : Option Causal) :
    cloneProvenance (cloneProvenance p) = cloneProvenance p := by
  cases p with
  | none => rfl
  | some p =>
    have hshort : (truncateChain p).chain.length ≤ maxDiagnosticChain := by
      unfold truncateChain
      split
      · next h => exact h
      · simp only [length_append, length_take, length_drop, maxDiagnosticChain]
        omega
    have hagain : truncateChain (truncateChain p) = truncateChain p := by
      generalize truncateChain p = q at hshort ⊢
      rw [truncateChain, if_pos hshort]
    unfold cloneProvenance
    rw [Option.bind_some]
    generalize truncateChain p = q at hagain ⊢
    unfold nilIfEmpty
    split
    · rfl
    · next hne => rw [Option.bind_some, hagain, if_neg hne]

theorem cloneDescriptor_idem (d : Descriptor) :
    cloneDescriptor (cloneDescriptor d) = cloneDescriptor d := by
  unfold cloneDescriptor
  simp only [cloneProvenance_idem]

/-- Every descriptor is the clone it was created as, so cloning it again changes nothing. -/
def Cloned (state : State) : Prop :=
  ∀ id a, aggregateOf state id = some a → cloneDescriptor a.descriptor = a.descriptor

theorem Cloned.applyEvent (h : Cloned state) (hkeys : KeysNodup Prod.fst state)
    (happly : applyEvent json state event = .ok state') : Cloned state' := by
  intro id a ha
  cases hbefore : aggregateOf state id with
  | some b =>
    obtain ⟨a', _, ha', hkeeps, _⟩ := (applyEvent_evolves hkeys happly).step hbefore
    rw [ha] at ha'
    cases ha'
    rw [hkeeps.descriptor]
    exact h id b hbefore
  | none =>
    by_cases hkind : event.kind = .delegateCreated
    · simp only [Delegatestore.applyEvent, hkind] at happly
      obtain ⟨_, d, _, rfl⟩ := applyCreated_ok happly
      rcases aggregateOf_append_eq_some ha with hold | ⟨_, rfl⟩
      · rw [hbefore] at hold
        cases hold
      · exact cloneDescriptor_idem d
    · cases applyEvent_evolves hkeys happly with
      | created f b hcreated => exact absurd hcreated hkind
      | moved f label hmoves =>
        rw [aggregateOf_rewrite, hbefore] at ha
        cases ha

theorem Cloned.rewrite (h : Cloned state) (hf : ∀ id a, (f id a).descriptor = a.descriptor) :
    Cloned (rewrite f state) := by
  intro id a' ha'
  obtain ⟨a, ha, rfl⟩ := aggregateOf_rewrite_eq_some ha'
  rw [hf]
  exact h id a ha

theorem Cloned.foldStep {entry : Event × Nat} (h : Cloned state) (hkeys : KeysNodup Prod.fst state)
    (hstep : foldStep json state entry = .ok state') : Cloned state' := by
  obtain ⟨_, _, hstep⟩ := foldStep_eq_ok.mp hstep
  unfold applyWithProjectionRevisions at hstep
  obtain ⟨after, hafter, hstep⟩ := bind_eq_ok.mp hstep
  cases hstep
  refine (h.applyEvent hkeys hafter).rewrite fun id a => ?_
  split
  · split
    · rfl
    · split <;> rfl
  · rfl

theorem fold_cloned (h : fold json events = .ok state) : Cloned state := by
  have hrun := foldlM_induct_nil (P := fun read now => Tracked (read.map Prod.fst) now ∧ Cloned now)
    ?_ ⟨tracked_nil, fun _ _ h => nomatch h⟩ h
  · exact hrun.2
  · intro read entry now next ⟨hnow, hcloned⟩ hstep
    refine ⟨?_, hcloned.foldStep hnow.sound.keys hstep⟩
    rw [map_append]
    exact hnow.snoc (foldStep_evolves hnow.sound.keys hstep).2

/-! ## Rolling back -/

theorem rewrite_congr (hkeys : KeysNodup Prod.fst state) {g : String → Aggregate → Aggregate}
    (h : ∀ id a, aggregateOf state id = some a → f id a = g id a) :
    rewrite f state = rewrite g state := by
  refine map_congr_left fun entry hentry => ?_
  rw [h entry.1 entry.2 (aggregateOf_of_mem hkeys hentry)]

theorem rewrite_id (state : State) : rewrite (fun _ a => a) state = state := by
  simp [rewrite]

/-- Putting back every aggregate that was rewritten gives the state again. -/
theorem restoreTouched_rewrite (hkeys : KeysNodup Prod.fst state) {touched : List String}
    (h : ∀ id a, aggregateOf state id = some a → id ∉ touched → f id a = a) :
    restoreTouched state touched (rewrite f state) = state := by
  -- by induction on the ids still to restore, with what the others hold
  induction touched generalizing f with
  | nil =>
    rw [show restoreTouched state [] (rewrite f state) = rewrite f state from rfl,
      rewrite_congr hkeys (g := fun _ a => a) fun id a ha => h id a ha not_mem_nil, rewrite_id]
  | cons id touched ih =>
    unfold restoreTouched at ih ⊢
    rw [foldl_cons]
    cases hfound : aggregateOf state id with
    | none =>
      have habsent : lookup Prod.fst id state = none := by simpa [aggregateOf] using hfound
      have hgone : erase Prod.fst id (rewrite f state) = rewrite f state := by
        refine filter_eq_self.mpr fun entry hentry => ?_
        obtain ⟨old, hold, rfl⟩ := mem_map.mp hentry
        simpa using lookup_eq_none.mp habsent old hold
      simp only [hgone]
      refine ih fun x b hb hx => h x b hb fun hmem => ?_
      rcases mem_cons.mp hmem with rfl | hmem
      · rw [hfound] at hb
        cases hb
      · exact hx hmem
    | some a =>
      have hput : put Prod.fst (id, a) (rewrite f state) =
          rewrite (fun x b => if x = id then a else f x b) state := by
        have hnodup : KeysNodup Prod.fst (rewrite f state) := by
          unfold KeysNodup
          rw [keys_rewrite]
          exact hkeys
        have hheld : id ∈ (rewrite f state).map Prod.fst := by
          rw [keys_rewrite]
          exact isSome_aggregateOf.mp (by rw [hfound]; rfl)
        rw [put_eq_map hnodup hheld]
        unfold rewrite
        rw [map_map]
        refine map_congr_left fun entry _ => ?_
        by_cases hid : entry.1 = id <;> simp [hid]
      simp only [hput]
      refine ih fun x b hb hx => ?_
      by_cases hid : x = id
      · subst hid
        rw [hfound] at hb
        cases hb
        exact if_pos rfl
      · rw [if_neg hid]
        exact h x b hb (by simp [hid, hx])

theorem leftBehind_rewrite (json : Json) (state : State) (event : Event) :
    ∃ f, leftBehind json state event = rewrite f state ∧
      ∀ id a, aggregateOf state id = some a → id ∉ touchedIds state event → f id a = a := by
  have hsame : ∃ f, state = rewrite f state ∧
      ∀ id a, aggregateOf state id = some a → id ∉ touchedIds state event → f id a = a :=
    ⟨fun _ a => a, (rewrite_id state).symm, fun _ _ _ _ => rfl⟩
  unfold leftBehind
  split
  · next hkind =>
    have hown : ∀ b, ∃ f, writeAggregate state event.delegateId b = rewrite f state ∧
        ∀ id a, aggregateOf state id = some a → id ∉ touchedIds state event → f id a = a := by
      intro b
      refine ⟨_, rfl, fun id a _ hid => if_neg fun heq => hid ?_⟩
      rw [mem_touchedIds, touchedDelegates_local (by rw [hkind]; rfl), heq, decide_eq_true rfl]
    unfold abandonedFinish
    split
    · exact hsame
    · split
      · exact hown _
      · split
        · exact hsame
        · exact hown _
  · exact hsame

/-! ## Transactions -/

/-- On a state whose descriptors are clones, the transaction is one checked turn of the fold, or
    nothing. -/
theorem apply_eq {json : Json} {state : State} (hkeys : KeysNodup Prod.fst state)
    (hcloned : Cloned state) (event : Event) :
    apply json state event =
      match validateEventEnvelope event >>= fun _ => applyWithProjectionRevisions json state event with
      | .ok after => (after, none)
      | .error err => (state, some err) := by
  unfold apply
  cases henvelope : validateEventEnvelope event with
  | error err => rfl
  | ok _ =>
    have hworking : rewrite (fun id aggregate =>
        if id ∈ touchedIds state event then cloneAggregate aggregate else aggregate) state = state := by
      rw [rewrite_congr hkeys (g := fun _ a => a), rewrite_id]
      intro id a ha
      split
      · unfold cloneAggregate
        rw [hcloned id a ha]
      · rfl
    show _ = match applyWithProjectionRevisions json state event with
      | .ok after => (after, none)
      | .error err => (state, some err)
    simp only [hworking]
    unfold applyWithProjectionRevisions
    cases hevent : applyEvent json state event with
    | error err =>
      obtain ⟨f, hleft, hf⟩ := leftBehind_rewrite json state event
      rw [hleft]
      show (restoreTouched state (touchedIds state event) (rewrite f state), some err) =
        (state, some err)
      rw [restoreTouched_rewrite hkeys hf]
    | ok after =>
      have hwrites := applyEvent_writes (envelope_delegateId henvelope) hevent
      have hafter : KeysNodup Prod.fst after := by
        have hevolves := applyEvent_evolves hkeys hevent
        cases hevolves with
        | created f b _ _ hnew _ _ =>
          have hnone : aggregateOf (rewrite f state) event.delegateId = none := by
            rw [aggregateOf_rewrite, hnew]
            rfl
          rw [← put_new hnone]
          refine keysNodup_put ?_ _
          unfold KeysNodup
          rw [keys_rewrite]
          exact hkeys
        | moved f label _ =>
          unfold KeysNodup
          rw [keys_rewrite]
          exact hkeys
      show (_, _) = (_, _)
      rw [rewrite_congr hafter]
      intro id a ha
      simp only [mem_touchedIds]
      split
      · cases horiginal : aggregateOf state id with
        | none => rfl
        | some original =>
          have hrevision := hwrites.revision id original a horiginal ha
          simp only [hrevision]
          split
          · rfl
          · rw [← hrevision]
      · rfl

/-- The revision of a touched aggregate that now reads `after`. -/
def revisionAfter (before : Option Aggregate) (after : Aggregate) : Nat :=
  match before with
  | none => 1
  | some original =>
    if publicProjection original ≠ publicProjection after then original.projectionRevision + 1
    else original.projectionRevision

theorem applyWithProjectionRevisions_spec (hid : event.delegateId ≠ "")
    (h : applyWithProjectionRevisions json state event = .ok state') :
    (∀ id, touchedDelegates state event id = false →
      aggregateOf state' id = aggregateOf state id) ∧
    ∀ id, touchedDelegates state event id = true →
      ∃ a, aggregateOf state' id = some a ∧
        a.projectionRevision = revisionAfter (aggregateOf state id) a := by
  unfold applyWithProjectionRevisions at h
  obtain ⟨after, hafter, h⟩ := bind_eq_ok.mp h
  cases h
  have hwrites := applyEvent_writes hid hafter
  constructor
  · intro id houtside
    rw [aggregateOf_rewrite, houtside, hwrites.frame id houtside]
    simp
  · intro id hin
    obtain ⟨a, ha⟩ := Option.isSome_iff_exists.mp (hwrites.held id hin)
    rw [aggregateOf_rewrite, ha]
    refine ⟨_, rfl, ?_⟩
    rw [hin]
    cases horiginal : aggregateOf state id with
    | none => rfl
    | some original =>
      have hrevision := hwrites.revision id original a horiginal ha
      simp only [if_true, revisionAfter]
      by_cases hshown : publicProjection original = publicProjection a
      · simp only [ne_eq, hshown, not_true_eq_false, if_false]
        exact hrevision
      · have hbumped : publicProjection
            { a with projectionRevision := a.projectionRevision + 1 } = publicProjection a := rfl
        rw [if_pos hshown, hbumped, if_pos hshown, ← hrevision]

theorem fold_snoc (h : fold json events = .ok state) :
    fold json (events ++ [event]) = .ok state' ↔
      event.seq = events.length + 1 ∧ validateEventEnvelope event = .ok () ∧
        applyWithProjectionRevisions json state event = .ok state' := by
  unfold fold at h ⊢
  rw [zipIdx_append, foldlM_append_eq_ok]
  have hone : ∀ s, ([event].zipIdx (0 + events.length)).foldlM (foldStep json) s = .ok state' ↔
      foldStep json s (event, events.length) = .ok state' := by
    intro s
    rw [Nat.zero_add]
    show (foldStep json s (event, events.length) >>= fun t => pure t) = .ok state' ↔ _
    rw [bind_pure]
  constructor
  · rintro ⟨middle, hmiddle, hstep⟩
    rw [h] at hmiddle
    cases hmiddle
    exact foldStep_eq_ok.mp ((hone state).mp hstep)
  · exact fun hstep => ⟨state, h, (hone state).mpr (foldStep_eq_ok.mpr hstep)⟩

/-- An event that the transaction accepts extends the journal. -/
theorem fold_of_apply {after : State} (h : fold json events = .ok state)
    (hseq : event.seq = events.length + 1) (happly : apply json state event = (after, none)) :
    fold json (events ++ [event]) = .ok after := by
  rw [apply_eq (fold_tracked h).sound.keys (fold_cloned h)] at happly
  split at happly
  · next hturn =>
    obtain ⟨_, henvelope, hafter⟩ := bind_eq_ok.mp hturn
    cases happly
    exact (fold_snoc h).mpr ⟨hseq, henvelope, hafter⟩
  · exact absurd (congrArg Prod.snd happly) (Option.some_ne_none _)

/-- The transaction accepts what the longer journal accepts, with its state; it writes the listed
    aggregates only, one revision up where the projection changed, and a refusal writes nothing. -/
theorem apply_extends_fold (json : Json) (events : List Event) (state : State) (event : Event)
    (h : fold json events = .ok state) (hseq : event.seq = events.length + 1) :
    (((apply json state event).2 = none ↔ ∃ after, fold json (events ++ [event]) = .ok after) ∧
      ∀ after, fold json (events ++ [event]) = .ok after →
        (apply json state event).1 = after) ∧
    ((apply json state event).2 ≠ none → (apply json state event).1 = state) ∧
    (∀ id, touchedDelegates state event id = false →
      aggregateOf (apply json state event).1 id = aggregateOf state id) ∧
    ((apply json state event).2 = none → ∀ id, touchedDelegates state event id = true →
      ∃ a, aggregateOf (apply json state event).1 id = some a ∧
        a.projectionRevision = revisionAfter (aggregateOf state id) a) := by
  have hkeys := (fold_tracked h).sound.keys
  have happly := @apply_eq json state hkeys (fold_cloned h) event
  cases hturn : validateEventEnvelope event >>= fun _ =>
      applyWithProjectionRevisions json state event with
  | error err =>
    rw [hturn] at happly
    have hrefused : ∀ after, fold json (events ++ [event]) ≠ .ok after := by
      intro after hafter
      obtain ⟨_, henvelope, hafter⟩ := (fold_snoc h).mp hafter
      rw [bind_eq_ok.mpr ⟨(), henvelope, hafter⟩] at hturn
      cases hturn
    rw [happly]
    refine ⟨⟨⟨fun hnone => (nomatch hnone), fun ⟨after, hafter⟩ => absurd hafter (hrefused after)⟩,
      fun after hafter => absurd hafter (hrefused after)⟩, fun _ => rfl, fun _ _ => rfl,
      fun hnone => nomatch hnone⟩
  | ok after =>
    rw [hturn] at happly
    obtain ⟨_, henvelope, hafter⟩ := bind_eq_ok.mp hturn
    have hfold := (fold_snoc h).mpr ⟨hseq, henvelope, hafter⟩
    obtain ⟨hframe, hrevision⟩ :=
      applyWithProjectionRevisions_spec (envelope_delegateId henvelope) hafter
    rw [happly]
    refine ⟨⟨⟨fun _ => ⟨after, hfold⟩, fun _ => rfl⟩, fun after' hafter' => ?_⟩,
      fun hsome => absurd rfl hsome, hframe, fun _ => hrevision⟩
    rw [hfold] at hafter'
    exact Except.ok.inj hafter'

/-- The request of `stoppedSubtree` after its first three events. -/
theorem apply_extends_fold_stoppedSubtree :
    ∃ state after, fold permissiveJson (stoppedSubtree.take 3) = .ok state ∧
      fold permissiveJson stoppedSubtree = .ok after ∧
      ∃ event, apply permissiveJson state event = (after, none) := by
  obtain ⟨state, hstate⟩ : ∃ state, fold permissiveJson (stoppedSubtree.take 3) = .ok state :=
    ⟨_, rfl⟩
  obtain ⟨after, hafter⟩ : ∃ after, fold permissiveJson stoppedSubtree = .ok after := ⟨_, rfl⟩
  let event : Event :=
    { kind := .delegateSubtreeStopRequested, seq := 4, delegateId := "p",
      subtreeStopRequested := some ⟨"p"⟩ }
  obtain ⟨⟨haccepts, hsame⟩, _⟩ :=
    apply_extends_fold permissiveJson (stoppedSubtree.take 3) state event hstate rfl
  refine ⟨state, after, hstate, hafter, event, ?_⟩
  exact Prod.ext (hsame after hafter) (haccepts.mpr ⟨after, hafter⟩)

/-! ## Revisions over a journal -/

theorem fold_prefix {json : Json} {more : List Event} (h : fold json (events ++ more) = .ok state') :
    ∃ state, fold json events = .ok state := by
  unfold fold at h ⊢
  rw [zipIdx_append] at h
  obtain ⟨middle, hmiddle, _⟩ := foldlM_append_eq_ok.mp h
  exact ⟨middle, hmiddle⟩

/-- What a delegate shows and the revision it shows it under, later in a journal. -/
structure Revised (a a' : Aggregate) (turns : Nat) : Prop where
  rises : a.projectionRevision ≤ a'.projectionRevision
  bounded : a'.projectionRevision ≤ a.projectionRevision + turns
  names : a'.projectionRevision = a.projectionRevision → publicProjection a' = publicProjection a

/-- A revision names what a delegate shows: at two moments of a journal of one revision it shows
    the same, and a later moment has no lower one. -/
theorem revision_names_projection (json : Json) (events more : List Event) (state state' : State)
    (h : fold json events = .ok state) (hmore : fold json (events ++ more) = .ok state') (id : String)
    (a : Aggregate) (ha : aggregateOf state id = some a) :
    ∃ a', aggregateOf state' id = some a' ∧ Revised a a' more.length := by
  induction more using List.reverseRecOn generalizing state' with
  | nil =>
    rw [append_nil, h] at hmore
    cases hmore
    exact ⟨a, ha, Nat.le_refl _, Nat.le_refl _, fun _ => rfl⟩
  | append_singleton more event ih =>
    rw [← append_assoc] at hmore
    obtain ⟨middle, hmiddle⟩ := fold_prefix hmore
    obtain ⟨b, hb, hrises, hbounded, hnames⟩ := ih middle hmiddle
    obtain ⟨_, henvelope, hafter⟩ := (fold_snoc hmiddle).mp hmore
    obtain ⟨hframe, hrevision⟩ :=
      applyWithProjectionRevisions_spec (envelope_delegateId henvelope) hafter
    rw [length_append]
    cases hin : touchedDelegates middle event id with
    | false =>
      exact ⟨b, (hframe id hin).trans hb, hrises, Nat.le_succ_of_le hbounded, hnames⟩
    | true =>
      obtain ⟨c, hc, hturn⟩ := hrevision id hin
      rw [hb] at hturn
      refine ⟨c, hc, ?_⟩
      unfold revisionAfter at hturn
      dsimp only at hturn
      split at hturn
      · exact ⟨by omega, by simp; omega, fun heq => by omega⟩
      · next hshown =>
        have hsame : publicProjection b = publicProjection c := not_not.mp hshown
        exact ⟨by omega, by simp; omega, fun heq => hsame ▸ hnames (hturn ▸ heq)⟩

/-- What the parent of `stoppedSubtree` shows before the stop and after it. -/
theorem revision_names_projection_stoppedSubtree :
    ∃ state state' a a', fold permissiveJson (stoppedSubtree.take 3) = .ok state ∧
      aggregateOf state "p" = some a ∧ aggregateOf state' "p" = some a' ∧
      Revised a a' (stoppedSubtree.drop 3).length := by
  obtain ⟨state, hstate⟩ : ∃ state, fold permissiveJson (stoppedSubtree.take 3) = .ok state :=
    ⟨_, rfl⟩
  obtain ⟨state', hstate'⟩ : ∃ state',
      fold permissiveJson (stoppedSubtree.take 3 ++ stoppedSubtree.drop 3) = .ok state' := ⟨_, rfl⟩
  obtain ⟨a, ha⟩ : ∃ a, aggregateOf state "p" = some a := by
    cases hstate
    exact ⟨_, rfl⟩
  obtain ⟨a', ha', hrevised⟩ := revision_names_projection permissiveJson (stoppedSubtree.take 3)
    (stoppedSubtree.drop 3) state state' hstate hstate' "p" a ha
  exact ⟨state, state', a, a', hstate, ha, ha', hrevised⟩

end Evener.Delegatestore
