/-
  What a longer journal cannot change: the facts of a job that ended, and the progress of its
  notification.
-/
import Evener.Jobstore.Fold

namespace Evener.Jobstore

open Evener.Lib

/-- What the first terminal `job_finished` fixes. -/
structure TerminalFacts where
  status : Status
  reason : String
  exhaustionBudget : String
  exhaustionLimit : Int
  exitCode : Option Int
  endedAt : Option Int
  outputBytes : Int
  structuredResult : JsValue
  structuredResultValid : Option Bool
  structuredResultReason : String
  terminalGen : String

def JobRecord.terminalFacts (r : JobRecord) : TerminalFacts where
  status := r.status
  reason := r.reason
  exhaustionBudget := r.exhaustionBudget
  exhaustionLimit := r.exhaustionLimit
  exitCode := r.exitCode
  endedAt := r.endedAt
  outputBytes := r.outputBytes
  structuredResult := r.structuredResult
  structuredResultValid := r.structuredResultValid
  structuredResultReason := r.structuredResultReason
  terminalGen := r.terminalGen

/-- The record's notification is still to be injected. -/
def shouldDeliver (r : JobRecord) : Bool := r.notifyState = .pending

def isNotificationKind : EventKind → Bool
  | .jobNotificationPending | .jobNotificationDelivered | .jobNotificationConsumed => true
  | _ => false

/-- The moves of the notification state. A caller may learn of the end before it is armed. -/
inductive NotifyMove : NotifyState → NotifyState → Prop where
  | armed : NotifyMove .notArmed .pending
  | consumedUnarmed : NotifyMove .notArmed .consumed
  | deliveredUnarmed : NotifyMove .notArmed .delivered
  | consumed : NotifyMove .pending .consumed
  | delivered : NotifyMove .pending .delivered
  | deliveredConsumed : NotifyMove .consumed .delivered

/-- Zero or more moves. -/
def Climbs (a b : NotifyState) : Prop := a = b ∨ NotifyMove a b

theorem Climbs.refl (a : NotifyState) : Climbs a a := Or.inl rfl

theorem Climbs.trans {a b c : NotifyState} (h : Climbs a b) (h' : Climbs b c) : Climbs a c := by
  rcases h with rfl | h
  · exact h'
  · rcases h' with rfl | h'
    · exact Or.inr h
    · right
      cases h <;> cases h' <;> constructor

theorem Climbs.of_delivered {b : NotifyState} (h : Climbs .delivered b) : b = .delivered := by
  rcases h with rfl | h
  · rfl
  · exact nomatch h

/-! ## One event -/

/-- The event is a notification under the record's own terminal generation. -/
def NotifiesRecord (r : JobRecord) (e : Event) : Prop :=
  isNotificationKind e.kind = true ∧ r.terminalGen ≠ "" ∧ e.terminalGen = r.terminalGen

/-- What one event may do to a record. -/
structure RecordStep (r r' : JobRecord) (e : Event) : Prop where
  facts : r.status.isTerminal = true → r'.terminalFacts = r.terminalFacts
  climbs : Climbs r.notifyState r'.notifyState
  notified : r'.notifyState ≠ r.notifyState → NotifiesRecord r e

variable {r : JobRecord} {e : Event} {id : String} {recs : JobRecords}

theorem RecordStep.of_same {r' : JobRecord}
    (hfacts : r.status.isTerminal = true → r'.terminalFacts = r.terminalFacts)
    (hnotify : r'.notifyState = r.notifyState) : RecordStep r r' e :=
  ⟨hfacts, Or.inl hnotify.symm, fun h => absurd hnotify h⟩

theorem recordStep_started (r : JobRecord) (e : Event) : RecordStep r (startedRecord r e) e := by
  refine RecordStep.of_same (fun hterminal => ?_) rfl
  have hset : r.status ≠ .unset := by
    intro h
    rw [h] at hterminal
    exact Bool.false_ne_true hterminal
  unfold startedRecord JobRecord.terminalFacts
  simp [hset]

/-- A notification that matches writes the state it climbs to, and no terminal fact. -/
theorem recordStep_notified {r' : JobRecord}
    (hmatch : notificationMatchesTerminalGeneration r e = true)
    (hkind : isNotificationKind e.kind = true) (hfacts : r'.terminalFacts = r.terminalFacts)
    (hclimbs : Climbs r.notifyState r'.notifyState) : RecordStep r r' e := by
  refine ⟨fun _ => hfacts, hclimbs, fun _ => ⟨hkind, ?_⟩⟩
  simpa [notificationMatchesTerminalGeneration] using hmatch

theorem applyEvent_step (r : JobRecord) (e : Event) : RecordStep r (applyEvent r e) e := by
  have hsame : RecordStep r r e := RecordStep.of_same (fun _ => rfl) rfl
  unfold applyEvent
  split
  · exact recordStep_started r e
  · split
    · exact hsame
    · next hopen => exact RecordStep.of_same (fun hterminal => absurd hterminal hopen) rfl
  · next hkind =>
    split
    · next hmatch =>
      refine recordStep_notified hmatch (by rw [hkind]; rfl) rfl ?_
      show Climbs r.notifyState (if r.notifyState = .notArmed then .pending else r.notifyState)
      split
      · next hstate =>
        rw [hstate]
        exact Or.inr NotifyMove.armed
      · exact Climbs.refl _
    · exact hsame
  · next hkind =>
    split
    · next hmatch =>
      refine recordStep_notified hmatch (by rw [hkind]; rfl) rfl ?_
      show Climbs r.notifyState .delivered
      cases r.notifyState
      · exact Or.inr NotifyMove.deliveredUnarmed
      · exact Or.inr NotifyMove.delivered
      · exact Climbs.refl _
      · exact Or.inr NotifyMove.deliveredConsumed
    · exact hsame
  · next hkind =>
    split
    · next hmatch =>
      refine recordStep_notified hmatch (by rw [hkind]; rfl) rfl ?_
      show Climbs r.notifyState (if r.notifyState ≠ .delivered then .consumed else r.notifyState)
      cases r.notifyState
      · exact Or.inr NotifyMove.consumedUnarmed
      · exact Or.inr NotifyMove.consumed
      · exact Climbs.refl _
      · exact Climbs.refl _
    · exact hsame
  · exact hsame

/-! ## One event of the journal -/

theorem lookup_applyJobEvent (recs : JobRecords) (e : Event) (id : String) :
    lookup jobKey id (applyJobEvent recs e) =
      if isJobRecordEventKind e.kind = true ∧ e.jobId = id then
        some (applyEvent (recordFor recs id) e) else lookup jobKey id recs := by
  unfold applyJobEvent
  by_cases hkind : isJobRecordEventKind e.kind = true
  · rw [if_pos hkind, lookup_put]
    have hkey : jobKey (applyEvent (recordFor recs e.jobId) e) = e.jobId := by
      rw [jobKey, applyEvent_jobId, recordFor_jobId]
    rw [hkey]
    by_cases hid : e.jobId = id
    · subst hid
      rw [if_pos rfl, if_pos ⟨hkind, rfl⟩]
    · rw [if_neg hid, if_neg fun h => hid h.2]
  · rw [if_neg hkind, if_neg fun h => hkind h.1]

theorem recordFor_of_lookup (h : lookup jobKey id recs = some r) : recordFor recs id = r := by
  unfold recordFor
  rw [h]
  rfl

/-- A held record stays, and an event either passes it by or steps it. -/
theorem lookup_applyJobEvent_step (h : lookup jobKey id recs = some r) (e : Event) :
    ∃ r', lookup jobKey id (applyJobEvent recs e) = some r' ∧
      (r' = r ∨ (e.jobId = id ∧ RecordStep r r' e)) := by
  rw [lookup_applyJobEvent, recordFor_of_lookup h]
  split
  · next hhit => exact ⟨_, rfl, Or.inr ⟨hhit.2, applyEvent_step r e⟩⟩
  · exact ⟨r, h, Or.inl rfl⟩

/-! ## Extensions -/

/-- The event that first moves a notification that was not armed, in the log `l` after `recs`. -/
def Arms (recs : JobRecords) (l : List Event) (id : String) : Prop :=
  ∃ before e after, l = before ++ e :: after ∧ e.jobId = id ∧
    ∃ q, lookup jobKey id (before.foldl applyJobEvent recs) = some q ∧
      q.notifyState = .notArmed ∧ NotifiesRecord q e

theorem Arms.cons {l : List Event} (h : Arms (applyJobEvent recs e) l id) :
    Arms recs (e :: l) id := by
  obtain ⟨before, e', after, rfl, hid, q, hq, hstate, hnotifies⟩ := h
  exact ⟨e :: before, e', after, rfl, hid, q, hq, hstate, hnotifies⟩

/-- The facts, the climb and the arming event over a whole log. -/
theorem foldl_applyJobEvent_step (l : List Event) (h : lookup jobKey id recs = some r) :
    ∃ r', lookup jobKey id (l.foldl applyJobEvent recs) = some r' ∧
      (r.status.isTerminal = true → r'.terminalFacts = r.terminalFacts) ∧
      Climbs r.notifyState r'.notifyState ∧
      (r.notifyState = .notArmed → r'.notifyState ≠ .notArmed → Arms recs l id) := by
  induction l generalizing recs r with
  | nil => exact ⟨r, h, fun _ => rfl, Climbs.refl _, fun hstate hne => absurd hstate hne⟩
  | cons e l ih =>
    obtain ⟨q, hq, hstep⟩ := lookup_applyJobEvent_step h e
    obtain ⟨r', hr', hfacts, hclimbs, harms⟩ := ih hq
    refine ⟨r', hr', ?_⟩
    rcases hstep with rfl | ⟨hid, hstep⟩
    · exact ⟨hfacts, hclimbs, fun hstate hne => (harms hstate hne).cons⟩
    · refine ⟨fun hterminal => ?_, hstep.climbs.trans hclimbs, fun hstate hne => ?_⟩
      · have hq' := hstep.facts hterminal
        have hstatus : q.status = r.status := congrArg TerminalFacts.status hq'
        exact (hfacts (hstatus ▸ hterminal)).trans hq'
      · by_cases hqstate : q.notifyState = .notArmed
        · exact (harms hqstate hne).cons
        · have hmoved : q.notifyState ≠ r.notifyState := fun heq => hqstate (heq.trans hstate)
          exact ⟨[], e, l, rfl, hid, r, h, hstate, hstep.notified hmoved⟩

/-- Over any extension of a journal, the facts of a job that ended stay, its notification climbs,
    and it is armed by an event of its own terminal generation. So the records of ended jobs
    offer one generation for delivery at most. -/
theorem terminal_final (events more : List Event) (h : ∀ a ∈ events, ∀ b ∈ more, a.seq < b.seq)
    (id : String) (r : JobRecord) (hr : lookup jobKey id (fold events) = some r) :
    ∃ r', lookup jobKey id (fold (events ++ more)) = some r' ∧
      (r.status.isTerminal = true → r'.terminalFacts = r.terminalFacts) ∧
      (r'.notifyState = r.notifyState ∨ NotifyMove r.notifyState r'.notifyState) ∧
      (r.notifyState = .delivered → r'.notifyState = .delivered) ∧
      (r.notifyState = .notArmed → r'.notifyState ≠ .notArmed →
        ∃ before e after, bySeq more = before ++ e :: after ∧ e.jobId = id ∧
          isNotificationKind e.kind = true ∧
          ∃ q, lookup jobKey id (fold (events ++ before)) = some q ∧ q.notifyState = .notArmed ∧
            q.terminalGen ≠ "" ∧ e.terminalGen = q.terminalGen) ∧
      (r.status.isTerminal = true → shouldDeliver r = true → shouldDeliver r' = true →
        r'.terminalGen = r.terminalGen) := by
  obtain ⟨r', hr', hfacts, hclimbs, harms⟩ := foldl_applyJobEvent_step (bySeq more) hr
  rw [← fold_append h] at hr'
  refine ⟨r', hr', hfacts, hclimbs.imp Eq.symm fun hmove => hmove, fun hstate => ?_, ?_, ?_⟩
  · rw [hstate] at hclimbs
    exact hclimbs.of_delivered
  · intro hstate hne
    obtain ⟨before, e, after, hsplit, hid, q, hq, hqstate, hkind, hgen, hmatch⟩ := harms hstate hne
    refine ⟨before, e, after, hsplit, hid, hkind, q, ?_, hqstate, hgen, hmatch⟩
    -- the part before the arming event is in `seq` order already
    have hsorted : (bySeq more).Pairwise fun a b => a.seq ≤ b.seq := sortBy_pairwise more
    rw [hsplit] at hsorted
    have hself : bySeq before = before := sortBy_eq_self (List.pairwise_append.mp hsorted).1
    have hlt : ∀ a ∈ events, ∀ b ∈ before, a.seq < b.seq := by
      intro a ha b hb
      have hmem : b ∈ bySeq more := by
        rw [hsplit]
        exact List.mem_append_left _ hb
      exact h a ha b (mem_sortBy.mp hmem)
    rw [fold_append hlt, hself]
    exact hq
  · intro hterminal _ _
    exact congrArg TerminalFacts.terminalGen (hfacts hterminal)

/-- A job that ended under generation `g`. -/
def endedJob : List Event :=
  [{ kind := .jobStarted, seq := 1, jobId := "a" },
    { kind := .jobFinished, seq := 2, jobId := "a", status := .completed, terminalGen := "g" }]

def consumedEvent : Event :=
  { kind := .jobNotificationConsumed, seq := 3, jobId := "a", terminalGen := "g" }

theorem terminal_final_endedJob :
    ∃ r r', lookup jobKey "a" (fold endedJob) = some r ∧
      lookup jobKey "a" (fold (endedJob ++ [consumedEvent])) = some r' ∧
      r.status = .completed ∧ r'.terminalFacts = r.terminalFacts := by
  obtain ⟨r, hr⟩ : ∃ r, lookup jobKey "a" (fold endedJob) = some r := ⟨_, rfl⟩
  have hstatus : (lookup jobKey "a" (fold endedJob)).map (·.status) = some .completed := by decide
  rw [hr] at hstatus
  have hcompleted : r.status = .completed := Option.some.inj hstatus
  obtain ⟨r', hr', hfacts, -⟩ := terminal_final endedJob [consumedEvent] (by decide) "a" r hr
  exact ⟨r, r', hr, hr', hcompleted, hfacts (by rw [hcompleted]; rfl)⟩

/-- A job whose `job_finished` has a status the program does not know is still open: a second one
    replaces its generation under a notification already armed. -/
def finishedTwice : List Event :=
  [{ kind := .jobFinished, seq := 1, jobId := "a", status := .unknown "paused", terminalGen := "g" },
    { kind := .jobNotificationPending, seq := 2, jobId := "a", terminalGen := "g" }]

def secondFinish : Event :=
  { kind := .jobFinished, seq := 3, jobId := "a", status := .completed, terminalGen := "h" }

/-- A notification may be consumed without ever being pending, and an unknown status lets two
    generations be offered for delivery. -/
theorem notification_skips_pending :
    ((lookup jobKey "a" (fold endedJob)).map (·.notifyState) = some .notArmed ∧
      (lookup jobKey "a" (fold (endedJob ++ [consumedEvent]))).map (·.notifyState) =
        some .consumed) ∧
    ((lookup jobKey "a" (fold finishedTwice)).map (fun r => (shouldDeliver r, r.terminalGen)) =
        some (true, "g") ∧
      (lookup jobKey "a" (fold (finishedTwice ++ [secondFinish]))).map
        (fun r => (shouldDeliver r, r.terminalGen)) = some (true, "h")) := by
  decide

end Evener.Jobstore
