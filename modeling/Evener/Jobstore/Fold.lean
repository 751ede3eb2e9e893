/-
  The folds of the job journal: job records, watches and pending watch-send frames, each from the
  events in `seq` order, and `apply`, which extends a held fold by one event.
-/
import Evener.Lib.StableSort
import Evener.Jobstore.Records
import Mathlib.Data.List.Induction

namespace Evener.Jobstore

open Evener.Lib
open List hiding lookup

/-! ## One job record -/

def notificationMatchesTerminalGeneration (r : JobRecord) (e : Event) : Bool :=
  r.terminalGen ≠ "" && e.terminalGen = r.terminalGen

/-- `job_started` on a record. -/
def startedRecord (r : JobRecord) (e : Event) : JobRecord :=
  { r with
    type := e.type
    command := e.command
    background := r.background || e.background
    intent := e.intent
    workingDir := e.workingDir
    task := e.task
    description := e.description
    parentSessionId := e.parentSessionId
    ownerSessionId := e.ownerSessionId
    visibleToSession := e.visibleToSession
    parentJobId := e.parentJobId
    parentDelegateId := e.parentDelegateId
    originTurnId := e.originTurnId
    originToolCallId := e.originToolCallId
    originItemId := e.originItemId
    provenance := cloneProvenance e.provenance
    outputPath := e.outputPath
    startedAt := e.startedAt.getD r.startedAt
    status := if r.status = .unset then .running else r.status }

/-- `job_finished` on a record whose status is not terminal. -/
def finishedRecord (r : JobRecord) (e : Event) : JobRecord :=
  { r with
    status := e.status
    reason := e.reason
    exhaustionBudget := e.exhaustionBudget
    exhaustionLimit := e.exhaustionLimit
    exitCode := e.exitCode
    endedAt := e.endedAt
    outputBytes := e.outputBytes
    structuredResult := e.structuredResult
    structuredResultValid := e.structuredResultValid
    structuredResultReason := if e.structuredResultValid = some false then
      e.structuredResultReason else r.structuredResultReason
    provenance := if e.provenance.isSome then cloneProvenance e.provenance else r.provenance
    terminalGen := e.terminalGen }

def applyEvent (r : JobRecord) (e : Event) : JobRecord :=
  match e.kind with
  | .jobStarted => startedRecord r e
  | .jobFinished => if r.status.isTerminal then r else finishedRecord r e
  | .jobNotificationPending =>
    if notificationMatchesTerminalGeneration r e then
      { r with
        notifyState := if r.notifyState = .notArmed then .pending else r.notifyState
        notificationProvenance := if e.provenance.isSome then cloneProvenance e.provenance
          else r.notificationProvenance }
    else r
  | .jobNotificationDelivered =>
    if notificationMatchesTerminalGeneration r e then { r with notifyState := .delivered } else r
  | .jobNotificationConsumed =>
    if notificationMatchesTerminalGeneration r e then
      { r with notifyState := if r.notifyState ≠ .delivered then .consumed else r.notifyState }
    else r
  | _ => r

/-! ## The folds -/

def isJobRecordEventKind : EventKind → Bool
  | .jobStarted | .jobFinished | .jobMessageSent | .jobNotificationPending
  | .jobNotificationDelivered | .jobNotificationConsumed => true
  | _ => false

/-- The record an event of the job finds, or the one it creates. -/
def recordFor (recs : JobRecords) (jobId : String) : JobRecord :=
  (lookup jobKey jobId recs).getD { jobId := jobId, notifyState := .notArmed }

def applyJobEvent (recs : JobRecords) (event : Event) : JobRecords :=
  if isJobRecordEventKind event.kind then
    put jobKey (applyEvent (recordFor recs event.jobId) event) recs
  else recs

/-- The watch a registration stores. -/
def registeredWatch (watchId : String) (watch : WatchEvent) : WatchRecord :=
  let config := watch.config.getD {}
  { watchId := watchId
    generation := watch.generation
    ownerSessionId := watch.ownerSessionId
    visibleSessionId := watch.visibleSessionId
    target := watch.target
    sendTo := watch.sendTo
    configHash := watch.configHash
    condition := watch.condition
    deliveries := watch.deliveries
    active := true
    hubRef := config.hubRef
    receiverSessionId := config.receiverSessionId
    receiverDelegateId := config.receiverDelegateId
    source := config.source
    sourceDelegateId := config.sourceDelegateId
    sourceDelegateGeneration := config.sourceDelegateGeneration
    stableReceiver := config.stableReceiver }

def applyWatchEvent (watches : WatchRecords) (e : Event) : WatchRecords :=
  match e.watch with
  | none => watches
  | some watch =>
    if e.watchId = "" then watches
    else match e.kind with
      | .watchRegistered =>
        if watch.generation = "" || watch.ownerSessionId = "" || watch.visibleSessionId = "" ||
            watch.target = "" || watch.configHash = "" then watches
        else put watchKey (registeredWatch e.watchId watch) watches
      | .watchCleared =>
        if watch.generation = "" then watches
        else match lookup watchKey e.watchId watches with
          | none => watches
          | some w =>
            if w.generation ≠ watch.generation || !w.active then watches
            else put watchKey { w with active := false, endReason := watch.endReason } watches
      | _ => watches

/-- The pending frames and the updates settled per slot, while the fold runs. -/
structure SendFold where
  pending : List WatchSendState := []
  terminalSeq : List (WatchSendKey × Nat) := []

def applySendEvent (acc : SendFold) (e : Event) : SendFold :=
  match e.watchSend with
  | none => acc
  | some send =>
    let settled := (lookup Prod.fst send.key acc.terminalSeq).map Prod.snd
    let pending := lookup sendKey send.key acc.pending
    match e.kind with
    | .watchSendPending =>
      if settled.any (send.updateSeq ≤ ·) then acc
      else if pending.any (send.updateSeq < ·.updateSeq) then acc
      else { acc with
        pending := put sendKey { send with provenance := cloneProvenance send.provenance }
          acc.pending }
    | .watchSendDelivered | .watchSendDropped | .watchSendEvicted =>
      { pending := if pending.any (·.updateSeq ≤ send.updateSeq) then
          erase sendKey send.key acc.pending else acc.pending
        terminalSeq := if settled.all (· < send.updateSeq) then
          put Prod.fst (send.key, send.updateSeq) acc.terminalSeq else acc.terminalSeq }
    | _ => acc

/-- The events in `seq` order (`sort.SliceStable`). -/
def bySeq (events : List Event) : List Event := sortBy Event.seq events

def fold (events : List Event) : JobRecords := (bySeq events).foldl applyJobEvent []

def foldWatches (events : List Event) : WatchRecords := (bySeq events).foldl applyWatchEvent []

def foldWatchSends (events : List Event) : WatchSendRecord :=
  ⟨((bySeq events).foldl applySendEvent {}).pending⟩

/-- The records and the ids in the order of their first event, while `foldOrdered` runs. -/
structure OrderedFold where
  recs : JobRecords := []
  order : List String := []

def applyOrdered (acc : OrderedFold) (e : Event) : OrderedFold :=
  if isJobRecordEventKind e.kind then
    { recs := applyJobEvent acc.recs e
      order := if (lookup jobKey e.jobId acc.recs).isNone then acc.order ++ [e.jobId]
        else acc.order }
  else acc

def foldOrdered (events : List Event) : List JobRecord :=
  let acc := (bySeq events).foldl applyOrdered {}
  acc.order.filterMap fun id => lookup jobKey id acc.recs

/-- Extend a held read fold by one event of the journal. -/
def apply (held : JobRecords × WatchRecords) (event : Event) : JobRecords × WatchRecords :=
  (applyJobEvent held.1 event, applyWatchEvent held.2 event)

/-! ## Keys -/

theorem applyEvent_jobId (r : JobRecord) (e : Event) : (applyEvent r e).jobId = r.jobId := by
  unfold applyEvent
  repeat' split
  all_goals rfl

theorem recordFor_jobId (recs : JobRecords) (jobId : String) :
    (recordFor recs jobId).jobId = jobId := by
  unfold recordFor
  cases h : lookup jobKey jobId recs with
  | none => rfl
  | some r => exact key_of_lookup h

theorem map_jobKey_applyJobEvent (recs : JobRecords) (e : Event) :
    (applyJobEvent recs e).map jobKey =
      if isJobRecordEventKind e.kind = true ∧ e.jobId ∉ recs.map jobKey then
        recs.map jobKey ++ [e.jobId] else recs.map jobKey := by
  have hkey : jobKey (applyEvent (recordFor recs e.jobId) e) = e.jobId := by
    rw [jobKey, applyEvent_jobId, recordFor_jobId]
  unfold applyJobEvent
  by_cases hkind : isJobRecordEventKind e.kind = true
  · rw [if_pos hkind, map_key_put, hkey]
    by_cases hmem : e.jobId ∈ recs.map jobKey
    · rw [if_pos hmem, if_neg fun h => h.2 hmem]
    · rw [if_neg hmem, if_pos ⟨hkind, hmem⟩]
  · rw [if_neg hkind, if_neg fun h => hkind h.1]

variable {recs : JobRecords} {events more : List Event} {n : Int}

theorem keysNodup_applyJobEvent (h : KeysNodup jobKey recs) (e : Event) :
    KeysNodup jobKey (applyJobEvent recs e) := by
  unfold applyJobEvent
  split
  · exact keysNodup_put h _
  · exact h

theorem keysNodup_foldl_applyJobEvent (h : KeysNodup jobKey recs) (l : List Event) :
    KeysNodup jobKey (l.foldl applyJobEvent recs) :=
  List.foldlRecOn l applyJobEvent h fun _ hrecs e _ => keysNodup_applyJobEvent hrecs e

theorem keysNodup_fold (events : List Event) : KeysNodup jobKey (fold events) :=
  keysNodup_foldl_applyJobEvent keysNodup_nil _

theorem lookup_isNone_iff {id : String} :
    (lookup jobKey id recs).isNone = true ↔ id ∉ recs.map jobKey := by
  rw [Option.isNone_iff_eq_none, lookup_eq_none, mem_map]
  exact ⟨fun h ⟨r, hr, hkey⟩ => h r hr hkey, fun h r hr hkey => h ⟨r, hr, hkey⟩⟩

/-! ## One function of the set of events -/

theorem bySeq_eq_of_perm {events' : List Event} (h : KeysNodup Event.seq events)
    (hp : events.Perm events') : bySeq events = bySeq events' := sortBy_eq_of_perm h hp

/-- The two folds `apply` extends do not look at each other. -/
theorem foldl_apply (l : List Event) (held : JobRecords × WatchRecords) :
    l.foldl apply held = (l.foldl applyJobEvent held.1, l.foldl applyWatchEvent held.2) := by
  induction l generalizing held with
  | nil => rfl
  | cons e l ih => exact ih _

theorem bySeq_append (h : ∀ a ∈ events, ∀ b ∈ more, a.seq < b.seq) :
    bySeq (events ++ more) = bySeq events ++ bySeq more :=
  sortBy_append fun a ha b hb => (h a ha b hb).le

theorem fold_append (h : ∀ a ∈ events, ∀ b ∈ more, a.seq < b.seq) :
    fold (events ++ more) = (bySeq more).foldl applyJobEvent (fold events) := by
  unfold fold
  rw [bySeq_append h, foldl_append]

theorem foldWatches_append (h : ∀ a ∈ events, ∀ b ∈ more, a.seq < b.seq) :
    foldWatches (events ++ more) = (bySeq more).foldl applyWatchEvent (foldWatches events) := by
  unfold foldWatches
  rw [bySeq_append h, foldl_append]

/-! ## The order of first events -/

/-- The ordered fold lists the records of the plain one, in the order they were created. -/
theorem foldl_applyOrdered (l : List Event) :
    l.foldl applyOrdered {} =
      ⟨l.foldl applyJobEvent [], (l.foldl applyJobEvent []).map jobKey⟩ := by
  induction l using List.reverseRecOn with
  | nil => rfl
  | append_singleton l e ih =>
    rw [foldl_append, foldl_append, ih]
    show applyOrdered _ e = OrderedFold.mk (applyJobEvent _ e) ((applyJobEvent _ e).map jobKey)
    rw [map_jobKey_applyJobEvent]
    unfold applyOrdered
    by_cases hkind : isJobRecordEventKind e.kind = true
    · rw [if_pos hkind]
      by_cases hmem : e.jobId ∈ (l.foldl applyJobEvent []).map jobKey
      · rw [if_neg (fun h => (lookup_isNone_iff).mp h hmem), if_neg fun h => h.2 hmem]
      · rw [if_pos ((lookup_isNone_iff).mpr hmem), if_pos ⟨hkind, hmem⟩]
    · rw [if_neg hkind, if_neg fun h => hkind h.1]
      unfold applyJobEvent
      rw [if_neg hkind]

theorem foldOrdered_eq_fold (events : List Event) : foldOrdered events = fold events := by
  have hkeys := keysNodup_fold events
  unfold foldOrdered
  rw [foldl_applyOrdered]
  show ((fold events).map jobKey).filterMap (fun id => lookup jobKey id (fold events)) = _
  rw [filterMap_map]
  have hself : ∀ r ∈ fold events, lookup jobKey (jobKey r) (fold events) = some r :=
    fun r hr => (lookup_eq_some hkeys).mpr ⟨hr, rfl⟩
  exact (filterMap_congr hself).trans filterMap_some

/-- The `seq`s of the events that fold into the job's record. -/
def jobSeqs (events : List Event) (jobId : String) : List Int :=
  (events.filter fun e => isJobRecordEventKind e.kind && e.jobId = jobId).map Event.seq

/-- The `seq` of the job's first event. -/
def firstSeq (events : List Event) (jobId : String) : Option Int := (jobSeqs events jobId).min?

theorem mem_jobSeqs {jobId : String} :
    n ∈ jobSeqs events jobId ↔
      ∃ e ∈ events, isJobRecordEventKind e.kind = true ∧ e.jobId = jobId ∧ e.seq = n := by
  simp [jobSeqs, and_assoc]

theorem firstSeq_eq_some {jobId : String} :
    firstSeq events jobId = some n ↔
      n ∈ jobSeqs events jobId ∧ ∀ m ∈ jobSeqs events jobId, n ≤ m :=
  min?_eq_some_iff

/-- The order of two records whose events are `l`. -/
def FirstBefore (l : List Event) (id id' : String) : Prop :=
  ∃ n n', firstSeq l id = some n ∧ firstSeq l id' = some n' ∧ n < n'

theorem jobSeqs_append (l l' : List Event) (id : String) :
    jobSeqs (l ++ l') id = jobSeqs l id ++ jobSeqs l' id := by
  simp [jobSeqs]

/-- A later event does not change which event of the job came first. -/
theorem firstSeq_append {l : List Event} {e : Event} (h : ∀ a ∈ l, a.seq < e.seq) {id : String}
    (hn : firstSeq l id = some n) : firstSeq (l ++ [e]) id = some n := by
  obtain ⟨hmem, hle⟩ := (firstSeq_eq_some).mp hn
  refine (firstSeq_eq_some).mpr ⟨?_, fun m hm => ?_⟩
  · rw [jobSeqs_append]
    exact mem_append_left _ hmem
  · rw [jobSeqs_append] at hm
    rcases mem_append.mp hm with hm | hm
    · exact hle m hm
    · obtain ⟨a, ha, -, -, hseq⟩ := (mem_jobSeqs).mp hmem
      obtain ⟨b, hb, -, -, hseq'⟩ := (mem_jobSeqs).mp hm
      rw [mem_singleton] at hb
      subst hb
      have := h a ha
      omega

/-- Every event of a job leaves the job a record. -/
theorem mem_keys_of_event {l : List Event} {e : Event} (he : e ∈ l)
    (hkind : isJobRecordEventKind e.kind = true) :
    e.jobId ∈ (l.foldl applyJobEvent []).map jobKey := by
  induction l using List.reverseRecOn with
  | nil => exact absurd he not_mem_nil
  | append_singleton l a ih =>
    rw [foldl_append]
    show e.jobId ∈ (applyJobEvent _ a).map jobKey
    rw [map_jobKey_applyJobEvent]
    rcases mem_append.mp he with he | he
    · have hheld := ih he
      split
      · exact mem_append_left _ hheld
      · exact hheld
    · rw [mem_singleton] at he
      subst he
      split
      · exact mem_append_right _ mem_cons_self
      · next hnot => exact not_not.mp fun hmem => hnot ⟨hkind, hmem⟩

/-- Records stand in the order of their first events, over a log in `seq` order. -/
theorem foldl_applyJobEvent_ordered (l : List Event) (h : l.Pairwise fun a b => a.seq < b.seq) :
    ((l.foldl applyJobEvent []).map jobKey).Pairwise (FirstBefore l) ∧
      ∀ id ∈ (l.foldl applyJobEvent []).map jobKey, ∃ n, firstSeq l id = some n := by
  induction l using List.reverseRecOn with
  | nil => exact ⟨List.Pairwise.nil, fun _ hid => absurd hid not_mem_nil⟩
  | append_singleton l e ih =>
    obtain ⟨hl, -, hlast⟩ := pairwise_append.mp h
    have hlt : ∀ a ∈ l, a.seq < e.seq := fun a ha => hlast a ha e mem_cons_self
    obtain ⟨hpair, hfirst⟩ := ih hl
    have hpair' : ((l.foldl applyJobEvent []).map jobKey).Pairwise (FirstBefore (l ++ [e])) := by
      refine hpair.imp fun {id id'} hbefore => ?_
      obtain ⟨n, n', hn, hn', hlt'⟩ := hbefore
      exact ⟨n, n', firstSeq_append hlt hn, firstSeq_append hlt hn', hlt'⟩
    rw [foldl_append]
    show ((applyJobEvent _ e).map jobKey).Pairwise _ ∧ ∀ id ∈ (applyJobEvent _ e).map jobKey, _
    rw [map_jobKey_applyJobEvent]
    split
    · next hnew =>
      -- the job's first event is the last one so far
      have hseq : firstSeq (l ++ [e]) e.jobId = some e.seq := by
        refine (firstSeq_eq_some).mpr ⟨(mem_jobSeqs).mpr ⟨e, by simp, hnew.1, rfl, rfl⟩, fun m hm => ?_⟩
        obtain ⟨a, ha, hkind, hid, rfl⟩ := (mem_jobSeqs).mp hm
        rcases mem_append.mp ha with ha | ha
        · exact absurd (mem_keys_of_event ha hkind) (hid ▸ hnew.2)
        · rw [mem_singleton.mp ha]
      refine ⟨pairwise_append.mpr ⟨hpair', pairwise_singleton _ _, ?_⟩, ?_⟩
      · intro id hid id' hid'
        rw [mem_singleton] at hid'
        subst hid'
        obtain ⟨n, hn⟩ := hfirst id hid
        obtain ⟨a, ha, -, -, hseq'⟩ := mem_jobSeqs.mp (firstSeq_eq_some.mp hn).1
        exact ⟨n, e.seq, firstSeq_append hlt hn, hseq, hseq' ▸ hlt a ha⟩
      · intro id hid
        rcases mem_append.mp hid with hid | hid
        · obtain ⟨n, hn⟩ := hfirst id hid
          exact ⟨n, firstSeq_append hlt hn⟩
        · rw [mem_singleton.mp hid]
          exact ⟨e.seq, hseq⟩
    · refine ⟨hpair', fun id hid => ?_⟩
      obtain ⟨n, hn⟩ := hfirst id hid
      exact ⟨n, firstSeq_append hlt hn⟩

theorem firstSeq_eq_of_perm {events' : List Event} (hp : events.Perm events') (id : String) :
    firstSeq events id = firstSeq events' id := by
  have hmem : ∀ n, n ∈ jobSeqs events id ↔ n ∈ jobSeqs events' id :=
    fun n => ((hp.filter _).map _).mem_iff
  refine Option.ext fun n => ?_
  rw [firstSeq_eq_some, firstSeq_eq_some, hmem]
  exact and_congr_right fun _ => forall_congr' fun m => imp_congr_left (hmem m)

theorem fold_ordered (h : KeysNodup Event.seq events) :
    ((fold events).map jobKey).Pairwise (FirstBefore events) := by
  have hperm : (bySeq events).Perm events := sortBy_perm events
  have hnodup : (bySeq events).Pairwise fun a b => a.seq ≠ b.seq :=
    pairwise_map.mp (h.perm hperm.symm)
  have hsorted : (bySeq events).Pairwise fun a b => a.seq < b.seq :=
    (sortBy_pairwise events).and hnodup |>.imp fun hab => lt_of_le_of_ne hab.1 hab.2
  refine (foldl_applyJobEvent_ordered _ hsorted).1.imp fun {id id'} hbefore => ?_
  obtain ⟨n, n', hn, hn', hlt⟩ := hbefore
  rw [firstSeq_eq_of_perm hperm] at hn hn'
  exact ⟨n, n', hn, hn', hlt⟩

/-- The four folds, the incremental path and the ordered path are one function of the set of
    events. -/
theorem folds_agree (events : List Event) (h : KeysNodup Event.seq events) :
    (∀ events', events.Perm events' →
      fold events' = fold events ∧ foldOrdered events' = foldOrdered events ∧
      foldWatches events' = foldWatches events ∧
      foldWatchSends events' = foldWatchSends events) ∧
    (∀ inOrder : List Event, inOrder.Perm events → inOrder.Pairwise (fun a b => a.seq < b.seq) →
      inOrder.foldl apply ([], []) = (fold events, foldWatches events)) ∧
    (∀ held more, events = held ++ more → (∀ a ∈ held, ∀ b ∈ more, a.seq < b.seq) →
      more.Pairwise (fun a b => a.seq < b.seq) →
      more.foldl apply (fold held, foldWatches held) = (fold events, foldWatches events)) ∧
    ((foldOrdered events).Perm (fold events) ∧ ((foldOrdered events).map jobKey).Nodup ∧
      (foldOrdered events).Pairwise fun r r' =>
        ∃ n n', firstSeq events r.jobId = some n ∧ firstSeq events r'.jobId = some n' ∧
          n < n') := by
  refine ⟨fun events' hp => ?_, fun inOrder hp hsorted => ?_, ?_, ?_⟩
  · unfold fold foldOrdered foldWatches foldWatchSends
    rw [bySeq_eq_of_perm h hp]
    exact ⟨rfl, rfl, rfl, rfl⟩
  · have hself : bySeq inOrder = inOrder := sortBy_eq_self (hsorted.imp fun hab => hab.le)
    rw [foldl_apply, ← hself, bySeq_eq_of_perm (h.perm hp.symm) hp]
    rfl
  · rintro held more rfl hlt hsorted
    have hself : bySeq more = more := sortBy_eq_self (hsorted.imp fun hab => hab.le)
    rw [foldl_apply, fold_append hlt, foldWatches_append hlt, hself]
  · rw [foldOrdered_eq_fold]
    exact ⟨List.Perm.refl _, keysNodup_fold events, pairwise_map.mp (fold_ordered h)⟩

/-- Two jobs whose journal lines were read out of order. -/
def twoJobs : List Event :=
  [{ kind := .jobFinished, seq := 3, jobId := "a", status := .completed, terminalGen := "g" },
    { kind := .jobStarted, seq := 1, jobId := "b" }, { kind := .jobStarted, seq := 2, jobId := "a" }]

theorem folds_agree_twoJobs : (foldOrdered twoJobs).map jobKey = ["b", "a"] ∧
    (foldOrdered twoJobs).Perm (fold twoJobs) ∧
    fold twoJobs.reverse = fold twoJobs := by
  have hdistinct : KeysNodup Event.seq twoJobs := by unfold KeysNodup; decide
  have hagree := folds_agree twoJobs hdistinct
  exact ⟨by decide, hagree.2.2.2.1, (hagree.1 _ (reverse_perm twoJobs).symm).1⟩

end Evener.Jobstore
