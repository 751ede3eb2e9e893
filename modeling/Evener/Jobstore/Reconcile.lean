/-
  Reconciliation after a restart: a job that runs by its record and has no live runtime is
  finished as lost, once.
-/
import Mathlib.Data.String.Basic
import Evener.Jobstore.Terminal

namespace Evener.Jobstore

open Evener.Lib
open List hiding lookup

/-! ## Terminal generations -/

def base62Alphabet : List Char :=
  "0123456789ABCDEFGHIJKLMNOPQRSTUVWXYZabcdefghijklmnopqrstuvwxyz".toList

def base62Width : Nat := 22

/-- The last `width` digits of `n`, the highest first. -/
def base62Digits : Nat → Nat → List Char
  | 0, _ => []
  | width + 1, n => base62Digits width (n / 62) ++ [base62Alphabet.getD (n % 62) '0']

def encodeUUID (value : BitVec 128) : String :=
  String.ofList (base62Digits base62Width value.toNat)

theorem length_base62Digits (width n : Nat) : (base62Digits width n).length = width := by
  induction width generalizing n with
  | zero => rfl
  | succ width ih => rw [base62Digits, length_append, ih, length_singleton]

theorem encodeUUID_ne_empty (value : BitVec 128) : encodeUUID value ≠ "" := by
  intro h
  have hlist : base62Digits base62Width value.toNat = [] := by
    have := congrArg String.toList h
    rwa [encodeUUID, String.toList_ofList] at this
  have hlength := length_base62Digits base62Width value.toNat
  rw [hlist] at hlength
  cases hlength

/-! ## The reconciler -/

/-- The record runs and no runtime has the job. -/
def isLost (liveJobIDs : String → Bool) (r : JobRecord) : Bool :=
  r.status = .running && !liveJobIDs r.jobId

def lostJobs (records : JobRecords) (liveJobIDs : String → Bool) : List String :=
  sortBy id ((records.filter (isLost liveJobIDs)).map jobKey)

/-- The event that finishes a lost job; `uuids k` is the `k`-th id minted. -/
def lostEvent (now : Int) (uuids : Nat → BitVec 128) (lost : String × Nat) : Event :=
  { kind := .jobFinished
    seq := 0
    jobId := lost.1
    status := .stopped
    reason := "runtime_lost"
    endedAt := some now
    terminalGen := encodeUUID (uuids lost.2) }

def reconcile (records : JobRecords) (liveJobIDs : String → Bool) (now : Int)
    (uuids : Nat → BitVec 128) : List Event :=
  (lostJobs records liveJobIDs).zipIdx.map (lostEvent now uuids)

/-- The events as they are appended, each with its `seq`. -/
def stamp (seqs : List Int) (events : List Event) : List Event :=
  List.zipWith (fun seq e => { e with seq := seq }) seqs events

/-- What `job_started` sets. -/
structure StartFacts where
  type : String
  command : String
  background : Bool
  intent : String
  workingDir : String
  task : String
  description : String
  parentSessionId : String
  ownerSessionId : String
  visibleToSession : String
  parentJobId : String
  parentDelegateId : String
  originTurnId : String
  originToolCallId : String
  originItemId : String
  provenance : Option Causal
  outputPath : String
  startedAt : Int

def JobRecord.startFacts (r : JobRecord) : StartFacts where
  type := r.type
  command := r.command
  background := r.background
  intent := r.intent
  workingDir := r.workingDir
  task := r.task
  description := r.description
  parentSessionId := r.parentSessionId
  ownerSessionId := r.ownerSessionId
  visibleToSession := r.visibleToSession
  parentJobId := r.parentJobId
  parentDelegateId := r.parentDelegateId
  originTurnId := r.originTurnId
  originToolCallId := r.originToolCallId
  originItemId := r.originItemId
  provenance := r.provenance
  outputPath := r.outputPath
  startedAt := r.startedAt

/-- The record of a job that was lost. -/
structure Lost (now : Int) (r r' : JobRecord) : Prop where
  status : r'.status = .stopped
  reason : r'.reason = "runtime_lost"
  ended : r'.endedAt = some now
  generation : r'.terminalGen ≠ ""
  started : r'.startFacts = r.startFacts
  notified : r'.notifyState = r.notifyState

/-! ## The jobs that are lost -/

variable {records : JobRecords} {seqs : List Int}

theorem mem_lostJobs {live : String → Bool} {id : String} :
    id ∈ lostJobs records live ↔
      ∃ r ∈ records, r.jobId = id ∧ r.status = .running ∧ live id = false := by
  unfold lostJobs
  rw [mem_sortBy, mem_map]
  constructor
  · rintro ⟨r, hr, rfl⟩
    obtain ⟨hmem, hlost⟩ := mem_filter.mp hr
    simp only [isLost, Bool.and_eq_true, decide_eq_true_eq, Bool.not_eq_true'] at hlost
    exact ⟨r, hmem, rfl, hlost⟩
  · rintro ⟨r, hmem, rfl, hstatus, hlive⟩
    exact ⟨r, mem_filter.mpr ⟨hmem, by simp [isLost, hstatus, hlive]⟩, rfl⟩

theorem lostJobs_nodup (h : KeysNodup jobKey records) (live : String → Bool) :
    (lostJobs records live).Nodup := by
  refine (sortBy_perm _).nodup_iff.mpr ?_
  exact h.sublist filter_sublist

theorem map_jobId_reconcile (records : JobRecords) (live : String → Bool) (now : Int)
    (uuids : Nat → BitVec 128) :
    (reconcile records live now uuids).map Event.jobId = lostJobs records live := by
  unfold reconcile
  rw [map_map]
  exact zipIdx_map_fst 0 (lostJobs records live)

theorem mem_reconcile {live : String → Bool} {now : Int} {uuids : Nat → BitVec 128} {e : Event}
    (h : e ∈ reconcile records live now uuids) : ∃ k, e = lostEvent now uuids (e.jobId, k) := by
  obtain ⟨⟨id, k⟩, -, rfl⟩ := mem_map.mp h
  exact ⟨k, rfl⟩

/-! ## Stamped events -/

theorem mem_stamp {events : List Event} {e : Event} (h : e ∈ stamp seqs events) :
    e.seq ∈ seqs ∧ ∃ e' ∈ events, e = { e' with seq := e.seq } := by
  induction seqs generalizing events with
  | nil => cases h
  | cons seq seqs ih =>
    cases events with
    | nil => cases h
    | cons a events =>
      obtain rfl | h := mem_cons.mp h
      · exact ⟨mem_cons_self, a, mem_cons_self, rfl⟩
      · obtain ⟨hseq, e', he', heq⟩ := ih h
        exact ⟨mem_cons_of_mem _ hseq, e', mem_cons_of_mem _ he', heq⟩

theorem map_jobId_stamp {events : List Event} (h : seqs.length = events.length) :
    (stamp seqs events).map Event.jobId = events.map Event.jobId := by
  induction seqs generalizing events with
  | nil =>
    obtain rfl := length_eq_zero_iff.mp h.symm
    rfl
  | cons seq seqs ih =>
    cases events with
    | nil => cases h
    | cons a events => exact congrArg (a.jobId :: ·) (ih (Nat.succ.inj h))

theorem stamp_pairwise (events : List Event) (h : seqs.Pairwise (· < ·)) :
    (stamp seqs events).Pairwise fun a b => a.seq < b.seq := by
  induction seqs generalizing events with
  | nil => exact List.Pairwise.nil
  | cons seq seqs ih =>
    cases events with
    | nil => exact List.Pairwise.nil
    | cons a events =>
      obtain ⟨hfirst, hrest⟩ := pairwise_cons.mp h
      exact pairwise_cons.mpr ⟨fun b hb => hfirst _ (mem_stamp hb).1, ih events hrest⟩

/-! ## Finishing distinct jobs -/

/-- Events of distinct jobs reach one record each. -/
theorem lookup_foldl_distinct (l : List Event) (h : (l.map Event.jobId).Nodup)
    (hkind : ∀ e ∈ l, isJobRecordEventKind e.kind = true) (recs : JobRecords) (id : String) :
    (∀ e ∈ l, e.jobId = id →
      lookup jobKey id (l.foldl applyJobEvent recs) = some (applyEvent (recordFor recs id) e)) ∧
    ((∀ e ∈ l, e.jobId ≠ id) →
      lookup jobKey id (l.foldl applyJobEvent recs) = lookup jobKey id recs) := by
  induction l generalizing recs with
  | nil => exact ⟨fun e he => (nomatch he), fun _ => rfl⟩
  | cons a l ih =>
    obtain ⟨hnew, hnodup⟩ := nodup_cons.mp h
    obtain ⟨hhit, hmiss⟩ := ih hnodup (fun e he => hkind e (mem_cons_of_mem _ he))
      (applyJobEvent recs a)
    have ha := hkind a mem_cons_self
    rw [foldl_cons]
    refine ⟨fun e he hid => ?_, fun hall => ?_⟩
    · obtain rfl | he := mem_cons.mp he
      · have hothers : ∀ b ∈ l, b.jobId ≠ id := by
          intro b hb hbid
          exact hnew (mem_map.mpr ⟨b, hb, hbid.trans hid.symm⟩)
        rw [hmiss hothers, lookup_applyJobEvent, if_pos ⟨ha, hid⟩]
      · have hne : a.jobId ≠ id := by
          intro haid
          exact hnew (mem_map.mpr ⟨e, he, hid.trans haid.symm⟩)
        rw [hhit e he hid]
        unfold recordFor
        rw [lookup_applyJobEvent, if_neg fun hcase => hne hcase.2]
    · rw [hmiss fun e he => hall e (mem_cons_of_mem _ he), lookup_applyJobEvent,
        if_neg fun hcase => hall a mem_cons_self hcase.2]

theorem lost_applyEvent {r : JobRecord} {now seq : Int} {uuids : Nat → BitVec 128}
    {lost : String × Nat} (h : r.status = .running) :
    Lost now r (applyEvent r { lostEvent now uuids lost with seq := seq }) := by
  have hrunning : r.status.isTerminal = false := by
    rw [h]
    rfl
  have happly : applyEvent r { lostEvent now uuids lost with seq := seq } =
      finishedRecord r { lostEvent now uuids lost with seq := seq } := by
    unfold applyEvent lostEvent
    dsimp only
    rw [if_neg (Bool.eq_false_iff.mp hrunning)]
  rw [happly]
  exact ⟨rfl, rfl, rfl, encodeUUID_ne_empty _, rfl, rfl⟩

/-- What one reconciliation leaves of every record. -/
theorem lookup_reconciled (events : List Event) (live : String → Bool) (now : Int)
    (uuids : Nat → BitVec 128) (seqs : List Int)
    (hlength : seqs.length = (reconcile (fold events) live now uuids).length)
    (hincreasing : seqs.Pairwise (· < ·)) (hfresh : ∀ a ∈ events, ∀ seq ∈ seqs, a.seq < seq)
    (id : String) :
    (id ∉ lostJobs (fold events) live →
      lookup jobKey id (fold (events ++ stamp seqs (reconcile (fold events) live now uuids))) =
        lookup jobKey id (fold events)) ∧
    ∀ r, lookup jobKey id (fold events) = some r → r.status = .running → live id = false →
      ∃ r', lookup jobKey id
        (fold (events ++ stamp seqs (reconcile (fold events) live now uuids))) = some r' ∧
          Lost now r r' := by
  have hids := (map_jobId_stamp hlength).trans (map_jobId_reconcile (fold events) live now uuids)
  have hkind : ∀ e ∈ stamp seqs (reconcile (fold events) live now uuids),
      isJobRecordEventKind e.kind = true := by
    intro e he
    obtain ⟨-, e', he', heq⟩ := mem_stamp he
    obtain ⟨k, hk⟩ := mem_reconcile he'
    rw [heq, hk]
    rfl
  have hsorted : bySeq (stamp seqs (reconcile (fold events) live now uuids)) =
      stamp seqs (reconcile (fold events) live now uuids) :=
    sortBy_eq_self ((stamp_pairwise _ hincreasing).imp fun hab => hab.le)
  rw [fold_append fun a ha b hb => hfresh a ha b.seq (mem_stamp hb).1, hsorted]
  obtain ⟨hhit, hmiss⟩ := lookup_foldl_distinct
    (stamp seqs (reconcile (fold events) live now uuids))
    (hids ▸ lostJobs_nodup (keysNodup_fold events) live) hkind (fold events) id
  refine ⟨fun hid => hmiss fun e he heq => hid ?_, fun r hr hrunning hlive => ?_⟩
  · rw [← hids]
    exact mem_map.mpr ⟨e, he, heq⟩
  · have hid : id ∈ lostJobs (fold events) live :=
      mem_lostJobs.mpr ⟨r, mem_of_lookup hr, key_of_lookup hr, hrunning, hlive⟩
    rw [← hids] at hid
    obtain ⟨e, he, heid⟩ := mem_map.mp hid
    refine ⟨_, hhit e he heid, ?_⟩
    obtain ⟨-, e', he', heq⟩ := mem_stamp he
    obtain ⟨k, hk⟩ := mem_reconcile he'
    rw [recordFor_of_lookup hr, heq, hk]
    exact lost_applyEvent hrunning

/-- Reconciliation finishes every job that runs by its record and has no runtime, touches no
other record, and leaves nothing for a second one. -/
theorem reconcile_complete (events : List Event) (live : String → Bool) (now : Int)
    (uuids : Nat → BitVec 128) (seqs : List Int)
    (hlength : seqs.length = (reconcile (fold events) live now uuids).length)
    (hincreasing : seqs.Pairwise (· < ·)) (hfresh : ∀ a ∈ events, ∀ seq ∈ seqs, a.seq < seq)
    (events' : List Event)
    (hevents' : events' = events ++ stamp seqs (reconcile (fold events) live now uuids)) :
    (∀ id r, lookup jobKey id (fold events') = some r → r.status = .running → live id = true) ∧
    (∀ id r, lookup jobKey id (fold events) = some r → r.status ≠ .running ∨ live id = true →
      lookup jobKey id (fold events') = some r) ∧
    (∀ id r, lookup jobKey id (fold events) = some r → r.status = .running → live id = false →
      ∃ r', lookup jobKey id (fold events') = some r' ∧ Lost now r r') ∧
    (∀ id, lookup jobKey id (fold events) = none → lookup jobKey id (fold events') = none) ∧
    ∀ (t : Int) (uuids' : Nat → BitVec 128), reconcile (fold events') live t uuids' = [] := by
  subst hevents'
  have hlookup := lookup_reconciled events live now uuids seqs hlength hincreasing hfresh
  have hkept : ∀ id r, lookup jobKey id (fold events) = some r →
      r.status ≠ .running ∨ live id = true →
      lookup jobKey id (fold (events ++ stamp seqs (reconcile (fold events) live now uuids))) =
        some r := by
    intro id r hr hspared
    refine ((hlookup id).1 fun hlost => ?_).trans hr
    obtain ⟨q, hq, hid, hrunning, hlive⟩ := mem_lostJobs.mp hlost
    have hqr : q = r := Option.some.inj
      (((lookup_eq_some (keysNodup_fold events)).mpr ⟨hq, hid⟩).symm.trans hr)
    subst hqr
    obtain hne | hne := hspared
    · exact hne hrunning
    · rw [hlive] at hne
      cases hne
  have habsent : ∀ id, lookup jobKey id (fold events) = none →
      lookup jobKey id (fold (events ++ stamp seqs (reconcile (fold events) live now uuids))) =
        none := by
    intro id hid
    refine ((hlookup id).1 fun hlost => ?_).trans hid
    obtain ⟨q, hq, hqid, -⟩ := mem_lostJobs.mp hlost
    exact lookup_eq_none.mp hid q hq hqid
  have hcomplete : ∀ id r,
      lookup jobKey id (fold (events ++ stamp seqs (reconcile (fold events) live now uuids))) =
        some r → r.status = .running → live id = true := by
    intro id r' hr' hrunning
    by_contra hlive
    rw [Bool.not_eq_true] at hlive
    cases hr : lookup jobKey id (fold events) with
    | none =>
      rw [habsent id hr] at hr'
      cases hr'
    | some r =>
      by_cases hrun : r.status = .running
      · obtain ⟨q, hq, hlost⟩ := (hlookup id).2 r hr hrun hlive
        obtain rfl := Option.some.inj (hq.symm.trans hr')
        rw [hlost.status] at hrunning
        cases hrunning
      · obtain rfl := Option.some.inj ((hkept id r hr (.inl hrun)).symm.trans hr')
        exact hrun hrunning
  refine ⟨hcomplete, hkept, fun id => (hlookup id).2, habsent, fun t uuids' => ?_⟩
  have hnone : lostJobs
      (fold (events ++ stamp seqs (reconcile (fold events) live now uuids))) live = [] := by
    refine eq_nil_iff_forall_not_mem.mpr fun id hid => ?_
    obtain ⟨r, hr, hrid, hrunning, hlive⟩ := mem_lostJobs.mp hid
    have hfound := (lookup_eq_some (keysNodup_fold _)).mpr ⟨hr, hrid⟩
    rw [hcomplete id r hfound hrunning] at hlive
    cases hlive
  refine (congrArg (fun lost => lost.zipIdx.map (lostEvent t uuids')) hnone).trans ?_
  rfl

/-- A job that was cut off beside one that had ended and one known from a notification only. -/
def restarted : List Event :=
  [{ kind := .jobStarted, seq := 1, jobId := "a", command := "make" },
    { kind := .jobStarted, seq := 2, jobId := "b" },
    { kind := .jobFinished, seq := 3, jobId := "b", status := .completed, terminalGen := "g" },
    { kind := .jobNotificationPending, seq := 4, jobId := "c", terminalGen := "h" }]

theorem reconcile_complete_restarted :
    ∃ r', lookup jobKey "a" (fold (restarted ++
        stamp [5] (reconcile (fold restarted) (fun _ => false) 100 fun _ => 7#128))) = some r' ∧
      r'.status = .stopped ∧ r'.startFacts.command = "make" := by
  have hcomplete := reconcile_complete restarted (fun _ => false) 100 (fun _ => 7#128) [5]
    (by decide) (by decide) (by decide) _ rfl
  obtain ⟨r', hr', hlost⟩ := hcomplete.2.2.1 "a" (startedRecord { jobId := "a" }
    { kind := .jobStarted, seq := 1, jobId := "a", command := "make" }) (by rfl) rfl rfl
  exact ⟨r', hr', hlost.status, congrArg StartFacts.command hlost.started⟩

end Evener.Jobstore
