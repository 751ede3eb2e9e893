/-
  Runs of the delegate store: opens, appends and closes in any order, with any failure of any file
  system call, and with crashes between and inside the calls.

  The caller keeps the state of its last successful call.
-/
import Evener.Delegatestore.StoreCalls

namespace Evener.Delegatestore

open Evener.Lib Option

/-! ## Runs -/

/-- The store and its caller. The caller holds `state`, the fold of `journal`. What an open may
    find is `certain` or, with the batch of an interrupted append, `certain ++ doubtful`. -/
structure System where
  volume : Volume := {}
  calls : Nat := 0
  store : Option Store := none
  state : State := []
  journal : List Event := []
  certain : List Event := []
  doubtful : List Event := []

inductive LogStep where
  | openStore
  | appendBatch (events : List Event)
  | close
  -- nothing is in flight: the file stays as it reads, or a prefix of the loose record is left
  | crash (keep : Option Nat)
  | crashInAppend (events : List Event) (keep : Nat)
  | crashInOpen (keep : Nat)

inductive LogReply where
  | opened (result : Except Failure Unit)
  | appended (result : Except Failure (List Event × State))
  | closed (result : Except Failure Unit)
  | crashed

/-- Once a usable store has nothing unsynced, nothing is in doubt. -/
def System.settle (s : System) : System :=
  if s.volume.loose = [] ∧ s.volume.settled = s.volume.file ∧ s.store.any Store.usable = true then
    { s with certain := s.journal, doubtful := [] }
  else s

section Runs

variable (disk : Disk) (codec : Codec) (json : Json)

/-- What a caller loads from the bytes of a log. -/
def readBack (file : Bytes) : List Event × State :=
  match decodeLog codec file with
  | .ok events => (events, (fold json events).toOption.getD [])
  | .error _ => ([], [])

def System.appended (s : System) (store : Store) (events : List Event) :
    Except Failure (List Event × State) × World → System
  | (.ok (assigned, accepted), w) =>
    { s with
      volume := w.volume
      calls := w.calls
      store := some w.store
      state := accepted
      journal := s.journal ++ assigned }.settle
  | (.error _, w) =>
    let s := { s with
      volume := w.volume
      calls := w.calls
      store := some w.store }
    if w.store.unusable.isSome = true ∧ store.unusable = none then
      { s with certain := s.journal, doubtful := assign store.seq events }
    else s.settle

def System.opened (s : System) : Except Failure Unit × World → System
  | (.ok _, w) =>
    let loaded := readBack codec json w.volume.file
    { s with
      volume := w.volume
      calls := w.calls
      store := some w.store
      state := loaded.2
      journal := loaded.1 }.settle
  | (.error _, w) =>
    { s with
      volume := w.volume
      calls := w.calls
      store := none }

/-- A crash while the record of `events` is on its way to the disk. -/
def System.crashInAppend (s : System) (events : List Event) (keep : Nat) : System :=
  match s.store with
  | none => { s with volume := s.volume.crash none, store := none }
  | some store =>
    if store.usable = true ∧ events ≠ [] then
      match prepare codec json store.seq s.state events with
      | .ok (assigned, _, record) =>
        let file := s.volume.file ++ record.take keep
        { s with
          volume := ⟨file, file, []⟩
          store := none
          certain := s.journal
          doubtful := assigned }
      | .error _ => { s with volume := s.volume.crash none, store := none }
    else { s with volume := s.volume.crash none, store := none }

def stepLog (s : System) : LogStep → LogReply × System
  | .openStore =>
    let run := openStore disk codec json ⟨s.volume, {}, s.calls⟩
    (.opened run.1, s.opened codec json run)
  | .appendBatch events =>
    match s.store with
    | none => (.appended (fail "delegatestore: store has no file"), s)
    | some store =>
      let run := appendBatch disk codec json s.state events ⟨s.volume, store, s.calls⟩
      (.appended run.1, s.appended store events run)
  | .close =>
    match s.store with
    | none => (.closed (.ok ()), s)
    | some store =>
      let run := close disk ⟨s.volume, store, s.calls⟩
      (.closed run.1, { s with calls := run.2.calls, store := some run.2.store })
  | .crash keep => (.crashed, { s with volume := s.volume.crash keep, store := none })
  | .crashInAppend events keep => (.crashed, s.crashInAppend codec json events keep)
  | .crashInOpen keep =>
    (.crashed, { s with volume := s.volume.crashInOpen codec keep, store := none })

def runLog (s : System) (steps : List LogStep) : System :=
  steps.foldl (fun s step => (stepLog disk codec json s step).2) s

end Runs

/-! ## Every run -/

section Invariant

variable {disk : Disk} {codec : Codec} {json : Json} {s : System}

/-- A usable store is over the log of the caller's journal, and whatever happens an open finds a
    possible one. -/
structure Intact (codec : Codec) (json : Json) (s : System) : Prop where
  safe : Safe codec json s.certain s.doubtful s.volume
  possible : Possible s.certain s.doubtful s.journal
  usable : ∀ store, s.store = some store → store.usable = true →
    Holds codec json s.volume.file s.journal ∧ fold json s.journal = .ok s.state ∧
      store.seq = s.journal.length

theorem Intact.settle (h : Intact codec json s) : Intact codec json s.settle := by
  unfold System.settle
  split
  · next hsynced =>
    obtain ⟨hloose, hsettled, husable⟩ := hsynced
    obtain ⟨store, hstore, husable⟩ : ∃ store, s.store = some store ∧ store.usable = true := by
      cases hstore : s.store with
      | none =>
        rw [hstore] at husable
        cases husable
      | some store =>
        rw [hstore] at husable
        exact ⟨store, rfl, husable⟩
    have hreads : Recoverable codec json s.journal [] s.volume.file :=
      .of_holds (h.usable store hstore husable).1 (Or.inl rfl)
    refine ⟨⟨hreads, fun n => ?_⟩, Or.inl rfl, h.usable⟩
    rw [hsettled, hloose, List.take_nil, List.append_nil]
    exact hreads
  · exact h

/-- Without a store there is nothing more to keep. -/
theorem intact_without_store {volume : Volume} {calls : Nat} {state : State}
    {certain doubtful journal : List Event}
    (hsafe : Safe codec json certain doubtful volume) (hpossible : Possible certain doubtful journal) :
    Intact codec json ⟨volume, calls, none, state, journal, certain, doubtful⟩ :=
  ⟨hsafe, hpossible, nofun⟩

theorem Intact.opened (hcodec : codec.Faithful) (h : Intact codec json s) :
    Intact codec json (s.opened codec json (openStore disk codec json ⟨s.volume, {}, s.calls⟩)) := by
  have hspec := openStore_spec (w := ⟨s.volume, {}, s.calls⟩) disk hcodec rfl h.safe
  unfold Tx.wp at hspec
  rcases hrun : openStore disk codec json ⟨s.volume, {}, s.calls⟩ with ⟨_ | _, w⟩
  · rw [hrun] at hspec
    exact intact_without_store hspec h.possible
  · rw [hrun] at hspec
    obtain ⟨hsafe, journal, hholds, hpossible, hstore⟩ := hspec
    obtain ⟨state, hfold⟩ := hholds.folded
    have hread : readBack codec json w.volume.file = (journal, state) := by
      unfold readBack
      rw [hholds.decoded]
      dsimp only
      rw [hfold]
      rfl
    unfold System.opened
    dsimp only
    rw [hread]
    refine Intact.settle ⟨hsafe, hpossible, ?_⟩
    intro store hsome _
    cases hsome
    exact ⟨hholds, hfold, congrArg Store.seq hstore⟩

theorem Intact.appended (hcodec : codec.Faithful) (h : Intact codec json s) {store : Store}
    (hstore : s.store = some store) (events : List Event) :
    Intact codec json (s.appended store events
      (appendBatch disk codec json s.state events ⟨s.volume, store, s.calls⟩)) := by
  by_cases husable : store.usable = true
  · obtain ⟨hholds, hfold, hseq⟩ := h.usable store hstore husable
    have hspec := appendBatch_spec (w := ⟨s.volume, store, s.calls⟩) disk hcodec hholds hfold hseq
      events
    have hfresh : store.unusable = none := by
      unfold Store.usable at husable
      rw [Bool.and_eq_true] at husable
      exact isNone_iff_eq_none.mp husable.2
    unfold Tx.wp at hspec
    rcases hrun : appendBatch disk codec json s.state events ⟨s.volume, store, s.calls⟩ with
      ⟨err | ⟨assigned, accepted⟩, w⟩
    · rw [hrun] at hspec
      unfold System.appended
      dsimp only
      rcases hspec with ⟨hsame, hvolume⟩ | ⟨hunusable, hbatch, hsafe⟩
      · rw [if_neg]
        · refine Intact.settle ?_
          rcases hvolume with hvolume | hvolume
          · rw [hvolume, hsame]
            refine ⟨h.safe, h.possible, ?_⟩
            intro store' hsome husable'
            cases hsome
            exact ⟨hholds, hfold, hseq⟩
          · rw [hvolume, hsame]
            refine ⟨safe_synced (.of_holds hholds h.possible), h.possible, ?_⟩
            intro store' hsome husable'
            cases hsome
            exact ⟨hholds, hfold, hseq⟩
        · rintro ⟨hsome, _⟩
          rw [hsame] at hsome
          rw [hfresh] at hsome
          cases hsome
      · rw [if_pos ⟨hunusable, hfresh⟩]
        refine ⟨hsafe, Or.inl rfl, ?_⟩
        intro store' hsome husable'
        cases hsome
        unfold Store.usable at husable'
        rw [Bool.and_eq_true] at husable'
        rw [isNone_iff_eq_none.mp husable'.2] at hunusable
        cases hunusable
    · rw [hrun] at hspec
      obtain ⟨hstore', hholds', hfold', hvolume⟩ := hspec
      unfold System.appended
      dsimp only
      have hnew : ∀ store', some w.store = some store' → store'.usable = true →
          Holds codec json w.volume.file (s.journal ++ assigned) ∧
            fold json (s.journal ++ assigned) = .ok accepted ∧
            store'.seq = (s.journal ++ assigned).length := by
        intro store' hsome _
        cases hsome
        exact ⟨hholds', hfold', congrArg Store.seq hstore'⟩
      rcases hvolume with ⟨hempty, hsame⟩ | hsynced
      · have hempty : assigned = [] := hempty
        refine Intact.settle ⟨?_, ?_, hnew⟩
        · rw [hsame]
          exact h.safe
        · rw [hempty, List.append_nil]
          exact h.possible
      · -- what is synced is certain
        have husable' : w.store.usable = true := by
          rw [hstore']
          exact husable
        have hsettled := congrArg Volume.settled hsynced
        have hloose := congrArg Volume.loose hsynced
        unfold System.settle
        rw [if_pos ⟨hloose, hsettled, by simpa using husable'⟩]
        refine ⟨?_, Or.inl rfl, hnew⟩
        rw [hsynced]
        exact safe_synced (.of_holds hholds' (Or.inl rfl))
  · have hspec : Tx.wp (appendBatch disk codec json s.state events) ⟨s.volume, store, s.calls⟩
        (fun _ _ => False) (fun _ w' => w' = ⟨s.volume, store, s.calls⟩) :=
      appendBatch_refused disk (by simpa using husable) events
    unfold Tx.wp at hspec
    rcases hrun : appendBatch disk codec json s.state events ⟨s.volume, store, s.calls⟩ with
      ⟨err | _, w⟩
    · rw [hrun] at hspec
      have hspec : w = ⟨s.volume, store, s.calls⟩ := hspec
      subst hspec
      unfold System.appended
      dsimp only
      have hnever : ¬ (store.unusable.isSome = true ∧ store.unusable = none) := by
        rintro ⟨hsome, hnone⟩
        rw [hnone] at hsome
        cases hsome
      rw [if_neg hnever]
      refine Intact.settle ⟨h.safe, h.possible, ?_⟩
      intro store' hsome husable'
      cases hsome
      exact absurd husable' husable
    · rw [hrun] at hspec
      exact hspec.elim

theorem close_spec {w : World} :
    Tx.wp (close disk) w (fun _ w' => w'.store.closed = true) (fun _ w' => w'.store.closed = true) := by
  unfold close
  rw [Tx.wp_bind, Tx.wp_read, Tx.wp_ite]
  refine ⟨fun hclosed => hclosed, fun _ => ?_⟩
  rw [Tx.wp_bind]
  exact wp_call disk (fun _ => rfl) fun _ _ => rfl

theorem Intact.crashInAppend (hcodec : codec.Faithful) (h : Intact codec json s)
    (events : List Event) (keep : Nat) : Intact codec json (s.crashInAppend codec json events keep) := by
  have hcrashed : Intact codec json { s with volume := s.volume.crash none, store := none } :=
    intact_without_store (h.safe.after_crash none) h.possible
  unfold System.crashInAppend
  split
  · exact hcrashed
  · next store hstore =>
    split
    · next hstarted =>
      obtain ⟨hholds, hfold, hseq⟩ := h.usable store hstore hstarted.1
      rw [hseq]
      split
      · next assigned accepted record hprepared =>
        obtain ⟨rfl, haccepted, line, rfl, hdecode, hline⟩ := prepare_ok hcodec hfold hprepared
        exact intact_without_store (safe_synced (recoverable_record hholds hdecode hline
          (assign_ne_nil hstarted.2) ⟨accepted, haccepted⟩ keep)) (Or.inl rfl)
      · exact hcrashed
    · exact hcrashed

theorem Intact.step (hcodec : codec.Faithful) (h : Intact codec json s) (step : LogStep) :
    Intact codec json (stepLog disk codec json s step).2 := by
  cases step with
  | openStore => exact h.opened hcodec
  | appendBatch events =>
    unfold stepLog
    cases hstore : s.store with
    | none => exact h
    | some store => exact h.appended hcodec hstore events
  | close =>
    unfold stepLog
    cases hstore : s.store with
    | none => exact h
    | some store =>
      refine ⟨h.safe, h.possible, ?_⟩
      intro store' hsome husable
      have hclosed := @close_spec disk ⟨s.volume, store, s.calls⟩
      unfold Tx.wp at hclosed
      cases hsome
      unfold Store.usable at husable
      rcases hrun : close disk ⟨s.volume, store, s.calls⟩ with ⟨_ | _, w⟩ <;>
        rw [hrun] at hclosed husable <;> simp [hclosed] at husable
  | crash keep => exact intact_without_store (h.safe.after_crash keep) h.possible
  | crashInAppend events keep => exact h.crashInAppend hcodec events keep
  | crashInOpen keep => exact intact_without_store (h.safe.after_crashInOpen hcodec keep) h.possible

theorem Intact.run (hcodec : codec.Faithful) (h : Intact codec json s) (steps : List LogStep) :
    Intact codec json (runLog disk codec json s steps) := by
  induction steps generalizing s with
  | nil => exact h
  | cons step steps ih => exact ih (h.step hcodec step)

end Invariant

section Runs

variable {disk : Disk} {codec : Codec} {json : Json} {s : System}

end Runs

deriving instance DecidableEq for DelegateCreated, RunStarted, TerminalPrepared, RunFinished,
  ResumabilityClosed, SubtreeStopRequested, SubtreeStopCompleted, DeliveryAcknowledged,
  DelegateAttentionChanged, UpdatePosted, IntentStated, Event

def textBytes (parts : List String) : Bytes :=
  parts.flatMap fun part => part.toList.map fun c => c.toNat.toUInt8

/-- The creation of one delegate. -/
def creation : Event :=
  { kind := .delegateCreated, seq := 1, delegateId := "p", created := some ⟨plainDescriptor ""⟩ }

def versionText : Bytes := textBytes ["\x7b\"version\":1\x7d"]

def creationText : Bytes :=
  textBytes ["\x7b\"events\":[\x7b", "\"kind\":", "\"delegate_created\"", ",\"seq\":1,",
    "\"delegate_id\":", "\"p\",", "\"created\":\x7b", "\"descriptor\":\x7b",
    "\"child_session_id\":", "\"s\",", "\"transcript_ref\":", "\"t\",",
    "\"owner_session_id\":", "\"o\",", "\"task\":\"k\",", "\"agent_type\":", "\"g\",",
    "\"tool_name_ceiling\":", "[\"communicate\"],", "\"config\":\x7b\x7d,", "\"resumable\":true",
    "\x7d\x7d\x7d]\x7d"]

/-- The JSON of the header and of the batch of `creation`. -/
def creationCodec : Codec where
  marshalVersion version :=
    if version = 1 then .ok versionText else .error (.errorf "unsupported value" [] none)
  decodeVersion line :=
    if line = versionText then .ok 1 else .error (.errorf "unexpected end of JSON input" [] none)
  marshalBatch events :=
    if events = [creation] then .ok creationText else .error (.errorf "unsupported value" [] none)
  decodeBatch line :=
    if line = creationText then .ok [creation]
    else .error (.errorf "unexpected end of JSON input" [] none)

theorem versionText_oneLine : newline ∉ versionText := by decide

theorem creationText_oneLine : newline ∉ creationText := by decide

/-- The sync of the first append fails, and so does the truncation that should undo its write. -/
def failingDisk : Disk where
  fails n := if n = 7 ∨ n = 8 then some (.errorf "input/output error" [] none) else none
  taken _ := 1024

end Evener.Delegatestore
