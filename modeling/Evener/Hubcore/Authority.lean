/-
  The recovery authority on disk, across persistence calls, admission steps and restarts.
-/
import Evener.Hubcore.AuthorityWrites

namespace Evener.Hubcore

open Evener.Lib Function
open List hiding lookup

variable {a : RecoveryAuthority} {x sessionID : String} {state : List RecoveryRecord}
  {member : String × SessionRecoveryState} {write : Write} {aliases : List String}
  {r r' : ResumeLocks}

/-! ## Restarts -/

theorem Authoritative.restarted (hr : Authoritative r) :
    ∃ r', ResumeLocks.newPersistentResumeLocks r.store.file = .ok r' ∧ Authoritative r' ∧
      r'.authority = r.authority := by
  let state := sortBy RecoveryRecord.aliasID r.store.state
  have hperm : state.Perm r.store.state := sortBy_perm _
  have hkeys : KeysNodup RecoveryRecord.aliasID state := hr.keys.perm hperm.symm
  have hauthority : authorityOf state = r.authority := authorityOf_perm hr.keys hperm.symm
  unfold ResumeLocks.newPersistentResumeLocks
  rw [hr.opens]
  refine ⟨_, rfl, ?_, hauthority⟩
  have hlookup : ∀ x a, authorityOf state x = some a →
      lookup RecoveryRecord.aliasID x state = some ⟨x, a⟩ := fun x a ha =>
    (lookup_eq_some hkeys).mpr ⟨(authorityOf_eq_some hkeys).mp ha, rfl⟩
  have hback : ∀ x a, authorityOf state x = some a → r.authority x = some a := by
    intro x a ha
    rw [← hauthority]
    exact ha
  have hid : ∀ x a, authorityOf state x = some a →
      a.group ∈ (state.map fun record => record.authority.group).dedup := by
    intro x a ha
    rw [mem_dedup]
    exact mem_map.mpr ⟨⟨x, a⟩, (authorityOf_eq_some hkeys).mp ha, rfl⟩
  constructor
  case keys => exact hkeys
  case file =>
    rcases hr.file with ⟨hfile, hstate⟩ | hfile
    · exact Or.inl ⟨hfile, by rw [hstate]; rfl⟩
    · refine Or.inr ?_
      rw [hfile]
      exact congrArg some (sortBy_eq_of_perm hr.keys hperm.symm)
  case valid => exact fun x a ha => hr.valid x a (hback x a ha)
  case one => exact fun x a y b ha hb => hr.one x a y b (hback x a ha) (hback y b hb)
  case memory =>
    intro x a ha
    dsimp only
    rw [hlookup x a ha]
    exact ⟨rfl, rfl, rfl, id⟩
  case member =>
    intro x a ha
    dsimp only
    rw [hlookup x a ha]
    refine ⟨_, rfl, ?_⟩
    unfold ResumeLocks.members
    have hmem := hid x a ha
    rw [getElem?_map, getElem?_idxOf hmem]
    refine mem_map.mpr ⟨⟨x, a⟩, mem_filter.mpr ⟨?_, decide_eq_true rfl⟩, rfl⟩
    exact (authorityOf_eq_some hkeys).mp ha
  case shared =>
    intro x a y b ha hb hsame
    dsimp only
    rw [hlookup x a ha, hlookup y b hb]
    dsimp only
    rw [hsame]
  case settled => trivial

/-! ## Runs -/

inductive Event where
  | call (call : Call)
  | restart
deriving DecidableEq

/-- A hub that does not start leaves the file to the next one. -/
def next (r : ResumeLocks) : Event → ResumeLocks
  | .call call => r.step call
  | .restart =>
    match ResumeLocks.newPersistentResumeLocks r.store.file with
    | .ok r' => r'
    | .error _ => r

/-- The text drawn for the call's new group. -/
def Event.draws : Event → Option String
  | .call (.persistForceStopWithOwner _ _ _ id _) => some id
  | _ => none

/-- The session whose exit the call confirms. -/
def Event.confirms : Event → Option String
  | .call (.confirmForceStop sessionID _) => some sessionID
  | _ => none

/-- The text drawn for a group is no group's on file. -/
def Fresh (r : ResumeLocks) (id : String) : Prop :=
  trimSpace id ≠ "" ∧ ∀ record ∈ r.store.state, record.authority.group ≠ id

/-- What the callers keep to, in a call that does not have to wait. -/
def Asked (r : ResumeLocks) (event : Event) : Prop :=
  (∀ id ∈ event.draws, r.running = none → Fresh r id) ∧
    ∀ sessionID ∈ event.confirms, r.running = none →
      (r.recovery sessionID).resumeRequired = true

/-- No confirmation of a group with a member that was cleared. -/
def Allowed (r : ResumeLocks) (event : Event) : Prop :=
  Asked r event ∧ ∀ sessionID ∈ event.confirms, r.running = none → Durable r sessionID

instance (r : ResumeLocks) (id : String) : Decidable (Fresh r id) :=
  inferInstanceAs (Decidable (_ ∧ _))

instance (r : ResumeLocks) (sessionID : String) : Decidable (Durable r sessionID) :=
  inferInstanceAs (Decidable (∀ member ∈ r.groupMembers sessionID, _))

instance (r : ResumeLocks) (event : Event) : Decidable (Asked r event) :=
  inferInstanceAs (Decidable (_ ∧ _))

instance (r : ResumeLocks) (event : Event) : Decidable (Allowed r event) :=
  inferInstanceAs (Decidable (_ ∧ _))

/-- The call writes authority for the alias. -/
def Event.Persists (event : Event) (x : String) : Prop :=
  ∃ aliases sessionID owner id write,
    event = .call (.persistForceStopWithOwner aliases sessionID owner id write) ∧ x ∈ aliases

/-- A resume of the alias's group completed, in the epoch that it was asked for. -/
def Event.Completes (event : Event) (r : ResumeLocks) (x : String) : Prop :=
  ∃ sessionID write,
    event = .call (.explicitResumeCompleted sessionID (r.recovery sessionID).epoch write) ∧
      (r.recovery sessionID).stopping = 0 ∧ (r.recovery x).group = (r.recovery sessionID).group

/-- What becomes of an alias's authority on file. -/
def Event.Keeps (event : Event) (r : ResumeLocks) : Prop :=
  ∀ x a, r.authority x = some a →
    (∃ b, (next r event).authority x = some b ∧
      (b = a ∨ b = { a with exitConfirmed := true } ∨ event.Persists x)) ∨ event.Completes r x

theorem Event.keeps_of_authority {event : Event} {r : ResumeLocks}
    (h : (next r event).authority = r.authority) : event.Keeps r := fun x a ha =>
  Or.inl ⟨a, by rw [h]; exact ha, Or.inl rfl⟩

theorem Authoritative.step_spared (hr : Authoritative r) {call : Call}
    (h : Spares r (r.step call)) :
    Authoritative (next r (.call call)) ∧ Event.Keeps (.call call) r :=
  ⟨hr.spared h, Event.keeps_of_authority h.authority⟩

theorem Authoritative.next (hr : Authoritative r) {event : Event} (hallowed : Allowed r event) :
    Authoritative (next r event) ∧ event.Keeps r := by
  obtain ⟨hasked, hdurable⟩ := hallowed
  cases event with
  | restart =>
    obtain ⟨r', hok, hr', hauthority⟩ := hr.restarted
    have hnext : Hubcore.next r .restart = r' := by
      unfold Hubcore.next
      rw [hok]
    rw [hnext]
    refine ⟨hr', Event.keeps_of_authority ?_⟩
    rw [hnext, hauthority]
  | call call =>
    by_cases hwaits : (call.persists && r.running.isSome) = true
    · have hstep : r.step call = r := if_pos hwaits
      apply hr.step_spared
      rw [hstep]
      exact Spares.refl r
    · have hidle : call.persists = true → r.running = none := by
        intro hpersists
        rw [hpersists, Bool.true_and] at hwaits
        exact Option.not_isSome_iff_eq_none.mp hwaits
      cases call with
      | beginForceStop aliases => exact hr.step_spared (spares_beginForceStop r aliases)
      | beginActiveResumeStop aliasID =>
        exact hr.step_spared (spares_beginActiveResumeStop r aliasID)
      | reject fence => exact hr.step_spared (spares_reject r fence)
      | finish fence stopped => exact hr.step_spared (spares_finish r fence stopped)
      | invalidateResumeAdmission aliases =>
        exact hr.step_spared (spares_invalidateResumeAdmission r aliases)
      | registerResume err target aliases epochs =>
        exact hr.step_spared (spares_registerResume r err target aliases epochs)
      | beforeLaunch resume => exact hr.step_spared (spares_beforeLaunch r resume)
      | childReaped resume =>
        apply hr.step_spared
        have hstep : r.step (.childReaped resume) = r.childReaped resume := if_neg hwaits
        rw [hstep]
        exact spares_launch r resume _
      | launchFinished resume failed cleanupErr =>
        apply hr.step_spared
        have hstep : r.step (.launchFinished resume failed cleanupErr) =
          r.launchFinished resume failed cleanupErr := if_neg hwaits
        rw [hstep]
        exact spares_launch r resume _
      | complete resume cleanupErr =>
        apply hr.step_spared
        have hstep : r.step (.complete resume cleanupErr) = r.complete resume cleanupErr :=
          if_neg hwaits
        rw [hstep]
        exact spares_launch r resume _
      | persistForceStopWithOwner aliases sessionID owner id write =>
        have hstep : Hubcore.next r
            (.call (.persistForceStopWithOwner aliases sessionID owner id write)) =
            (r.persistForceStopWithOwner aliases sessionID owner id write).2 := if_neg hwaits
        obtain ⟨hvalid, hfresh⟩ := hasked.1 id rfl (hidle rfl)
        rcases persistForceStopWithOwner_spec r aliases sessionID owner id write with
          hsame | ⟨a, rfl, hpersists⟩
        · rw [← hstep] at hsame
          refine ⟨hsame.symm ▸ hr, Event.keeps_of_authority ?_⟩
          rw [hsame]
        · rw [← hstep] at hpersists
          refine ⟨hr.persisted hpersists (hidle rfl) hvalid hfresh, fun x b hb => Or.inl ?_⟩
          rw [hpersists.authority]
          by_cases hx : x ∈ compactSorted aliases
          · rw [if_pos hx]
            exact ⟨a, rfl, Or.inr (Or.inr
              ⟨aliases, sessionID, owner, _, write, rfl, mem_compactSorted.mp hx⟩)⟩
          · rw [if_neg hx]
            exact ⟨b, hb, Or.inl rfl⟩
      | confirmForceStop sessionID write =>
        have hstep : Hubcore.next r (.call (.confirmForceStop sessionID write)) =
            (r.confirmForceStop sessionID write).2 := if_neg hwaits
        obtain ⟨hr', hkept⟩ := hr.confirmed write (hidle rfl)
          (hdurable sessionID rfl (hidle rfl))
        rw [← hstep] at hr' hkept
        refine ⟨hr', fun x a ha => Or.inl ?_⟩
        obtain ⟨b, hb, hsame | hexit⟩ := hkept x a ha
        · exact ⟨b, hb, Or.inl hsame⟩
        · exact ⟨b, hb, Or.inr (Or.inl hexit)⟩
      | explicitResumeCompleted sessionID epoch write =>
        have hstep : Hubcore.next r (.call (.explicitResumeCompleted sessionID epoch write)) =
            (r.explicitResumeCompleted sessionID epoch write).2 := if_neg hwaits
        obtain ⟨hr', hkept⟩ := hr.completed sessionID epoch write (hidle rfl)
        rw [← hstep] at hr' hkept
        refine ⟨hr', fun x a ha => ?_⟩
        rcases hkept x a ha with hsame | ⟨rfl, hstopping, hgroup⟩
        · exact Or.inl ⟨a, hsame, Or.inl rfl⟩
        · exact Or.inr ⟨sessionID, write, rfl, hstopping, hgroup⟩
      | settle =>
        refine ⟨hr.settle, Event.keeps_of_authority ?_⟩
        show ResumeLocks.authority r.settle = r.authority
        unfold ResumeLocks.authority
        rw [(settle_frame r).1]

/-- In every state of a run the file is one that the next hub accepts and is what the store
    holds, memory requires what it says of an alias, and an obligation leaves it only by a
    completed resume of its group. -/
theorem authority_outlives {events : List Event} (h : Along next Allowed {} events) :
    RecoveryStore.Readable (events.foldl next {}).store.state ∧
      RecoveryStore.openRecoveryStore (events.foldl next {}).store.file =
        .ok (sortBy RecoveryRecord.aliasID (events.foldl next {}).store.state) ∧
      (∀ x a, (events.foldl next {}).authority x = some a →
        Remembers ((events.foldl next {}).recovery x) a) ∧
      ∀ event, Allowed (events.foldl next {}) event → event.Keeps (events.foldl next {}) := by
  have hr : Authoritative (events.foldl next {}) :=
    foldl_along (fun r event hr hallowed => (hr.next hallowed).1) Authoritative.initial h
  exact ⟨hr.readable, hr.opens, hr.memory, fun event hallowed => (hr.next hallowed).2⟩

/-- A whole group is confirmed and the hub starts again. -/
def confirmedGroup : List Event :=
  [.call (.persistForceStopWithOwner ["b", "a"] "a" {} "g" .synced),
    .call (.confirmForceStop "b" .synced), .call .settle, .restart]

theorem confirmedGroup_outlives :
    RecoveryStore.openRecoveryStore (confirmedGroup.foldl next {}).store.file =
        .ok [⟨"a", { exitConfirmed := true, group := "g", sessionID := "a" }⟩,
          ⟨"b", { exitConfirmed := true, group := "g", sessionID := "a" }⟩] ∧
      Remembers ((confirmedGroup.foldl next {}).recovery "b")
        { exitConfirmed := true, group := "g", sessionID := "a" } := by
  have h := @authority_outlives confirmedGroup (by decide)
  exact ⟨h.2.1.trans (by decide), h.2.2.1 "b" _ (by decide)⟩

/-- A completed resume clears `a` while `b` is fenced, and the exit of `b` is confirmed later. -/
def clearedMember : List Event :=
  [.call (.persistForceStopWithOwner ["a", "b"] "a" {} "g" .synced), .call (.beginForceStop ["b"]),
    .call (.explicitResumeCompleted "a" 0 .synced), .call .settle, .call (.finish 0 false),
    .call (.confirmForceStop "b" .synced), .call .settle]

theorem clearedMember_refused : Along next Asked {} clearedMember ∧
    RecoveryStore.openRecoveryStore (clearedMember.foldl next {}).store.file =
      .error "invalid recovery alias or group" := by
  decide

end Evener.Hubcore
