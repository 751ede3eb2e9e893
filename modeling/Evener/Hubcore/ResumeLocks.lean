/-
  The hub's resume locks: admission fences, active resumes and recovery authority.

  Objects that the code shares by pointer have addresses, places in the list of all that were
  made. A section under the admission mutex is one step; a persistence call that has two of them
  is `running` in between and holds the persistence mutex.
-/
import Mathlib.Data.List.Dedup
import Mathlib.Logic.Function.Basic
import Evener.Hubcore.RecoveryStore

namespace Evener.Hubcore

open Evener.Lib

/-- The identity of a daemon process; `startedAt` is an instant. -/
structure Target where
  pid : Int := 0
  sessionID : String := ""
  stateDir : String := ""
  startedAt : Int := 0
deriving DecidableEq

structure SessionRecoveryState where
  epoch : Nat := 0
  lastRecoverySequence : Nat := 0
  stopping : Int := 0
  resumeRequired : Bool := false
  exitConfirmed : Bool := false
  resumeSessionID : String := ""
  group : Option Nat := none
  durableGroup : String := ""
  owner : Target := {}
deriving DecidableEq

structure SessionRecoveryGroup where
  aliases : List String
deriving DecidableEq

structure ForceStopFence where
  aliases : List String
  previous : String → Nat
  sequence : Nat
  rejected : Bool := false
  finished : Bool := false

structure ActiveResume where
  aliases : List String
  canceled : Bool := false
  cleanupErr : Option String := none
  handlerDone : Bool := false
  childPrepared : Bool := false
  childReaped : Bool := false
  launchFailed : Bool := false
deriving DecidableEq

/-- A persistence call after its first section and its commit, with the aliases that it found. -/
inductive Persisting where
  | confirmForceStop (eligible : List (String × SessionRecoveryState))
  | explicitResumeCompleted (eligible : List (String × SessionRecoveryState))
deriving DecidableEq

structure ResumeLocks where
  store : RecoveryStore := {}
  running : Option Persisting := none
  groups : List SessionRecoveryGroup := []
  resumes : List ActiveResume := []
  active : String → List Nat := fun _ => []
  recovery : String → SessionRecoveryState := fun _ => {}
  sequence : Nat := 0
  /-- All fences that began; `held` are those in the registry's list. -/
  fences : List ForceStopFence := []
  held : List Nat := []

/-- `slices.Compact` of the sorted elements. -/
def compactSorted (aliases : List String) : List String := (sortBy id aliases).dedup

/-- `errors.Join`. -/
def joinErr : Option String → Option String → Option String
  | some err, some err' => some (err ++ "\n" ++ err')
  | some err, none => some err
  | none, err' => err'

/-- Where a held fence saves the value that `f` wrote, it saves what `f` saved. -/
def ForceStopFence.retire (f held : ForceStopFence) : ForceStopFence :=
  { held with
    previous := f.aliases.foldl
      (fun previous id =>
        if previous id = f.sequence then Function.update previous id (f.previous id)
        else previous) held.previous }

namespace ResumeLocks

/-- Change the states of the aliases, one after the other. -/
def each (aliases : List String) (change : String → SessionRecoveryState → SessionRecoveryState)
    (recovery : String → SessionRecoveryState) : String → SessionRecoveryState :=
  aliases.foldl (fun recovery id => Function.update recovery id (change id (recovery id))) recovery

/-! ## Fences -/

/-- Put the fence's sequence in place of the alias's, and save that. -/
def overwrite (sequence : Nat) (saved : (String → SessionRecoveryState) × (String → Nat))
    (id : String) : (String → SessionRecoveryState) × (String → Nat) :=
  let state := saved.1 id
  (Function.update saved.1 id { state with
      lastRecoverySequence := sequence
      stopping := state.stopping + 1 },
    Function.update saved.2 id state.lastRecoverySequence)

def beginForceStopLocked (r : ResumeLocks) (aliases : List String) : ResumeLocks :=
  let sequence := r.sequence + 1
  let (recovery, previous) := aliases.foldl (overwrite sequence) (r.recovery, fun _ => 0)
  { r with
    sequence := sequence
    recovery := recovery
    fences := r.fences ++ [{ aliases := aliases, previous := previous, sequence := sequence }]
    held := r.held ++ [r.fences.length] }

def beginForceStop (r : ResumeLocks) (aliases : List String) : ResumeLocks :=
  r.beginForceStopLocked aliases

def finish (r : ResumeLocks) (fence : Nat) (stopped : Bool) : ResumeLocks :=
  match r.fences[fence]? with
  | none => r
  | some f =>
    if f.finished then r
    else
      let sequence := r.sequence + 1
      { r with
        fences := r.fences.set fence { f with finished := true }
        held := r.held.filter (· ≠ fence)
        sequence := sequence
        recovery := each f.aliases (fun _ state =>
          { state with
            stopping := state.stopping - 1
            epoch := if f.rejected then state.epoch else state.epoch + 1
            lastRecoverySequence := if f.rejected then state.lastRecoverySequence else sequence
            resumeRequired := state.resumeRequired || stopped }) r.recovery }

def reject (r : ResumeLocks) (fence : Nat) : ResumeLocks :=
  match r.fences[fence]? with
  | none => r
  | some f =>
    if f.rejected || f.finished then r
    else
      { r with
        recovery := each f.aliases (fun id state =>
          if state.lastRecoverySequence = f.sequence then
            { state with lastRecoverySequence := f.previous id }
          else state) r.recovery
        fences := r.fences.mapIdx fun i g =>
          if i = fence then { g with rejected := true }
          else if i ∈ r.held then f.retire g
          else g }

def invalidateResumeAdmission (r : ResumeLocks) (aliases : List String) : ResumeLocks :=
  { r with
    recovery := each aliases (fun _ state => { state with epoch := state.epoch + 1 }) r.recovery }

/-! ## Active resumes -/

def modifyResume (r : ResumeLocks) (resume : Nat) (f : ActiveResume → ActiveResume) : ResumeLocks :=
  { r with resumes := r.resumes.modify resume f }

/-- Whether the resume's context ended or its tokens could not be taken, `err` is the outcome. -/
def registerResume (r : ResumeLocks) (err : Option String) (target : String) (aliases : List String)
    (epochs : List (String × Nat)) : Except String Nat × ResumeLocks :=
  let aliases := compactSorted aliases
  if !validRecoveryAlias target || target ∉ aliases then
    (.error "resume target must be an ownership alias", r)
  else
    let invalid := aliases.findSome? fun id =>
      if !validRecoveryAlias id then some "invalid resume ownership alias"
      else if (lookup Prod.fst id epochs).isNone then
        some "resume ownership alias has no recovery epoch"
      else none
    match invalid <|> err with
    | some err => (.error err, r)
    | none =>
      let refusal := aliases.findSome? fun id =>
        match (r.active id).findSome? fun resume =>
            r.resumes[resume]?.bind ActiveResume.cleanupErr with
        | some err => some err
        | none =>
          if some (r.recovery id).epoch ≠ (lookup Prod.fst id epochs).map Prod.snd ∨
              (r.recovery id).stopping ≠ 0 then
            some "session recovery changed before resume ownership was acquired"
          else none
      match refusal with
      | some err => (.error err, r)
      | none =>
        (.ok r.resumes.length,
          { r with
            resumes := r.resumes ++ [{ aliases := aliases }]
            active := fun id =>
              if id ∈ aliases then r.active id ++ [r.resumes.length] else r.active id })

/-- Follow overlapping reservations: the aliases seen and the resumes found. Every round takes an
    alias off the queue, and a resume puts its aliases on the queue once. -/
def overlap (r : ResumeLocks) : Nat → List String → List String → List Nat → List String × List Nat
  | 0, _, seen, actives => (seen, actives)
  | _ + 1, [], seen, actives => (seen, actives)
  | fuel + 1, current :: queue, seen, actives =>
    if current ∈ seen then r.overlap fuel queue seen actives
    else
      let found := (r.active current).filter (· ∉ actives)
      r.overlap fuel
        (queue ++ found.flatMap fun i => (r.resumes[i]?.map ActiveResume.aliases).getD [])
        (seen ++ [current]) (actives ++ found)

def activeResumeOverlapLocked (r : ResumeLocks) (aliasID : String) : List String × List Nat :=
  let (seen, actives) :=
    r.overlap ((r.resumes.flatMap ActiveResume.aliases).length + 1) [aliasID] [] []
  (sortBy id seen, actives)

def beginActiveResumeStop (r : ResumeLocks) (aliasID : String) : ResumeLocks :=
  if (r.active aliasID).isEmpty then r
  else
    let (aliases, actives) := r.activeResumeOverlapLocked aliasID
    let r := r.beginForceStopLocked aliases
    actives.foldl (fun r resume => r.modifyResume resume fun a => { a with canceled := true }) r

def settleLocked (r : ResumeLocks) (resume : Nat) : ResumeLocks :=
  match r.resumes[resume]? with
  | none => r
  | some a =>
    if !a.handlerDone || (a.childPrepared && a.launchFailed && !a.childReaped) then r
    else
      { r with
        active := fun id =>
          if id ∈ a.aliases then (r.active id).filter (· ≠ resume) else r.active id }

def beforeLaunch (r : ResumeLocks) (resume : Nat) : ResumeLocks :=
  match r.resumes[resume]? with
  | none => r
  | some a =>
    if a.canceled then r
    else if a.aliases.any fun id => (r.active id).any fun other =>
        other ≠ resume && (r.resumes[other]?.bind ActiveResume.cleanupErr).isSome then r
    else r.modifyResume resume fun a => { a with childPrepared := true }

def childReaped (r : ResumeLocks) (resume : Nat) : ResumeLocks :=
  (r.modifyResume resume fun a => { a with childReaped := true }).settleLocked resume

def launchFinished (r : ResumeLocks) (resume : Nat) (failed : Bool) (cleanupErr : Option String) :
    ResumeLocks :=
  (r.modifyResume resume fun a =>
    { a with
      launchFailed := failed
      cleanupErr := joinErr a.cleanupErr cleanupErr }).settleLocked resume

def complete (r : ResumeLocks) (resume : Nat) (cleanupErr : Option String) : ResumeLocks :=
  (r.modifyResume resume fun a =>
    { a with
      cleanupErr := a.cleanupErr <|> cleanupErr
      handlerDone := true
      canceled := true }).settleLocked resume

/-! ## Recovery authority -/

/-- The members of the session's group that still belong to it. -/
def groupMembers (r : ResumeLocks) (sessionID : String) : List (String × SessionRecoveryState) :=
  match (r.recovery sessionID).group with
  | none => []
  | some g =>
    (((r.groups[g]?.map SessionRecoveryGroup.aliases).getD []).filter fun id =>
      (r.recovery id).group = some g).map fun id => (id, r.recovery id)

/-- `id` is the text drawn for the new group. The result is `committed` and the error. -/
def persistForceStopWithOwner (r : ResumeLocks) (aliases : List String) (sessionID : String)
    (owner : Target) (id : String) (write : Write) : (Bool × Option String) × ResumeLocks :=
  if aliases.isEmpty then ((false, some "recovery alias set is empty"), r)
  else
    let aliases := compactSorted aliases
    if aliases.any fun a => !validRecoveryAlias a then ((false, some "invalid recovery alias"), r)
    else if !validRecoveryAlias sessionID || sessionID ∉ aliases then
      ((false, some "recovery target must be a verified ownership alias"), r)
    else
      let authority : RecoveryAuthority :=
        { group := id
          sessionID := sessionID
          ownerPID := owner.pid
          ownerStateDir := owner.stateDir
          ownerStartedAt := owner.startedAt }
      let next := aliases.foldl (fun next a => put RecoveryRecord.aliasID ⟨a, authority⟩ next)
        r.store.state
      let store := r.store.commit next write
      if write.renamed then
        ((true, write.err),
          { r with
            store := store
            groups := r.groups ++ [⟨aliases⟩]
            recovery := each aliases (fun _ state =>
              { state with
                group := some r.groups.length
                resumeRequired := true
                exitConfirmed := false
                durableGroup := id
                resumeSessionID := sessionID
                owner := owner }) r.recovery })
      else ((false, write.err), { r with store := store })

/-- Confirm one member in the store's next state. -/
def confirmMember (next : List RecoveryRecord) (member : String × SessionRecoveryState) :
    Option (List RecoveryRecord) :=
  let authority :=
    ((lookup RecoveryRecord.aliasID member.1 next).map RecoveryRecord.authority).getD {}
  if authority.group ≠ member.2.durableGroup then none
  else
    some (put RecoveryRecord.aliasID ⟨member.1, { authority with exitConfirmed := true }⟩ next)

def confirmForceStop (r : ResumeLocks) (sessionID : String) (write : Write) :
    Option String × ResumeLocks :=
  let eligible := r.groupMembers sessionID
  if eligible.isEmpty then (some "session has no committed recovery authority", r)
  else
    match eligible.foldlM confirmMember r.store.state with
    | none => (some "session recovery authority changed", r)
    | some next =>
      let r := { r with store := r.store.commit next write }
      match write.err with
      | some err => (some err, r)
      | none => (none, { r with running := some (.confirmForceStop eligible) })

/-- Clear one member in the store's next state. -/
def clearMember (next : List RecoveryRecord) (member : String × SessionRecoveryState) :
    List RecoveryRecord :=
  let authority :=
    ((lookup RecoveryRecord.aliasID member.1 next).map RecoveryRecord.authority).getD {}
  if authority.group = member.2.durableGroup then erase RecoveryRecord.aliasID member.1 next
  else next

def explicitResumeCompleted (r : ResumeLocks) (sessionID : String) (epoch : Nat) (write : Write) :
    Option String × ResumeLocks :=
  let state := r.recovery sessionID
  if state.epoch ≠ epoch ∨ state.stopping ≠ 0 ∨ state.group = none then (none, r)
  else
    let eligible := (r.groupMembers sessionID).filter fun member => member.2.stopping = 0
    let r := { r with store := r.store.commit (eligible.foldl clearMember r.store.state) write }
    match write.err with
    | some err => (some err, r)
    | none => (none, { r with running := some (.explicitResumeCompleted eligible) })

/-- The second section of the persistence call that is running. -/
def settle (r : ResumeLocks) : ResumeLocks :=
  match r.running with
  | none => r
  | some (.confirmForceStop eligible) =>
    { r with
      running := none
      recovery := eligible.foldl
        (fun recovery (member : String × SessionRecoveryState) =>
          let current := recovery member.1
          if current.group = member.2.group then
            Function.update recovery member.1 { current with exitConfirmed := true }
          else recovery) r.recovery }
  | some (.explicitResumeCompleted eligible) =>
    { r with
      running := none
      recovery := eligible.foldl
        (fun recovery (member : String × SessionRecoveryState) =>
          let current := recovery member.1
          if current.group ≠ member.2.group ∨ current.epoch ≠ member.2.epoch ∨
              current.stopping ≠ 0 then recovery
          else
            Function.update recovery member.1 { current with
              resumeRequired := false
              durableGroup := ""
              resumeSessionID := "" }) r.recovery }

/-- A hub start: the state of the file becomes that of its aliases. -/
def newPersistentResumeLocks (file : Option (List RecoveryRecord)) : Except String ResumeLocks :=
  match RecoveryStore.openRecoveryStore file with
  | .error err => .error err
  | .ok state =>
    let ids := (state.map fun record => record.authority.group).dedup
    .ok
      { store := { file := file, state := state }
        groups := ids.map fun id =>
          ⟨(state.filter fun record => record.authority.group = id).map RecoveryRecord.aliasID⟩
        recovery := fun a =>
          match lookup RecoveryRecord.aliasID a state with
          | none => {}
          | some record =>
            { resumeRequired := true
              exitConfirmed := record.authority.exitConfirmed
              group := some (ids.idxOf record.authority.group)
              durableGroup := record.authority.group
              resumeSessionID := record.authority.sessionID
              owner :=
                { pid := record.authority.ownerPID
                  sessionID := record.authority.sessionID
                  stateDir := record.authority.ownerStateDir
                  startedAt := record.authority.ownerStartedAt } } }

end ResumeLocks

/-! ## Calls -/

inductive Call where
  | beginForceStop (aliases : List String)
  | beginActiveResumeStop (aliasID : String)
  | reject (fence : Nat)
  | finish (fence : Nat) (stopped : Bool)
  | invalidateResumeAdmission (aliases : List String)
  | registerResume (err : Option String) (target : String) (aliases : List String)
    (epochs : List (String × Nat))
  | beforeLaunch (resume : Nat)
  | childReaped (resume : Nat)
  | launchFinished (resume : Nat) (failed : Bool) (cleanupErr : Option String)
  | complete (resume : Nat) (cleanupErr : Option String)
  | persistForceStopWithOwner (aliases : List String) (sessionID : String) (owner : Target)
    (id : String) (write : Write)
  | confirmForceStop (sessionID : String) (write : Write)
  | explicitResumeCompleted (sessionID : String) (epoch : Nat) (write : Write)
  | settle
deriving DecidableEq

/-- The call takes the persistence mutex. -/
def Call.persists : Call → Bool
  | .childReaped _ => true
  | .launchFinished .. => true
  | .complete .. => true
  | .persistForceStopWithOwner .. => true
  | .confirmForceStop .. => true
  | .explicitResumeCompleted .. => true
  | _ => false

namespace ResumeLocks

/-- A call that has to wait for the running one is no step. -/
def step (r : ResumeLocks) (call : Call) : ResumeLocks :=
  if call.persists && r.running.isSome then r
  else
    match call with
    | .beginForceStop aliases => r.beginForceStop aliases
    | .beginActiveResumeStop aliasID => r.beginActiveResumeStop aliasID
    | .reject fence => r.reject fence
    | .finish fence stopped => r.finish fence stopped
    | .invalidateResumeAdmission aliases => r.invalidateResumeAdmission aliases
    | .registerResume err target aliases epochs => (r.registerResume err target aliases epochs).2
    | .beforeLaunch resume => r.beforeLaunch resume
    | .childReaped resume => r.childReaped resume
    | .launchFinished resume failed cleanupErr => r.launchFinished resume failed cleanupErr
    | .complete resume cleanupErr => r.complete resume cleanupErr
    | .persistForceStopWithOwner aliases sessionID owner id write =>
      (r.persistForceStopWithOwner aliases sessionID owner id write).2
    | .confirmForceStop sessionID write => (r.confirmForceStop sessionID write).2
    | .explicitResumeCompleted sessionID epoch write =>
      (r.explicitResumeCompleted sessionID epoch write).2
    | .settle => r.settle

end ResumeLocks

end Evener.Hubcore
