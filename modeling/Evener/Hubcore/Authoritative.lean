/-
  What the recovery file says of an alias is in memory too (`Remembers`), and the aliases of one
  group on disk share their group in memory (`Authoritative.shared`).
-/
import Evener.Hubcore.Fences

namespace Evener.Hubcore

open Evener.Lib Function
open List hiding lookup

/-! ## The store's map -/

/-- The authority of an alias in the store's state. -/
def authorityOf (state : List RecoveryRecord) (x : String) : Option RecoveryAuthority :=
  (lookup RecoveryRecord.aliasID x state).map RecoveryRecord.authority

theorem authorityOf_put (record : RecoveryRecord) (state : List RecoveryRecord) (x : String) :
    authorityOf (put RecoveryRecord.aliasID record state) x =
      if x = record.aliasID then some record.authority else authorityOf state x := by
  unfold authorityOf
  rw [lookup_put]
  by_cases hx : x = record.aliasID
  · rw [if_pos hx.symm, if_pos hx]
    rfl
  · rw [if_neg fun h => hx h.symm, if_neg hx]

theorem authorityOf_erase (y : String) (state : List RecoveryRecord) (x : String) :
    authorityOf (erase RecoveryRecord.aliasID y state) x =
      if x = y then none else authorityOf state x := by
  unfold authorityOf
  rw [lookup_erase]
  split
  · rfl
  · rfl

variable {a : RecoveryAuthority} {x sessionID : String} {state : List RecoveryRecord}
  {member : String × SessionRecoveryState} {aliases : List String}

theorem authorityOf_eq_some (hkeys : KeysNodup RecoveryRecord.aliasID state) :
    authorityOf state x = some a ↔ ⟨x, a⟩ ∈ state := by
  unfold authorityOf
  rw [Option.map_eq_some_iff]
  constructor
  · rintro ⟨record, hrecord, rfl⟩
    obtain ⟨hmem, rfl⟩ := (lookup_eq_some hkeys).mp hrecord
    exact hmem
  · intro hmem
    exact ⟨⟨x, a⟩, (lookup_eq_some hkeys).mpr ⟨hmem, rfl⟩, rfl⟩

theorem authorityOf_perm {state' : List RecoveryRecord}
    (hkeys : KeysNodup RecoveryRecord.aliasID state) (hp : state.Perm state') :
    authorityOf state' = authorityOf state := by
  funext x
  apply Option.ext
  intro a
  rw [authorityOf_eq_some (hkeys.perm hp), authorityOf_eq_some hkeys, hp.mem_iff]

theorem authorityOf_persist (aliases : List String) (authority : RecoveryAuthority)
    (state : List RecoveryRecord) (x : String) :
    authorityOf (aliases.foldl
      (fun next a => put RecoveryRecord.aliasID ⟨a, authority⟩ next) state) x =
      if x ∈ aliases then some authority else authorityOf state x := by
  induction aliases generalizing state with
  | nil => rfl
  | cons a aliases ih =>
    rw [foldl_cons, ih, authorityOf_put]
    by_cases hx : x = a
    · simp [hx]
    · simp [hx]

theorem keysNodup_persist (aliases : List String) (authority : RecoveryAuthority)
    (hkeys : KeysNodup RecoveryRecord.aliasID state) :
    KeysNodup RecoveryRecord.aliasID (aliases.foldl
      (fun next a => put RecoveryRecord.aliasID ⟨a, authority⟩ next) state) := by
  induction aliases generalizing state with
  | nil => exact hkeys
  | cons a aliases ih => exact ih (keysNodup_put hkeys _)

namespace ResumeLocks

theorem confirmMember_eq {next next' : List RecoveryRecord}
    (h : confirmMember next member = some next') :
    ((authorityOf next member.1).getD {}).group = member.2.durableGroup ∧
      next' = put RecoveryRecord.aliasID
        ⟨member.1, { (authorityOf next member.1).getD {} with exitConfirmed := true }⟩ next := by
  unfold confirmMember at h
  dsimp only at h
  split at h
  · cases h
  · next hsame => exact ⟨not_not.mp hsame, (Option.some.inj h).symm⟩

/-- A confirmation that goes through. -/
theorem confirmMembers_spec {members : List (String × SessionRecoveryState)}
    {next : List RecoveryRecord} (h : members.foldlM confirmMember state = some next)
    (hkeys : KeysNodup RecoveryRecord.aliasID state) :
    KeysNodup RecoveryRecord.aliasID next ∧
      (∀ m ∈ members, ((authorityOf state m.1).getD {}).group = m.2.durableGroup) ∧
      ∀ x, authorityOf next x = if x ∈ members.map Prod.fst then
        some { (authorityOf state x).getD {} with exitConfirmed := true }
        else authorityOf state x := by
  induction members generalizing state with
  | nil =>
    obtain rfl := Option.some.inj h
    exact ⟨hkeys, fun _ h => (nomatch h), fun _ => rfl⟩
  | cons member members ih =>
    rw [foldlM_cons] at h
    obtain ⟨next₁, hfirst, hrest⟩ := Option.bind_eq_some_iff.mp h
    obtain ⟨hgroup, rfl⟩ := confirmMember_eq hfirst
    obtain ⟨hkeys', hgroups, hauthority⟩ := ih hrest (keysNodup_put hkeys _)
    have hput := authorityOf_put
      ⟨member.1, { (authorityOf state member.1).getD {} with exitConfirmed := true }⟩ state
    refine ⟨hkeys', fun m hm => ?_, fun x => ?_⟩
    · rcases mem_cons.mp hm with rfl | hm
      · exact hgroup
      · have hother := hgroups m hm
        rw [hput] at hother
        by_cases hx : m.1 = member.1
        · rw [if_pos hx] at hother
          rw [hx]
          exact hother
        · rw [if_neg hx] at hother
          exact hother
    · rw [hauthority, hput]
      by_cases hx : x = member.1
      · simp [hx]
      · simp only [map_cons, mem_cons, hx, false_or, if_false]

theorem clearMember_spec (state : List RecoveryRecord) (member : String × SessionRecoveryState)
    (x : String) : authorityOf (clearMember state member) x =
      if x = member.1 ∧ ((authorityOf state x).getD {}).group = member.2.durableGroup then none
      else authorityOf state x := by
  unfold clearMember
  by_cases hgroup : ((authorityOf state member.1).getD {}).group = member.2.durableGroup
  · have hcode := hgroup
    unfold authorityOf at hcode
    rw [if_pos hcode, authorityOf_erase]
    by_cases hx : x = member.1
    · rw [if_pos hx, if_pos ⟨hx, hx ▸ hgroup⟩]
    · rw [if_neg hx, if_neg fun h => hx h.1]
  · have hcode := hgroup
    unfold authorityOf at hcode
    rw [if_neg hcode, if_neg]
    rintro ⟨rfl, hsame⟩
    exact hgroup hsame

/-- What a completed resume clears. -/
theorem clearMembers_spec (members : List (String × SessionRecoveryState))
    (hkeys : KeysNodup RecoveryRecord.aliasID state) :
    KeysNodup RecoveryRecord.aliasID (members.foldl clearMember state) ∧
      (∀ x a, authorityOf (members.foldl clearMember state) x = some a →
        authorityOf state x = some a ∧ ∀ m ∈ members, m.1 = x → a.group ≠ m.2.durableGroup) ∧
      ∀ x a, authorityOf state x = some a → (∀ m ∈ members, m.1 ≠ x) →
        authorityOf (members.foldl clearMember state) x = some a := by
  induction members generalizing state with
  | nil => exact ⟨hkeys, fun _ _ h => ⟨h, fun _ h => (nomatch h)⟩, fun _ _ h _ => h⟩
  | cons member members ih =>
    have hkeys₁ : KeysNodup RecoveryRecord.aliasID (clearMember state member) := by
      unfold clearMember
      dsimp only
      split
      · exact keysNodup_erase hkeys _
      · exact hkeys
    obtain ⟨hkeys', hback, hkept⟩ := ih hkeys₁
    refine ⟨hkeys', fun x a ha => ?_, fun x a ha hnone => ?_⟩
    · obtain ⟨hmid, hrest⟩ := hback x a ha
      rw [clearMember_spec] at hmid
      split at hmid
      · cases hmid
      · next hnot =>
        refine ⟨hmid, fun m hm hx => ?_⟩
        rcases mem_cons.mp hm with rfl | hm
        · intro hgroup
          refine hnot ⟨hx.symm, ?_⟩
          rw [hmid]
          exact hgroup
        · exact hrest m hm hx
    · refine hkept x a ?_ fun m hm => hnone m (mem_cons_of_mem _ hm)
      rw [clearMember_spec, if_neg fun h => hnone member mem_cons_self h.1.symm]
      exact ha

end ResumeLocks

/-! ## The invariant -/

/-- What memory knows of an alias whose authority is on disk. -/
structure Remembers (state : SessionRecoveryState) (a : RecoveryAuthority) : Prop where
  resumeRequired : state.resumeRequired = true
  durableGroup : state.durableGroup = a.group
  resumeSessionID : state.resumeSessionID = a.sessionID
  exitConfirmed : state.exitConfirmed = true → a.exitConfirmed = true

namespace ResumeLocks

def authority (r : ResumeLocks) (x : String) : Option RecoveryAuthority :=
  authorityOf r.store.state x

def members (r : ResumeLocks) (g : Nat) : List String :=
  (r.groups[g]?.map SessionRecoveryGroup.aliases).getD []

theorem mem_groupMembers {r : ResumeLocks} : member ∈ r.groupMembers sessionID ↔
      ∃ g, (r.recovery sessionID).group = some g ∧ member.1 ∈ r.members g ∧
        (r.recovery member.1).group = some g ∧ member.2 = r.recovery member.1 := by
  unfold groupMembers
  cases hg : (r.recovery sessionID).group with
  | none => simp
  | some g =>
    rw [mem_map]
    constructor
    · rintro ⟨x, hx, rfl⟩
      obtain ⟨hmem, hgroup⟩ := mem_filter.mp hx
      exact ⟨g, rfl, hmem, of_decide_eq_true hgroup, rfl⟩
    · rintro ⟨g', hsame, hmem, hgroup, hstate⟩
      obtain rfl := Option.some.inj hsame
      exact ⟨member.1, mem_filter.mpr ⟨hmem, decide_eq_true hgroup⟩, Prod.ext rfl hstate.symm⟩

/-- The running persistence call has settled in the store what its second section tells memory. -/
def Settled (r : ResumeLocks) : Prop :=
  match r.running with
  | none => True
  | some (.confirmForceStop eligible) =>
    ∀ m ∈ eligible, ∀ a, r.authority m.1 = some a → a.exitConfirmed = true
  | some (.explicitResumeCompleted eligible) => ∀ m ∈ eligible, r.authority m.1 = none

end ResumeLocks

structure Authoritative (r : ResumeLocks) : Prop where
  keys : KeysNodup RecoveryRecord.aliasID r.store.state
  file : r.store.file = none ∧ r.store.state = [] ∨
    r.store.file = some (sortBy RecoveryRecord.aliasID r.store.state)
  valid : ∀ x a, r.authority x = some a → validRecoveryAlias x = true ∧ trimSpace a.group ≠ "" ∧
    validRecoveryAlias a.sessionID = true
  one : ∀ x a y b, r.authority x = some a → r.authority y = some b → a.group = b.group → a = b
  memory : ∀ x a, r.authority x = some a → Remembers (r.recovery x) a
  member : ∀ x a, r.authority x = some a → ∃ g, (r.recovery x).group = some g ∧ x ∈ r.members g
  shared : ∀ x a y b, r.authority x = some a → r.authority y = some b → a.group = b.group →
    (r.recovery x).group = (r.recovery y).group
  settled : r.Settled

theorem Authoritative.initial : Authoritative {} where
  keys := keysNodup_nil
  file := Or.inl ⟨rfl, rfl⟩
  valid _ _ h := nomatch h
  one _ _ _ _ h := nomatch h
  memory _ _ h := nomatch h
  member _ _ h := nomatch h
  shared _ _ _ _ h := nomatch h
  settled := trivial

variable {r r' : ResumeLocks}

theorem Authoritative.readable (hr : Authoritative r) : RecoveryStore.Readable r.store.state where
  keys := hr.keys
  aliasID record hmem := (hr.valid _ _ ((authorityOf_eq_some hr.keys).mpr hmem)).1
  group record hmem := (hr.valid _ _ ((authorityOf_eq_some hr.keys).mpr hmem)).2.1
  session record hmem := (hr.valid _ _ ((authorityOf_eq_some hr.keys).mpr hmem)).2.2
  one record hmem record' hmem' := hr.one _ _ _ _ ((authorityOf_eq_some hr.keys).mpr hmem)
    ((authorityOf_eq_some hr.keys).mpr hmem')

theorem Authoritative.opens (hr : Authoritative r) :
    RecoveryStore.openRecoveryStore r.store.file =
      .ok (sortBy RecoveryRecord.aliasID r.store.state) := by
  rcases hr.file with ⟨hfile, hstate⟩ | hfile
  · rw [hfile, hstate]
    rfl
  · rw [hfile]
    exact RecoveryStore.openRecoveryStore_readable (hr.readable.perm (sortBy_perm _).symm)

/-! ## Calls that leave the store alone -/

/-- What a persistence call wrote of an alias stays, and no requirement is lifted. -/
structure Spared (state state' : SessionRecoveryState) : Prop where
  group : state'.group = state.group
  durableGroup : state'.durableGroup = state.durableGroup
  resumeSessionID : state'.resumeSessionID = state.resumeSessionID
  exitConfirmed : state'.exitConfirmed = state.exitConfirmed
  resumeRequired : state.resumeRequired = true → state'.resumeRequired = true

theorem Spared.refl (state : SessionRecoveryState) : Spared state state :=
  ⟨rfl, rfl, rfl, rfl, id⟩

theorem Spared.trans {state state' state'' : SessionRecoveryState} (h : Spared state state')
    (h' : Spared state' state'') : Spared state state'' where
  group := h'.group.trans h.group
  durableGroup := h'.durableGroup.trans h.durableGroup
  resumeSessionID := h'.resumeSessionID.trans h.resumeSessionID
  exitConfirmed := h'.exitConfirmed.trans h.exitConfirmed
  resumeRequired hrequired := h'.resumeRequired (h.resumeRequired hrequired)

theorem update_spares {recovery : String → SessionRecoveryState} {id : String}
    {state : SessionRecoveryState} (h : Spared (recovery id) state) (x : String) :
    Spared (recovery x) (Function.update recovery id state x) := by
  by_cases hx : x = id
  · rw [hx, update_self]
    exact h
  · rw [update_of_ne hx]
    exact Spared.refl _

theorem each_spares {change : String → SessionRecoveryState → SessionRecoveryState}
    (h : ∀ id state, Spared state (change id state)) (aliases : List String)
    (recovery : String → SessionRecoveryState) (x : String) :
    Spared (recovery x) (ResumeLocks.each aliases change recovery x) := by
  unfold ResumeLocks.each
  induction aliases generalizing recovery with
  | nil => exact Spared.refl _
  | cons a aliases ih => exact (update_spares (h a (recovery a)) x).trans (ih _)

theorem overwrite_spares (sequence : Nat) (aliases : List String)
    (saved : (String → SessionRecoveryState) × (String → Nat)) (x : String) :
    Spared (saved.1 x) ((aliases.foldl (ResumeLocks.overwrite sequence) saved).1 x) := by
  induction aliases generalizing saved with
  | nil => exact Spared.refl _
  | cons a aliases ih =>
    have hfirst : Spared (saved.1 x) ((ResumeLocks.overwrite sequence saved a).1 x) := by
      apply update_spares
      exact ⟨rfl, rfl, rfl, rfl, id⟩
    exact hfirst.trans (ih _)

/-- The store, the groups and what was written of the aliases stay. -/
structure Spares (r r' : ResumeLocks) : Prop where
  store : r'.store = r.store
  running : r'.running = r.running
  groups : r'.groups = r.groups
  recovery : ∀ x, Spared (r.recovery x) (r'.recovery x)

theorem Spares.refl (r : ResumeLocks) : Spares r r := ⟨rfl, rfl, rfl, fun _ => Spared.refl _⟩

theorem spares_beginForceStop (r : ResumeLocks) (aliases : List String) :
    Spares r (r.beginForceStop aliases) :=
  ⟨rfl, rfl, rfl, overwrite_spares (r.sequence + 1) aliases (r.recovery, fun _ => 0)⟩

theorem spares_modifyResumes (r : ResumeLocks) (f : ActiveResume → ActiveResume)
    (actives : List Nat) :
    Spares r (actives.foldl (fun r resume => r.modifyResume resume f) r) := by
  induction actives generalizing r with
  | nil => exact Spares.refl r
  | cons a actives ih =>
    have hrest := ih (r.modifyResume a f)
    exact ⟨hrest.store, hrest.running, hrest.groups, hrest.recovery⟩

theorem spares_beginActiveResumeStop (r : ResumeLocks) (aliasID : String) :
    Spares r (r.beginActiveResumeStop aliasID) := by
  unfold ResumeLocks.beginActiveResumeStop
  split
  · exact Spares.refl r
  · have hbegun := spares_beginForceStop r (r.activeResumeOverlapLocked aliasID).1
    have hrest := spares_modifyResumes (r.beginForceStop (r.activeResumeOverlapLocked aliasID).1)
      (fun a => { a with canceled := true }) (r.activeResumeOverlapLocked aliasID).2
    exact ⟨hrest.store.trans hbegun.store, hrest.running.trans hbegun.running,
      hrest.groups.trans hbegun.groups,
      fun x => (hbegun.recovery x).trans (hrest.recovery x)⟩

theorem spares_finish (r : ResumeLocks) (fence : Nat) (stopped : Bool) :
    Spares r (r.finish fence stopped) := by
  unfold ResumeLocks.finish
  split
  · exact Spares.refl r
  · split
    · exact Spares.refl r
    · refine ⟨rfl, rfl, rfl, fun x => ?_⟩
      dsimp only
      apply each_spares
      intro _ state
      exact ⟨rfl, rfl, rfl, rfl, fun h => by simp [h]⟩

theorem spares_reject (r : ResumeLocks) (fence : Nat) : Spares r (r.reject fence) := by
  unfold ResumeLocks.reject
  split
  · exact Spares.refl r
  · split
    · exact Spares.refl r
    · refine ⟨rfl, rfl, rfl, fun x => ?_⟩
      dsimp only
      apply each_spares
      intro _ state
      split
      · exact ⟨rfl, rfl, rfl, rfl, id⟩
      · exact Spared.refl _

theorem spares_invalidateResumeAdmission (r : ResumeLocks) (aliases : List String) :
    Spares r (r.invalidateResumeAdmission aliases) := by
  unfold ResumeLocks.invalidateResumeAdmission
  refine ⟨rfl, rfl, rfl, fun x => ?_⟩
  dsimp only
  apply each_spares
  intro _ _
  exact ⟨rfl, rfl, rfl, rfl, id⟩

theorem spares_registerResume (r : ResumeLocks) (err : Option String) (target : String)
    (aliases : List String) (epochs : List (String × Nat)) :
    Spares r (r.registerResume err target aliases epochs).2 := by
  unfold ResumeLocks.registerResume
  dsimp only
  split
  · exact Spares.refl r
  · split
    · exact Spares.refl r
    · split
      · exact Spares.refl r
      · exact ⟨rfl, rfl, rfl, fun _ => Spared.refl _⟩

theorem spares_beforeLaunch (r : ResumeLocks) (resume : Nat) : Spares r (r.beforeLaunch resume) := by
  unfold ResumeLocks.beforeLaunch
  split
  · exact Spares.refl r
  · split
    · exact Spares.refl r
    · split
      · exact Spares.refl r
      · exact ⟨rfl, rfl, rfl, fun _ => Spared.refl _⟩

theorem spares_launch (r : ResumeLocks) (resume : Nat) (f : ActiveResume → ActiveResume) :
    Spares r ((r.modifyResume resume f).settleLocked resume) := by
  unfold ResumeLocks.settleLocked
  split
  · exact ⟨rfl, rfl, rfl, fun _ => Spared.refl _⟩
  · split
    · exact ⟨rfl, rfl, rfl, fun _ => Spared.refl _⟩
    · exact ⟨rfl, rfl, rfl, fun _ => Spared.refl _⟩

theorem Remembers.spared {state state' : SessionRecoveryState} (h : Remembers state a)
    (hs : Spared state state') : Remembers state' a where
  resumeRequired := hs.resumeRequired h.resumeRequired
  durableGroup := hs.durableGroup.trans h.durableGroup
  resumeSessionID := hs.resumeSessionID.trans h.resumeSessionID
  exitConfirmed hconfirmed := h.exitConfirmed (hs.exitConfirmed ▸ hconfirmed)

theorem Spares.authority (h : Spares r r') : r'.authority = r.authority := by
  unfold ResumeLocks.authority
  rw [h.store]

theorem Spares.members (h : Spares r r') : r'.members = r.members := by
  unfold ResumeLocks.members
  rw [h.groups]

theorem Authoritative.spared (hr : Authoritative r) (h : Spares r r') : Authoritative r' where
  keys := h.store ▸ hr.keys
  file := h.store ▸ hr.file
  valid := h.authority ▸ hr.valid
  one := h.authority ▸ hr.one
  memory x a ha := (hr.memory x a (h.authority ▸ ha)).spared (h.recovery x)
  member x a ha := by
    obtain ⟨g, hg, hmem⟩ := hr.member x a (h.authority ▸ ha)
    exact ⟨g, (h.recovery x).group.trans hg, h.members ▸ hmem⟩
  shared x a y b ha hb hsame := by
    rw [(h.recovery x).group, (h.recovery y).group]
    exact hr.shared x a y b (h.authority ▸ ha) (h.authority ▸ hb) hsame
  settled := by
    unfold ResumeLocks.Settled
    rw [h.running, h.authority]
    exact hr.settled

end Evener.Hubcore
