/-
  Persistence calls keep file and memory together.

  Confirming a member that was cleared alone writes a record without a group, which is what
  `Allowed` keeps out.
-/
import Evener.Hubcore.Authoritative

namespace Evener.Hubcore

open Evener.Lib Function Option
open List hiding lookup

variable {a : RecoveryAuthority} {x sessionID : String} {state : List RecoveryRecord}
  {member : String × SessionRecoveryState} {write : Write} {aliases : List String}
  {r r' : ResumeLocks}

/-! ## Persistence calls -/

theorem commit_renamed (s : RecoveryStore) (next : List RecoveryRecord) (h : write.renamed = true) :
    s.commit next write = { file := some (sortBy RecoveryRecord.aliasID next), state := next } :=
  if_pos h

theorem commit_failed (s : RecoveryStore) (next : List RecoveryRecord) (h : ¬ write.renamed = true) :
    s.commit next write = s := if_neg h

theorem Write.renamed_of_err (h : write.err = none) : write.renamed = true := by
  cases write with
  | failed err => cases h
  | unsynced err => rfl
  | synced => rfl

/-- A persistence call that reaches its rename. -/
structure Persists (r r' : ResumeLocks) (aliases : List String) (a : RecoveryAuthority) :
    Prop where
  aliasID : ∀ x ∈ aliases, validRecoveryAlias x = true
  session : validRecoveryAlias a.sessionID = true
  store : r'.store.file = some (sortBy RecoveryRecord.aliasID r'.store.state)
  state : r'.store.state = aliases.foldl
    (fun next x => put RecoveryRecord.aliasID ⟨x, a⟩ next) r.store.state
  running : r'.running = r.running
  groups : r'.groups = r.groups ++ [⟨aliases⟩]
  named : ∀ x ∈ aliases, (r'.recovery x).group = some r.groups.length ∧
    Remembers (r'.recovery x) a
  other : ∀ x, x ∉ aliases → r'.recovery x = r.recovery x

theorem compactSorted_nodup (aliases : List String) : (compactSorted aliases).Nodup :=
  nodup_dedup _

theorem mem_compactSorted : x ∈ compactSorted aliases ↔ x ∈ aliases := by
  unfold compactSorted
  rw [mem_dedup, mem_sortBy]

theorem persistForceStopWithOwner_spec (r : ResumeLocks) (aliases : List String)
    (sessionID : String) (owner : Target) (id : String) (write : Write) :
    (r.persistForceStopWithOwner aliases sessionID owner id write).2 = r ∨
      ∃ a, a.group = id ∧ Persists r
        (r.persistForceStopWithOwner aliases sessionID owner id write).2 (compactSorted aliases) a := by
  unfold ResumeLocks.persistForceStopWithOwner
  split
  · exact Or.inl rfl
  · dsimp only
    split
    · exact Or.inl rfl
    · next hvalid =>
      split
      · exact Or.inl rfl
      · next hsession =>
        split
        · next hrenamed =>
          refine Or.inr ⟨{
            group := id
            sessionID := sessionID
            ownerPID := owner.pid
            ownerStateDir := owner.stateDir
            ownerStartedAt := owner.startedAt }, rfl, ?_⟩
          have happly := ResumeLocks.each_apply (compactSorted_nodup aliases)
            (fun _ state =>
              { state with
                group := some r.groups.length
                resumeRequired := true
                exitConfirmed := false
                durableGroup := id
                resumeSessionID := sessionID
                owner := owner }) r.recovery
          rw [commit_renamed _ _ hrenamed]
          refine ⟨fun x hx => ?_, ?_, rfl, rfl, rfl, rfl, fun x hx => ?_, fun x hx => ?_⟩
          · have hall := fun y hy h => hvalid (any_eq_true.mpr ⟨y, hy, h⟩)
            simpa using hall x hx
          · dsimp only
            simpa using fun h => hsession (Bool.or_eq_true_iff.mpr (Or.inl h))
          · dsimp only
            rw [happly, if_pos hx]
            exact ⟨rfl, rfl, rfl, rfl, fun h => (nomatch h)⟩
          · dsimp only
            rw [happly, if_neg hx]
        · next hfailed =>
          left
          rw [commit_failed _ _ hfailed]

theorem Persists.authority (h : Persists r r' aliases a) (x : String) :
    r'.authority x = if x ∈ aliases then some a else r.authority x := by
  unfold ResumeLocks.authority
  rw [h.state, authorityOf_persist]

theorem mem_members_append {r r' : ResumeLocks} {group : SessionRecoveryGroup}
    (h : r'.groups = r.groups ++ [group]) {g : Nat} (hx : x ∈ r.members g) : x ∈ r'.members g := by
  unfold ResumeLocks.members at hx ⊢
  have hlt : g < r.groups.length := by
    by_contra hge
    rw [getElem?_eq_none (by omega)] at hx
    cases hx
  rw [h, getElem?_append_left hlt]
  exact hx

theorem Authoritative.persisted (hr : Authoritative r) (h : Persists r r' aliases a)
    (hidle : r.running = none) (hgroup : trimSpace a.group ≠ "")
    (hfresh : ∀ record ∈ r.store.state, record.authority.group ≠ a.group) : Authoritative r' := by
  have hother : ∀ x b, r.authority x = some b → b.group ≠ a.group := fun x b hb =>
    hfresh ⟨x, b⟩ ((authorityOf_eq_some hr.keys).mp hb)
  have hcases : ∀ x b, r'.authority x = some b →
      x ∈ aliases ∧ b = a ∨ x ∉ aliases ∧ r.authority x = some b := by
    intro x b hb
    rw [h.authority] at hb
    by_cases hx : x ∈ aliases
    · rw [if_pos hx] at hb
      exact Or.inl ⟨hx, (some.inj hb).symm⟩
    · rw [if_neg hx] at hb
      exact Or.inr ⟨hx, hb⟩
  constructor
  case keys =>
    rw [h.state]
    exact keysNodup_persist aliases a hr.keys
  case file => exact Or.inr h.store
  case valid =>
    intro x b hb
    rcases hcases x b hb with ⟨hx, rfl⟩ | ⟨_, hb⟩
    · exact ⟨h.aliasID x hx, hgroup, h.session⟩
    · exact hr.valid x b hb
  case one =>
    intro x b y c hb hc hsame
    rcases hcases x b hb with ⟨_, rfl⟩ | ⟨_, hb⟩
    · rcases hcases y c hc with ⟨_, rfl⟩ | ⟨_, hc⟩
      · rfl
      · exact absurd hsame.symm (hother y c hc)
    · rcases hcases y c hc with ⟨_, rfl⟩ | ⟨_, hc⟩
      · exact absurd hsame (hother x b hb)
      · exact hr.one x b y c hb hc hsame
  case memory =>
    intro x b hb
    rcases hcases x b hb with ⟨hx, rfl⟩ | ⟨hx, hb⟩
    · exact (h.named x hx).2
    · rw [h.other x hx]
      exact hr.memory x b hb
  case member =>
    intro x b hb
    rcases hcases x b hb with ⟨hx, rfl⟩ | ⟨hx, hb⟩
    · refine ⟨r.groups.length, (h.named x hx).1, ?_⟩
      unfold ResumeLocks.members
      rw [h.groups, getElem?_concat_length]
      exact hx
    · obtain ⟨g, hg, hmem⟩ := hr.member x b hb
      rw [h.other x hx]
      exact ⟨g, hg, mem_members_append h.groups hmem⟩
  case shared =>
    intro x b y c hb hc hsame
    rcases hcases x b hb with ⟨hx, rfl⟩ | ⟨hx, hb⟩
    · rcases hcases y c hc with ⟨hy, rfl⟩ | ⟨_, hc⟩
      · rw [(h.named x hx).1, (h.named y hy).1]
      · exact absurd hsame.symm (hother y c hc)
    · rcases hcases y c hc with ⟨_, rfl⟩ | ⟨hy, hc⟩
      · exact absurd hsame (hother x b hb)
      · rw [h.other x hx, h.other y hy]
        exact hr.shared x b y c hb hc hsame
  case settled =>
    unfold ResumeLocks.Settled
    rw [h.running, hidle]
    trivial

/-- Records of the file may go, and their daemons may have exited, in whole groups. -/
theorem Authoritative.rewritten (hr : Authoritative r) {next : List RecoveryRecord}
    (hkeys : KeysNodup RecoveryRecord.aliasID next)
    (hback : ∀ x a, authorityOf next x = some a → ∃ b, r.authority x = some b ∧
      (a = b ∨ a = { b with exitConfirmed := true }))
    (hone : ∀ x a y b, authorityOf next x = some a → authorityOf next y = some b →
      a.group = b.group → a = b)
    (hstate : r'.store = { file := some (sortBy RecoveryRecord.aliasID next), state := next })
    (hgroups : r'.groups = r.groups) (hrecovery : r'.recovery = r.recovery)
    (hsettled : r'.Settled) : Authoritative r' := by
  have hauthority : r'.authority = authorityOf next := by
    unfold ResumeLocks.authority
    rw [hstate]
  have hmembers : r'.members = r.members := by
    unfold ResumeLocks.members
    rw [hgroups]
  have hfields : ∀ x a, authorityOf next x = some a → ∃ b, r.authority x = some b ∧
      a.group = b.group ∧ a.sessionID = b.sessionID ∧
      (b.exitConfirmed = true → a.exitConfirmed = true) := by
    intro x a ha
    obtain ⟨b, hb, rfl | rfl⟩ := hback x a ha
    · exact ⟨a, hb, rfl, rfl, id⟩
    · exact ⟨b, hb, rfl, rfl, fun _ => rfl⟩
  constructor
  case keys =>
    rw [hstate]
    exact hkeys
  case file =>
    rw [hstate]
    exact Or.inr rfl
  case valid =>
    rw [hauthority]
    intro x a ha
    obtain ⟨b, hb, hgroup, hsession, _⟩ := hfields x a ha
    rw [hgroup, hsession]
    exact hr.valid x b hb
  case one =>
    rw [hauthority]
    exact hone
  case memory =>
    rw [hauthority, hrecovery]
    intro x a ha
    obtain ⟨b, hb, hgroup, hsession, hconfirmed⟩ := hfields x a ha
    have hremembers := hr.memory x b hb
    exact ⟨hremembers.resumeRequired, hremembers.durableGroup.trans hgroup.symm,
      hremembers.resumeSessionID.trans hsession.symm,
      fun h => hconfirmed (hremembers.exitConfirmed h)⟩
  case member =>
    rw [hauthority, hrecovery, hmembers]
    intro x a ha
    obtain ⟨b, hb, _⟩ := hfields x a ha
    exact hr.member x b hb
  case shared =>
    rw [hauthority, hrecovery]
    intro x a y c ha hc hsame
    obtain ⟨b, hb, hgroup, _⟩ := hfields x a ha
    obtain ⟨d, hd, hgroup', _⟩ := hfields y c hc
    exact hr.shared x b y d hb hd (by rw [← hgroup, ← hgroup', hsame])
  case settled => exact hsettled

/-- Every member of the session's group has authority that a file can name. -/
def Durable (r : ResumeLocks) (sessionID : String) : Prop :=
  ∀ member ∈ r.groupMembers sessionID, member.2.durableGroup ≠ ""

/-- An alias that shares the durable group of a confirmed member is confirmed with it. -/
theorem Authoritative.eligible (hr : Authoritative r) (hmember : member ∈ r.groupMembers sessionID)
    {b : RecoveryAuthority} {y : String} (ha : r.authority member.1 = some a)
    (hb : r.authority y = some b) (hsame : a.group = b.group) :
    y ∈ (r.groupMembers sessionID).map Prod.fst := by
  obtain ⟨g, hsession, _, hg, _⟩ := ResumeLocks.mem_groupMembers.mp hmember
  obtain ⟨g', hg', hmem⟩ := hr.member y b hb
  have hshared := hr.shared _ a y b ha hb hsame
  rw [hg, hg'] at hshared
  obtain rfl := some.inj hshared
  exact mem_map.mpr ⟨(y, r.recovery y),
    ResumeLocks.mem_groupMembers.mpr ⟨g, hsession, hmem, hg', rfl⟩, rfl⟩

theorem Authoritative.confirmed (hr : Authoritative r) (write : Write) (hidle : r.running = none)
    (hdurable : Durable r sessionID) :
    Authoritative (r.confirmForceStop sessionID write).2 ∧
      ∀ x a, r.authority x = some a → ∃ b,
        (r.confirmForceStop sessionID write).2.authority x = some b ∧
          (b = a ∨ b = { a with exitConfirmed := true }) := by
  have hstays : ∀ x a, r.authority x = some a → ∃ b, r.authority x = some b ∧
      (b = a ∨ b = { a with exitConfirmed := true }) := fun x a ha => ⟨a, ha, Or.inl rfl⟩
  unfold ResumeLocks.confirmForceStop
  dsimp only
  split
  · exact ⟨hr, hstays⟩
  · split
    · exact ⟨hr, hstays⟩
    · next next hnext =>
      obtain ⟨hkeys, hgroups, hauthority⟩ := ResumeLocks.confirmMembers_spec hnext hr.keys
      -- every eligible alias has a record, since its durable group is not empty
      have hrecord : ∀ x ∈ (r.groupMembers sessionID).map Prod.fst,
          ∃ a, r.authority x = some a := by
        intro x hx
        obtain ⟨member, hmember, rfl⟩ := mem_map.mp hx
        have hgroup := hgroups member hmember
        have hnonempty := hdurable member hmember
        unfold ResumeLocks.authority
        cases hcase : authorityOf r.store.state member.1 with
        | none =>
          rw [hcase] at hgroup
          exact absurd hgroup.symm hnonempty
        | some a => exact ⟨a, rfl⟩
      have hforward : ∀ x a, r.authority x = some a → authorityOf next x =
          some (if x ∈ (r.groupMembers sessionID).map Prod.fst then
            { a with exitConfirmed := true } else a) := by
        intro x a ha
        have ha' : authorityOf r.store.state x = some a := ha
        rw [hauthority, ha']
        split
        · rfl
        · rfl
      have hback : ∀ x a, authorityOf next x = some a → ∃ b, r.authority x = some b := by
        intro x a ha
        by_cases hx : x ∈ (r.groupMembers sessionID).map Prod.fst
        · exact hrecord x hx
        · rw [hauthority, if_neg hx] at ha
          exact ⟨a, ha⟩
      have hone : ∀ x a y b, authorityOf next x = some a → authorityOf next y = some b →
          a.group = b.group → a = b := by
        intro x a y b ha hb hsame
        obtain ⟨a₀, ha₀⟩ := hback x a ha
        obtain ⟨b₀, hb₀⟩ := hback y b hb
        have hanext := ha.symm.trans (hforward x a₀ ha₀)
        have hbnext := hb.symm.trans (hforward y b₀ hb₀)
        obtain rfl := some.inj hanext
        obtain rfl := some.inj hbnext
        have hgroup : a₀.group = b₀.group := by
          split at hsame
          · split at hsame
            · exact hsame
            · exact hsame
          · split at hsame
            · exact hsame
            · exact hsame
        obtain rfl := hr.one x a₀ y b₀ ha₀ hb₀ hgroup
        have hiff : x ∈ (r.groupMembers sessionID).map Prod.fst ↔
            y ∈ (r.groupMembers sessionID).map Prod.fst := by
          constructor
          · intro hx
            obtain ⟨member, hmember, rfl⟩ := mem_map.mp hx
            exact hr.eligible hmember ha₀ hb₀ rfl
          · intro hy
            obtain ⟨member, hmember, rfl⟩ := mem_map.mp hy
            exact hr.eligible hmember hb₀ ha₀ rfl
        rw [if_congr hiff rfl rfl]
      have hkept : ∀ x a, r.authority x = some a → ∃ b, authorityOf next x = some b ∧
          (b = a ∨ b = { a with exitConfirmed := true }) := by
        intro x a ha
        refine ⟨_, hforward x a ha, ?_⟩
        split
        · exact Or.inr rfl
        · exact Or.inl rfl
      have hback' : ∀ x a, authorityOf next x = some a → ∃ b, r.authority x = some b ∧
          (a = b ∨ a = { b with exitConfirmed := true }) := by
        intro x a ha
        obtain ⟨b, hb⟩ := hback x a ha
        obtain ⟨a', ha', hsame⟩ := hkept x b hb
        obtain rfl := some.inj (ha.symm.trans ha')
        exact ⟨b, hb, hsame⟩
      have hidle' : ∀ s, ResumeLocks.Settled { r with store := s } := by
        intro s
        unfold ResumeLocks.Settled
        rw [hidle]
        trivial
      by_cases hrenamed : write.renamed = true
      · rw [commit_renamed _ _ hrenamed]
        split
        · exact ⟨hr.rewritten hkeys hback' hone rfl rfl rfl (hidle' _), hkept⟩
        · refine ⟨hr.rewritten hkeys hback' hone rfl rfl rfl ?_, hkept⟩
          intro member hmember a ha
          have ha' : authorityOf next member.1 = some a := ha
          rw [hauthority, if_pos (mem_map.mpr ⟨member, hmember, rfl⟩)] at ha'
          rw [← some.inj ha']
      · rw [commit_failed _ _ hrenamed]
        split
        · exact ⟨hr, hstays⟩
        · next herr => exact absurd (Write.renamed_of_err herr) hrenamed

/-- A completed resume clears members of its session's group only. -/
theorem Authoritative.completed (hr : Authoritative r) (sessionID : String) (epoch : Nat)
    (write : Write) (hidle : r.running = none) :
    Authoritative (r.explicitResumeCompleted sessionID epoch write).2 ∧
      ∀ x a, r.authority x = some a →
        (r.explicitResumeCompleted sessionID epoch write).2.authority x = some a ∨
          (r.recovery sessionID).epoch = epoch ∧ (r.recovery sessionID).stopping = 0 ∧
            (r.recovery x).group = (r.recovery sessionID).group := by
  have hstays : ∀ x a, r.authority x = some a → r.authority x = some a ∨
      (r.recovery sessionID).epoch = epoch ∧ (r.recovery sessionID).stopping = 0 ∧
        (r.recovery x).group = (r.recovery sessionID).group := fun _ _ ha => Or.inl ha
  unfold ResumeLocks.explicitResumeCompleted
  dsimp only
  split
  · exact ⟨hr, hstays⟩
  · next hasked =>
    have hepoch : (r.recovery sessionID).epoch = epoch :=
      of_not_not fun h => hasked (Or.inl h)
    have hstopping : (r.recovery sessionID).stopping = 0 :=
      of_not_not fun h => hasked (Or.inr (Or.inl h))
    generalize heligible : (r.groupMembers sessionID).filter
      (fun member => member.2.stopping = 0) = eligible
    have hmember : ∀ m ∈ eligible, m ∈ r.groupMembers sessionID := by
      intro m hm
      rw [← heligible] at hm
      exact mem_of_mem_filter hm
    obtain ⟨hkeys, hback, hkept⟩ := ResumeLocks.clearMembers_spec eligible hr.keys
    have hback' : ∀ x a, authorityOf (eligible.foldl ResumeLocks.clearMember r.store.state) x =
        some a → ∃ b, r.authority x = some b ∧ (a = b ∨ a = { b with exitConfirmed := true }) :=
      fun x a ha => ⟨a, (hback x a ha).1, Or.inl rfl⟩
    have hone : ∀ x a y b,
        authorityOf (eligible.foldl ResumeLocks.clearMember r.store.state) x = some a →
        authorityOf (eligible.foldl ResumeLocks.clearMember r.store.state) y = some b →
        a.group = b.group → a = b := fun x a y b ha hb =>
      hr.one x a y b (hback x a ha).1 (hback y b hb).1
    have hcleared : ∀ x a, r.authority x = some a →
        authorityOf (eligible.foldl ResumeLocks.clearMember r.store.state) x = some a ∨
          (r.recovery sessionID).epoch = epoch ∧ (r.recovery sessionID).stopping = 0 ∧
            (r.recovery x).group = (r.recovery sessionID).group := by
      intro x a ha
      by_cases hx : ∀ m ∈ eligible, m.1 ≠ x
      · exact Or.inl (hkept x a ha hx)
      · push Not at hx
        obtain ⟨m, hm, rfl⟩ := hx
        obtain ⟨g, hsession, _, hgroup, _⟩ := ResumeLocks.mem_groupMembers.mp (hmember m hm)
        exact Or.inr ⟨hepoch, hstopping, hgroup.trans hsession.symm⟩
    have hidle' : ∀ s, ResumeLocks.Settled { r with store := s } := by
      intro s
      unfold ResumeLocks.Settled
      rw [hidle]
      trivial
    by_cases hrenamed : write.renamed = true
    · rw [commit_renamed _ _ hrenamed]
      split
      · exact ⟨hr.rewritten hkeys hback' hone rfl rfl rfl (hidle' _), hcleared⟩
      · refine ⟨hr.rewritten hkeys hback' hone rfl rfl rfl ?_, hcleared⟩
        intro m hm
        obtain ⟨_, _, _, _, hstate⟩ := ResumeLocks.mem_groupMembers.mp (hmember m hm)
        apply eq_none_iff_forall_ne_some.mpr
        intro a ha
        obtain ⟨hold, hother⟩ := hback m.1 a ha
        refine hother m hm rfl ?_
        rw [hstate]
        exact (hr.memory m.1 a hold).durableGroup.symm
    · rw [commit_failed _ _ hrenamed]
      split
      · exact ⟨hr, hstays⟩
      · next herr => exact absurd (Write.renamed_of_err herr) hrenamed

/-! ## The second section -/

theorem foldl_relates {α β : Type} {f : (String → α) → β → String → α} {R : String → α → α → Prop}
    (refl : ∀ x a, R x a a) (trans : ∀ {x a b c}, R x a b → R x b c → R x a c) (l : List β)
    (h : ∀ m, ∀ b ∈ l, ∀ x, R x (m x) (f m b x)) (m : String → α) (x : String) :
    R x (m x) (l.foldl f m x) := by
  induction l generalizing m with
  | nil => exact refl x _
  | cons b l ih =>
    rw [foldl_cons]
    exact trans (h m b mem_cons_self x)
      (ih (fun m b hb => h m b (mem_cons_of_mem _ hb)) _)

/-- Memory learns what the store has settled: the groups stay, and an alias that still has
    authority changes only where that is confirmed. -/
def Learns (r : ResumeLocks) (x : String) (state state' : SessionRecoveryState) : Prop :=
  state'.group = state.group ∧ ∀ a, r.authority x = some a → Remembers state a → Remembers state' a

theorem settle_learns (hsettled : r.Settled) (x : String) :
    Learns r x (r.recovery x) (r.settle.recovery x) := by
  have refl : ∀ x state, Learns r x state state := fun x state => ⟨rfl, fun a _ h => h⟩
  have trans : ∀ {x state state' state''}, Learns r x state state' → Learns r x state' state'' →
      Learns r x state state'' := fun h h' =>
    ⟨h'.1.trans h.1, fun a ha hremembers => h'.2 a ha (h.2 a ha hremembers)⟩
  unfold ResumeLocks.Settled at hsettled
  unfold ResumeLocks.settle
  split
  · exact refl x _
  · next eligible hrunning =>
    rw [hrunning] at hsettled
    refine foldl_relates refl trans eligible (fun m member hmember y => ?_) r.recovery x
    by_cases hgroup : (m member.1).group = member.2.group
    · rw [if_pos hgroup]
      by_cases hy : y = member.1
      · subst hy
        rw [update_self]
        refine ⟨rfl, fun a ha h => ⟨h.resumeRequired, h.durableGroup, h.resumeSessionID, ?_⟩⟩
        exact fun _ => hsettled member hmember a ha
      · rw [update_of_ne hy]
        exact refl y _
    · rw [if_neg hgroup]
      exact refl y _
  · next eligible hrunning =>
    rw [hrunning] at hsettled
    refine foldl_relates refl trans eligible (fun m member hmember y => ?_) r.recovery x
    by_cases hchanged : (m member.1).group ≠ member.2.group ∨
        (m member.1).epoch ≠ member.2.epoch ∨ (m member.1).stopping ≠ 0
    · rw [if_pos hchanged]
      exact refl y _
    · rw [if_neg hchanged]
      by_cases hy : y = member.1
      · subst hy
        rw [update_self]
        refine ⟨rfl, fun a ha => ?_⟩
        rw [hsettled member hmember] at ha
        cases ha
      · rw [update_of_ne hy]
        exact refl y _

theorem settle_frame (r : ResumeLocks) : r.settle.store = r.store ∧ r.settle.groups = r.groups ∧
    r.settle.running = none := by
  unfold ResumeLocks.settle
  split
  · next h => exact ⟨rfl, rfl, h⟩
  · exact ⟨rfl, rfl, rfl⟩
  · exact ⟨rfl, rfl, rfl⟩

theorem Authoritative.settle (hr : Authoritative r) : Authoritative r.settle := by
  obtain ⟨hstore, hgroups, hrunning⟩ := settle_frame r
  have hlearns := settle_learns hr.settled
  have hauthority : r.settle.authority = r.authority := by
    unfold ResumeLocks.authority
    rw [hstore]
  have hmembers : r.settle.members = r.members := by
    unfold ResumeLocks.members
    rw [hgroups]
  constructor
  case keys =>
    rw [hstore]
    exact hr.keys
  case file =>
    rw [hstore]
    exact hr.file
  case valid =>
    rw [hauthority]
    exact hr.valid
  case one =>
    rw [hauthority]
    exact hr.one
  case memory =>
    rw [hauthority]
    exact fun x a ha => (hlearns x).2 a ha (hr.memory x a ha)
  case member =>
    rw [hauthority, hmembers]
    intro x a ha
    rw [(hlearns x).1]
    exact hr.member x a ha
  case shared =>
    rw [hauthority]
    intro x a y b ha hb hsame
    rw [(hlearns x).1, (hlearns y).1]
    exact hr.shared x a y b ha hb hsame
  case settled =>
    unfold ResumeLocks.Settled
    rw [hrunning]
    trivial

end Evener.Hubcore
