/-
  What each call of the registry keeps of the registrations of a run.
-/
import Evener.Hostreg.Changes

namespace Evener.Hostreg

open Evener.Lib List Function Option

/-! ## Events -/

/-- The entry that the call stored. -/
def Event.carried (e : Event) : Option Host :=
  match e.reply with
  | .ok _ => e.op.target.bind e.after.hosts
  | .error _ => none

/-- The identity that the call reserved. -/
def Event.stamped (e : Event) : Option Identity :=
  match e.reply with
  | .ok (.identity i) => some i
  | _ => none

/-- The presence epoch that the call recorded, and the name it is of. -/
def Event.recorded (e : Event) : Option (String × UInt64) :=
  match e.op, e.reply with
  | .stamp entry _, .ok (.identity i) => some (trimSpace entry.name, i.presenceEpoch)
  | .remove name, .ok _ => some (trimSpace name, e.after.presence (trimSpace name))
  | _, _ => e.carried.map fun h => (h.name, h.presenceEpoch)

/-- The call changed the registration of the name. -/
def Event.Registers (e : Event) (name : String) : Prop :=
  e.reply.isOk = true ∧ e.op.target = some name

/-- What no two registrations share. -/
structure Precedes (e₁ e₂ : Event) : Prop where
  generation : ∀ h₁ ∈ e₁.carried, ∀ h₂ ∈ e₂.carried, h₁.generation ≠ h₂.generation ∧
    (h₁.name = h₂.name → h₁.generation < h₂.generation)
  incarnation : e₂.op.inserts = true → ∀ h₁ ∈ e₁.carried, ∀ h₂ ∈ e₂.carried,
    h₁.incarnationID ≠ h₂.incarnationID
  presence : e₂.op.inserts = true → ∀ h₂ ∈ e₂.carried, ∀ p, e₁.recorded = some (h₂.name, p) →
    p < h₂.presenceEpoch ∨ e₁.stamped = some h₂.identity

/-- What a call does after the boot that left `r₀`. -/
structure Follows (r₀ : Registry) (e : Event) : Prop where
  named : ∀ h ∈ e.carried, e.op.target = some h.name
  generation : ∀ h ∈ e.carried, r₀.gen < h.generation
  incarnation : e.op.inserts = true → ∀ h ∈ e.carried, ∀ name h₀, r₀.hosts name = some h₀ →
    h₀.incarnationID ≠ h.incarnationID
  presence : e.op.inserts = true → ∀ h ∈ e.carried, r₀.presence h.name < h.presenceEpoch
  keeps : ∀ entry, e.op = .update entry → ∀ h ∈ e.carried, ∃ live,
    e.before.hosts h.name = some live ∧ h.incarnationID = live.incarnationID ∧
      h.presenceEpoch = live.presenceEpoch
  gen : e.before.gen ≤ e.after.gen
  counter : ∀ name, e.before.presence name ≤ e.after.presence name
  refused : ∀ err, e.reply = .error err → e.after = e.before

/-! ## The invariant -/

/-- The entry has been a registered one. -/
def Had (r₀ : Registry) (past : List Event) (h : Host) : Prop :=
  (∃ name, r₀.hosts name = some h) ∨ ∃ e ∈ past, h ∈ e.carried

/-- After the events `past`, with the ids `future` still to come from the generator: no stamp that
    is pending has been used, and one for a free name is ahead of all that the name had. -/
structure Inv (r₀ : Registry) (past : List Event) (future : List String) (r : Registry) : Prop where
  gen : r₀.gen ≤ r.gen
  presence : ∀ name, r₀.presence name ≤ r.presence name
  live : ∀ name h, r.hosts name = some h → h.name = name ∧ Had r₀ past h ∧
    ∀ h', Had r₀ past h' → h'.name = name → h'.generation ≤ h.generation
  had : ∀ h, Had r₀ past h → h.generation ≤ r.gen ∧ h.incarnationID ∉ future
  recorded : ∀ e ∈ past, ∀ name p, e.recorded = some (name, p) → p ≤ r.presence name
  held : ∀ name i, r.pending name = some i → r₀.gen < i.generation ∧ i.generation ≤ r.gen ∧
    i.incarnationID ∉ future ∧ ∀ h, Had r₀ past h → h.generation ≠ i.generation
  apart : ∀ n m i j, n ≠ m → r.pending n = some i → r.pending m = some j →
    i.generation ≠ j.generation
  free : ∀ name i, r.pending name = some i → r.hosts name = none →
    r₀.presence name < i.presenceEpoch ∧
    (∀ h, Had r₀ past h → h.incarnationID ≠ i.incarnationID ∧
      (h.name = name → h.generation < i.generation)) ∧
    ∀ e ∈ past, ∀ p, e.recorded = some (name, p) → p < i.presenceEpoch ∨ e.stamped = some i
  freeApart : ∀ n m i j, n ≠ m → r.pending n = some i → r.pending m = some j →
    r.hosts n = none → r.hosts m = none → i.incarnationID ≠ j.incarnationID

variable {r₀ r r' : Registry} {past : List Event} {future : List String} {e : Event}

variable {h : Host} {name : String} {all : List String} {reply : Reply} {op : Op} {ops : List Op}

theorem had_append : Had r₀ (past ++ [e]) h ↔ Had r₀ past h ∨ h ∈ e.carried := by
  unfold Had
  constructor
  · rintro (hboot | ⟨e', he', hc⟩)
    · exact Or.inl (Or.inl hboot)
    · rcases mem_append.mp he' with he' | he'
      · exact Or.inl (Or.inr ⟨e', he', hc⟩)
      · rw [mem_singleton.mp he'] at hc
        exact Or.inr hc
  · rintro ((hboot | ⟨e', he', hc⟩) | hc)
    · exact Or.inl hboot
    · exact Or.inr ⟨e', mem_append_left _ he', hc⟩
    · exact Or.inr ⟨e, mem_append_right _ (mem_singleton.mpr rfl), hc⟩

/-! ## Steps -/

theorem le_update {f : String → UInt64} {name : String} {value : UInt64} (h : f name ≤ value)
    (n : String) : f n ≤ Function.update f name value n := by
  by_cases hn : n = name
  · rw [hn, update_self]
    exact h
  · rw [update_of_ne hn]
    exact UInt64.le_refl _

theorem Lands.presence_le (hl : Lands r r' h) (name : String) :
    r.presence name ≤ r'.presence name := by
  rw [hl.presence]
  exact le_update (le_raised _ _) name

theorem Stamps.presence_le {id : Option String} {i : Identity} (hs : Stamps r r' name id i)
    (n : String) : r.presence n ≤ r'.presence n := by
  rw [hs.presence]
  exact le_update (le_raised _ _) n

theorem Lands.recorded_le (hl : Lands r r' h) : h.presenceEpoch ≤ r'.presence h.name := by
  rw [hl.presence, update_self]
  exact value_le_raised _ _

theorem Lands.gen_le (hl : Lands r r' h) : r.gen ≤ r'.gen := by
  rw [hl.gen]
  exact le_raised _ _

theorem Lands.hosts_of_ne (hl : Lands r r' h) (hname : name ≠ h.name) :
    r'.hosts name = r.hosts name := by
  rw [hl.hosts, update_of_ne hname]

/-- An entry lands that is ahead of all that its name had, under an identity nothing else holds. -/
theorem Inv.lands (hi : Inv r₀ past all r) (hsub : future ⊆ all) (hl : Lands r r' h)
    (hcarried : e.carried = some h) (hrecorded : e.recorded = some (h.name, h.presenceEpoch))
    (hid : h.incarnationID ∉ future)
    (hahead : ∀ h', Had r₀ past h' → h'.name = h.name → h'.generation < h.generation)
    (hunused : ∀ n i, r'.pending n = some i → h.generation ≠ i.generation)
    (hids : ∀ n i, n ≠ h.name → r.pending n = some i → r.hosts n = none → h.incarnationID ≠ i.incarnationID) :
    Inv r₀ (past ++ [e]) future r' := by
  have hhad : ∀ h', Had r₀ (past ++ [e]) h' → Had r₀ past h' ∨ h' = h := by
    intro h' hh'
    rcases (had_append).mp hh' with hh' | hh'
    · exact Or.inl hh'
    · rw [hcarried] at hh'
      exact Or.inr (some.inj hh').symm
  have hnew : Had r₀ (past ++ [e]) h := (had_append).mpr (Or.inr hcarried)
  have hstill : ∀ name, r'.hosts name = none → name ≠ h.name ∧ r.hosts name = none := by
    intro name hnone
    have hname : name ≠ h.name := by
      rintro rfl
      rw [hl.hosts, update_self] at hnone
      cases hnone
    exact ⟨hname, hl.hosts_of_ne hname ▸ hnone⟩
  constructor
  case gen => exact UInt64.le_trans hi.gen hl.gen_le
  case presence => exact fun name => UInt64.le_trans (hi.presence name) (hl.presence_le name)
  case live =>
    intro name h₁ hh₁
    by_cases hname : name = h.name
    · rw [hname, hl.hosts, update_self] at hh₁
      obtain rfl := some.inj hh₁
      refine ⟨hname.symm, hnew, fun h' hh' hsame => ?_⟩
      rcases hhad h' hh' with hh' | rfl
      · exact UInt64.le_of_lt (hahead h' hh' (hsame.trans hname))
      · exact UInt64.le_refl _
    · rw [hl.hosts_of_ne hname] at hh₁
      obtain ⟨hnamed, hh, hlatest⟩ := hi.live name h₁ hh₁
      refine ⟨hnamed, (had_append).mpr (Or.inl hh), fun h' hh' hsame => ?_⟩
      rcases hhad h' hh' with hh' | rfl
      · exact hlatest h' hh' hsame
      · exact absurd hsame.symm hname
  case had =>
    intro h' hh'
    rcases hhad h' hh' with hh' | rfl
    · obtain ⟨hgen, hfuture⟩ := hi.had h' hh'
      exact ⟨UInt64.le_trans hgen hl.gen_le, fun hin => hfuture (hsub hin)⟩
    · refine ⟨?_, hid⟩
      rw [hl.gen]
      exact value_le_raised _ _
  case recorded =>
    intro e' he' name p hp
    rcases mem_append.mp he' with he' | he'
    · exact UInt64.le_trans (hi.recorded e' he' name p hp) (hl.presence_le name)
    · rw [mem_singleton.mp he', hrecorded] at hp
      obtain ⟨rfl, rfl⟩ := Prod.mk.inj (some.inj hp)
      exact hl.recorded_le
  case held =>
    intro name i hpending
    obtain ⟨hafter, hgen, hfuture, hfresh⟩ := hi.held name i (hl.pending name i hpending)
    refine ⟨hafter, UInt64.le_trans hgen hl.gen_le, fun hin => hfuture (hsub hin), fun h' hh' => ?_⟩
    rcases hhad h' hh' with hh' | rfl
    · exact hfresh h' hh'
    · exact hunused name i hpending
  case apart =>
    exact fun n m i j hne hn hm => hi.apart n m i j hne (hl.pending n i hn) (hl.pending m j hm)
  case free =>
    intro name i hpending hnone
    obtain ⟨hname, hfree⟩ := hstill name hnone
    have hpending' := hl.pending name i hpending
    obtain ⟨hboot, hall, hpast⟩ := hi.free name i hpending' hfree
    refine ⟨hboot, fun h' hh' => ?_, fun e' he' p hp => ?_⟩
    · rcases hhad h' hh' with hh' | rfl
      · exact hall h' hh'
      · exact ⟨hids name i hname hpending' hfree, fun hsame => absurd hsame.symm hname⟩
    · rcases mem_append.mp he' with he' | he'
      · exact hpast e' he' p hp
      · rw [mem_singleton.mp he', hrecorded] at hp
        exact absurd (Prod.mk.inj (some.inj hp)).1.symm hname
  case freeApart =>
    intro n m i j hne hn hm hnfree hmfree
    exact hi.freeApart n m i j hne (hl.pending n i hn) (hl.pending m j hm) (hstill n hnfree).2
      (hstill m hmfree).2

/-- A call that stores no entry and records no epoch. -/
theorem Inv.idle (hi : Inv r₀ past all r) (hsub : future ⊆ all) (hhosts : r'.hosts = r.hosts)
    (hgen : r'.gen = r.gen) (hpresence : r'.presence = r.presence)
    (hpending : r'.pending = r.pending) (hcarried : e.carried = none)
    (hrecorded : e.recorded = none) : Inv r₀ (past ++ [e]) future r' := by
  have hhad : ∀ h, Had r₀ (past ++ [e]) h ↔ Had r₀ past h := by
    intro h
    rw [had_append, hcarried]
    simp
  have hmem : ∀ e' ∈ past ++ [e], ∀ name p, e'.recorded = some (name, p) → e' ∈ past := by
    intro e' he' name p hp
    rcases mem_append.mp he' with he' | he'
    · exact he'
    · rw [mem_singleton.mp he', hrecorded] at hp
      cases hp
  constructor
  case gen => exact hgen ▸ hi.gen
  case presence => exact hpresence ▸ hi.presence
  case live =>
    simp only [hhosts, hhad]
    exact hi.live
  case had =>
    intro h hh
    rw [hgen]
    obtain ⟨hle, hfuture⟩ := hi.had h ((hhad h).mp hh)
    exact ⟨hle, fun hin => hfuture (hsub hin)⟩
  case recorded =>
    intro e' he' name p hp
    rw [hpresence]
    exact hi.recorded e' (hmem e' he' name p hp) name p hp
  case held =>
    intro name i hi'
    rw [hpending] at hi'
    obtain ⟨hafter, hle, hfuture, hfresh⟩ := hi.held name i hi'
    exact ⟨hafter, hgen ▸ hle, fun hin => hfuture (hsub hin), fun h hh => hfresh h ((hhad h).mp hh)⟩
  case apart => exact hpending ▸ hi.apart
  case free =>
    intro name i hi' hnone
    rw [hpending] at hi'
    rw [hhosts] at hnone
    obtain ⟨hboot, hall, hpast⟩ := hi.free name i hi' hnone
    exact ⟨hboot, fun h hh => hall h ((hhad h).mp hh),
      fun e' he' p hp => hpast e' (hmem e' he' name p hp) p hp⟩
  case freeApart =>
    rw [hpending, hhosts]
    exact hi.freeApart

theorem Inv.stamps {id : Option String} {i : Identity} (hi : Inv r₀ past (id.toList ++ future) r)
    (hnodup : (id.toList ++ future).Nodup) (hs : Stamps r r' name id i)
    (hcarried : e.carried = none) (hrecorded : e.recorded = some (name, i.presenceEpoch))
    (hstamped : e.stamped = some i) : Inv r₀ (past ++ [e]) future r' := by
  have hhad : ∀ h, Had r₀ (past ++ [e]) h ↔ Had r₀ past h := by
    intro h
    rw [had_append, hcarried]
    simp
  have hsub : ∀ {id' : String}, id' ∉ id.toList ++ future → id' ∉ future := fun hnot hin =>
    hnot (mem_append_right _ hin)
  have hnew : ∀ n j, r'.pending n = some j → n = name ∧ j = i ∨ n ≠ name ∧ r.pending n = some j := by
    intro n j hj
    rw [hs.pending] at hj
    by_cases hn : n = name
    · rw [hn, update_self] at hj
      exact Or.inl ⟨hn, (some.inj hj).symm⟩
    · rw [update_of_ne hn] at hj
      exact Or.inr ⟨hn, hj⟩
  have hgen : r.gen ≤ r'.gen := by
    rw [hs.gen]
    exact UInt64.le_of_lt hs.generation
  have hpresence := hs.presence_le
  constructor
  case gen => exact UInt64.le_trans hi.gen hgen
  case presence => exact fun n => UInt64.le_trans (hi.presence n) (hpresence n)
  case live =>
    simp only [hs.hosts, hhad]
    exact hi.live
  case had =>
    intro h hh
    obtain ⟨hle, hfuture⟩ := hi.had h ((hhad h).mp hh)
    exact ⟨UInt64.le_trans hle hgen, hsub hfuture⟩
  case recorded =>
    intro e' he' n p hp
    rcases mem_append.mp he' with he' | he'
    · exact UInt64.le_trans (hi.recorded e' he' n p hp) (hpresence n)
    · rw [mem_singleton.mp he', hrecorded] at hp
      obtain ⟨rfl, rfl⟩ := Prod.mk.inj (some.inj hp)
      rw [hs.presence, update_self]
      exact value_le_raised _ _
  case held =>
    intro n j hj
    rcases hnew n j hj with ⟨rfl, rfl⟩ | ⟨_, hj⟩
    · refine ⟨UInt64.lt_of_le_of_lt hi.gen hs.generation, ?_, ?_, fun h hh => ?_⟩
      · rw [hs.gen]
        exact UInt64.le_refl _
      · cases hlive : r.hosts n with
        | some live =>
          rw [(hs.live live hlive).1]
          exact hsub (hi.had live (hi.live n live hlive).2.1).2
        | none =>
          rw [(hs.free hlive).2] at hnodup
          exact (nodup_cons.mp hnodup).1
      · exact UInt64.ne_of_lt
          (UInt64.lt_of_le_of_lt (hi.had h ((hhad h).mp hh)).1 hs.generation)
    · obtain ⟨hafter, hle, hfuture, hfresh⟩ := hi.held n j hj
      exact ⟨hafter, UInt64.le_trans hle hgen, hsub hfuture, fun h hh => hfresh h ((hhad h).mp hh)⟩
  case apart =>
    intro n m j k hne hj hk
    rcases hnew n j hj with ⟨rfl, rfl⟩ | ⟨_, hj⟩
    · rcases hnew m k hk with ⟨rfl, _⟩ | ⟨_, hk⟩
      · exact absurd rfl hne
      · exact (UInt64.ne_of_lt (UInt64.lt_of_le_of_lt (hi.held m k hk).2.1 hs.generation)).symm
    · rcases hnew m k hk with ⟨rfl, rfl⟩ | ⟨_, hk⟩
      · exact UInt64.ne_of_lt (UInt64.lt_of_le_of_lt (hi.held n j hj).2.1 hs.generation)
      · exact hi.apart n m j k hne hj hk
  case free =>
    intro n j hj hnone
    rw [hs.hosts] at hnone
    rcases hnew n j hj with ⟨rfl, rfl⟩ | ⟨hn, hj⟩
    · -- the new stamp is ahead of the counters, and its id is new
      obtain ⟨hahead, hid⟩ := hs.free hnone
      refine ⟨UInt64.lt_of_le_of_lt (hi.presence n) hahead, fun h hh => ?_, fun e' he' p hp => ?_⟩
      · obtain ⟨hle, hfuture⟩ := hi.had h ((hhad h).mp hh)
        refine ⟨?_, fun _ => UInt64.lt_of_le_of_lt hle hs.generation⟩
        rintro heq
        rw [hid] at hfuture
        exact hfuture (mem_append_left _ (by simp [heq]))
      · rcases mem_append.mp he' with he' | he'
        · exact Or.inl (UInt64.lt_of_le_of_lt (hi.recorded e' he' n p hp) hahead)
        · rw [mem_singleton.mp he']
          exact Or.inr hstamped
    · obtain ⟨hboot, hall, hpast⟩ := hi.free n j hj hnone
      refine ⟨hboot, fun h hh => hall h ((hhad h).mp hh), fun e' he' p hp => ?_⟩
      rcases mem_append.mp he' with he' | he'
      · exact hpast e' he' p hp
      · rw [mem_singleton.mp he', hrecorded] at hp
        exact absurd (Prod.mk.inj (some.inj hp)).1.symm hn
  case freeApart =>
    intro n m j k hne hj hk hn hm
    rw [hs.hosts] at hn hm
    have hother : ∀ n' j', r.hosts name = none → r.pending n' = some j' →
        j'.incarnationID ≠ i.incarnationID := by
      intro n' j' hfree hj' heq
      have hfuture := (hi.held n' j' hj').2.2.1
      rw [(hs.free hfree).2] at hfuture
      exact hfuture (mem_append_left _ (by simp [heq]))
    rcases hnew n j hj with ⟨rfl, rfl⟩ | ⟨_, hj⟩
    · rcases hnew m k hk with ⟨rfl, _⟩ | ⟨_, hk⟩
      · exact absurd rfl hne
      · exact (hother m k hn hk).symm
    · rcases hnew m k hk with ⟨rfl, rfl⟩ | ⟨_, hk⟩
      · exact hother n j hm hj
      · exact hi.freeApart n m j k hne hj hk hn hm

theorem Inv.removes {presence : UInt64} (hi : Inv r₀ past future r)
    (hahead : r.presence name < presence) (hhosts : r'.hosts = Function.update r.hosts name none)
    (hgen : r'.gen = r.gen) (hpresence : r'.presence = Function.update r.presence name presence)
    (hpending : r'.pending = Function.update r.pending name none) (hcarried : e.carried = none)
    (hrecorded : e.recorded = some (name, presence)) : Inv r₀ (past ++ [e]) future r' := by
  have hhad : ∀ h, Had r₀ (past ++ [e]) h ↔ Had r₀ past h := by
    intro h
    rw [had_append, hcarried]
    simp
  have hstill : ∀ n j, r'.pending n = some j → n ≠ name ∧ r.pending n = some j := by
    intro n j hj
    rw [hpending] at hj
    have hn : n ≠ name := by
      rintro rfl
      rw [update_self] at hj
      cases hj
    rw [update_of_ne hn] at hj
    exact ⟨hn, hj⟩
  have hothers : ∀ n, n ≠ name → r'.hosts n = r.hosts n := by
    intro n hn
    rw [hhosts, update_of_ne hn]
  have hle : ∀ n, r.presence n ≤ r'.presence n := by
    intro n
    rw [hpresence]
    exact le_update (UInt64.le_of_lt hahead) n
  constructor
  case gen => exact hgen ▸ hi.gen
  case presence => exact fun n => UInt64.le_trans (hi.presence n) (hle n)
  case live =>
    intro n h hh
    have hn : n ≠ name := by
      rintro rfl
      rw [hhosts, update_self] at hh
      cases hh
    rw [hothers n hn] at hh
    simp only [hhad]
    exact hi.live n h hh
  case had =>
    simp only [hhad, hgen]
    exact hi.had
  case recorded =>
    intro e' he' n p hp
    rcases mem_append.mp he' with he' | he'
    · exact UInt64.le_trans (hi.recorded e' he' n p hp) (hle n)
    · rw [mem_singleton.mp he', hrecorded] at hp
      obtain ⟨rfl, rfl⟩ := Prod.mk.inj (some.inj hp)
      rw [hpresence, update_self]
      exact UInt64.le_refl _
  case held =>
    intro n j hj
    simp only [hhad, hgen]
    exact hi.held n j (hstill n j hj).2
  case apart =>
    exact fun n m j k hne hj hk => hi.apart n m j k hne (hstill n j hj).2 (hstill m k hk).2
  case free =>
    intro n j hj hnone
    obtain ⟨hn, hj⟩ := hstill n j hj
    rw [hothers n hn] at hnone
    obtain ⟨hboot, hall, hpast⟩ := hi.free n j hj hnone
    refine ⟨hboot, fun h hh => hall h ((hhad h).mp hh), fun e' he' p hp => ?_⟩
    rcases mem_append.mp he' with he' | he'
    · exact hpast e' he' p hp
    · rw [mem_singleton.mp he', hrecorded] at hp
      exact absurd (Prod.mk.inj (some.inj hp)).1.symm hn
  case freeApart =>
    intro n m j k hne hj hk hn hm
    obtain ⟨hn', hj⟩ := hstill n j hj
    obtain ⟨hm', hk⟩ := hstill m k hk
    exact hi.freeApart n m j k hne hj hk (hothers n hn' ▸ hn) (hothers m hm' ▸ hm)

theorem recorded_of_inserts (h : e.op.inserts = true) :
    e.recorded = e.carried.map fun h => (h.name, h.presenceEpoch) := by
  obtain ⟨before, op, reply, after⟩ := e
  cases op with
  | addWithUpstreams => rfl
  | rebaseBootCollision => rfl
  | stamp => cases h
  | update => cases h
  | remove => cases h
  | setUpstreams => cases h

theorem precedes_of_carried (hcarried : e.carried = some h)
    (hahead : ∀ h', Had r₀ past h' → h'.generation ≠ h.generation ∧ (h'.name = h.name → h'.generation < h.generation))
    (hinserts : e.op.inserts = true →
      (∀ h', Had r₀ past h' → h'.incarnationID ≠ h.incarnationID) ∧
      ∀ e' ∈ past, ∀ p, e'.recorded = some (h.name, p) → p < h.presenceEpoch ∨
      e'.stamped = some h.identity) :
    ∀ e' ∈ past, Precedes e' e := by
  intro e' he'
  constructor
  case generation =>
    intro h₁ hh₁ h₂ hh₂
    rw [hcarried] at hh₂
    obtain rfl := some.inj hh₂
    exact hahead h₁ (Or.inr ⟨e', he', hh₁⟩)
  case incarnation =>
    intro hins h₁ hh₁ h₂ hh₂
    rw [hcarried] at hh₂
    obtain rfl := some.inj hh₂
    exact (hinserts hins).1 h₁ (Or.inr ⟨e', he', hh₁⟩)
  case presence =>
    intro hins h₂ hh₂ p hp
    rw [hcarried] at hh₂
    obtain rfl := some.inj hh₂
    exact (hinserts hins).2 e' he' p hp

theorem precedes_of_none (hcarried : e.carried = none) (e' : Event) : Precedes e' e := by
  constructor
  case generation =>
    intro _ _ h₂ hh₂
    rw [hcarried] at hh₂
    cases hh₂
  case incarnation =>
    intro _ _ _ h₂ hh₂
    rw [hcarried] at hh₂
    cases hh₂
  case presence =>
    intro _ h₂ hh₂
    rw [hcarried] at hh₂
    cases hh₂

theorem follows_of_none (hcarried : e.carried = none) (hgen : e.before.gen ≤ e.after.gen)
    (hcounter : ∀ name, e.before.presence name ≤ e.after.presence name)
    (hrefused : ∀ err, e.reply = .error err → e.after = e.before) : Follows r₀ e := by
  refine ⟨fun h hh => ?_, fun h hh => ?_, fun _ h hh => ?_, fun _ h hh => ?_, fun _ _ h hh => ?_,
    hgen, hcounter, hrefused⟩
  all_goals
    rw [hcarried] at hh
    cases hh

theorem follows_of_lands (hcarried : e.carried = some h) (hl : Lands e.before e.after h)
    (htarget : e.op.target = some h.name) (hafter : r₀.gen < h.generation)
    (hinserts : e.op.inserts = true → r₀.presence h.name < h.presenceEpoch ∧
      ∀ name h₀, r₀.hosts name = some h₀ → h₀.incarnationID ≠ h.incarnationID)
    (hkeeps : ∀ entry, e.op = .update entry → ∃ live, e.before.hosts h.name = some live ∧
      h.incarnationID = live.incarnationID ∧ h.presenceEpoch = live.presenceEpoch)
    (hreply : e.reply.isOk = true) : Follows r₀ e := by
  have hsame : ∀ x ∈ e.carried, x = h := by
    intro x hx
    rw [hcarried] at hx
    exact (some.inj hx).symm
  constructor
  case named =>
    intro x hx
    rw [hsame x hx]
    exact htarget
  case generation =>
    intro x hx
    rw [hsame x hx]
    exact hafter
  case incarnation =>
    intro hins x hx
    rw [hsame x hx]
    exact (hinserts hins).2
  case presence =>
    intro hins x hx
    rw [hsame x hx]
    exact (hinserts hins).1
  case keeps =>
    intro entry hop x hx
    rw [hsame x hx]
    exact hkeeps entry hop
  case gen => exact hl.gen_le
  case counter => exact hl.presence_le
  case refused =>
    intro err herr
    rw [herr] at hreply
    cases hreply

/-- The event of a call. -/
def Registry.event (r : Registry) (op : Op) : Event :=
  { before := r, op, reply := (r.step op).1, after := (r.step op).2 }

theorem event_ok (h : r.apply op = .ok (reply, r')) :
    r.event op = { before := r, op, reply := .ok reply, after := r' } := by
  unfold Registry.event Registry.step
  rw [h]

theorem event_error {err : RegistryError} (h : r.apply op = .error err) :
    r.event op = { before := r, op, reply := .error err, after := r } := by
  unfold Registry.event Registry.step
  rw [h]

/-- What holds after a call. -/
structure Steps (r₀ : Registry) (past : List Event) (future : List String) (e : Event) : Prop where
  inv : Inv r₀ (past ++ [e]) future e.after
  follows : Follows r₀ e
  precedes : ∀ e' ∈ past, Precedes e' e

theorem Inv.mints (hi : Inv r₀ past (op.generated.toList ++ future) r)
    (hnodup : (op.generated.toList ++ future).Nodup) (hl : Lands r r' h)
    (htarget : op.target = some h.name) (hinserts : op.inserts = true)
    (hgeneration : r.gen < h.generation) (hpresence : r.presence h.name < h.presenceEpoch)
    (hid : op.generated = some h.incarnationID) :
    Steps r₀ past future { before := r, op, reply := .ok reply, after := r' } := by
  have hcarried : Event.carried { before := r, op, reply := .ok reply, after := r' } = some h := by
    show op.target.bind r'.hosts = some h
    rw [htarget, bind_some, hl.hosts, update_self]
  have hold : ∀ h', Had r₀ past h' → h'.generation < h.generation := fun h' hh' =>
    UInt64.lt_of_le_of_lt (hi.had h' hh').1 hgeneration
  have hfresh : ∀ h', Had r₀ past h' → h'.incarnationID ≠ h.incarnationID := by
    intro h' hh' heq
    have hfuture := (hi.had h' hh').2
    rw [hid] at hfuture
    exact hfuture (mem_append_left _ (by simp [heq]))
  refine ⟨?_, ?_, ?_⟩
  · refine hi.lands (subset_append_right _ _) hl hcarried ?_ ?_ (fun h' hh' _ => hold h' hh')
      (fun n i hi' => ?_) (fun n i _ hi' _ heq => ?_)
    · rw [recorded_of_inserts hinserts, hcarried]
      rfl
    · rw [hid] at hnodup
      exact (nodup_cons.mp hnodup).1
    · have hle := (hi.held n i (hl.pending n i hi')).2.1
      exact (UInt64.ne_of_lt (UInt64.lt_of_le_of_lt hle hgeneration)).symm
    · have hfuture := (hi.held n i hi').2.2.1
      rw [hid] at hfuture
      exact hfuture (mem_append_left _ (by simp [heq]))
  · refine follows_of_lands hcarried hl htarget (UInt64.lt_of_le_of_lt hi.gen hgeneration)
      (fun _ => ⟨UInt64.lt_of_le_of_lt (hi.presence h.name) hpresence, ?_⟩) ?_ rfl
    · exact fun name h₀ hh₀ => hfresh h₀ (Or.inl ⟨name, hh₀⟩)
    · rintro entry rfl
      cases hinserts
  · refine precedes_of_carried hcarried (fun h' hh' => ?_) (fun _ => ⟨hfresh, fun e' he' p hp => ?_⟩)
    · exact ⟨UInt64.ne_of_lt (hold h' hh'), fun _ => hold h' hh'⟩
    · exact Or.inl (UInt64.lt_of_le_of_lt (hi.recorded e' he' _ p hp) hpresence)

theorem Inv.consumes (hi : Inv r₀ past all r) (hsub : future ⊆ all) (hl : Lands r r' h)
    (htarget : op.target = some h.name) (hinserts : op.inserts = true)
    (hfree : r.hosts h.name = none) (hpending : r.pending h.name = some h.identity)
    (hcleared : r'.pending h.name = none) :
    Steps r₀ past future { before := r, op, reply := .ok reply, after := r' } := by
  have hcarried : Event.carried { before := r, op, reply := .ok reply, after := r' } = some h := by
    show op.target.bind r'.hosts = some h
    rw [htarget, bind_some, hl.hosts, update_self]
  obtain ⟨hafter, _, hfuture, hunused⟩ := hi.held h.name h.identity hpending
  obtain ⟨hboot, hall, hpast⟩ := hi.free h.name h.identity hpending hfree
  refine ⟨?_, ?_, ?_⟩
  · refine hi.lands hsub hl hcarried ?_ (fun hin => hfuture (hsub hin))
      (fun h' hh' hsame => (hall h' hh').2 hsame) (fun n i hi' => ?_) (fun n i hn hi' hnone => ?_)
    · rw [recorded_of_inserts hinserts, hcarried]
      rfl
    · have hn : h.name ≠ n := by
        rintro rfl
        rw [hcleared] at hi'
        cases hi'
      exact hi.apart h.name n h.identity i hn hpending (hl.pending n i hi')
    · exact hi.freeApart h.name n h.identity i hn.symm hpending hi' hfree hnone
  · refine follows_of_lands hcarried hl htarget hafter (fun _ => ⟨hboot, ?_⟩) ?_ rfl
    · exact fun name h₀ hh₀ => (hall h₀ (Or.inl ⟨name, hh₀⟩)).1
    · rintro entry rfl
      cases hinserts
  · exact precedes_of_carried hcarried
      (fun h' hh' => ⟨hunused h' hh', fun hsame => (hall h' hh').2 hsame⟩)
      (fun _ => ⟨fun h' hh' => (hall h' hh').1, hpast⟩)

theorem Inv.updates {entry : Host} {live : Host} (hi : Inv r₀ past all r) (hsub : future ⊆ all)
    (hl : Lands r r' h) (hname : h.name = trimSpace entry.name) (hr : Replaces r r' h live) :
    Steps r₀ past future { before := r, op := .update entry, reply := .ok reply, after := r' } := by
  have hcarried :
      Event.carried { before := r, op := .update entry, reply := .ok reply, after := r' } = some h := by
    show (some (trimSpace entry.name)).bind r'.hosts = some h
    rw [← hname, bind_some, hl.hosts, update_self]
  obtain ⟨hnamed, hlive, hlatest⟩ := hi.live h.name live hr.hosts
  have hold : ∀ h', Had r₀ past h' → h'.generation ≠ h.generation ∧
      (h'.name = h.name → h'.generation < h.generation) := by
    intro h' hh'
    rcases hr.generation with hnext | ⟨hlt, _, i, hpending, hgen⟩
    · have hlt := UInt64.lt_of_le_of_lt (hi.had h' hh').1 hnext
      exact ⟨UInt64.ne_of_lt hlt, fun _ => hlt⟩
    · refine ⟨hgen ▸ (hi.held h.name i hpending).2.2.2 h' hh', fun hsame => ?_⟩
      exact UInt64.lt_of_le_of_lt (hlatest h' hh' hsame) hlt
  refine ⟨?_, ?_, ?_⟩
  · refine hi.lands hsub hl hcarried ?_ ?_ (fun h' hh' => (hold h' hh').2) (fun n i hi' => ?_)
      (fun n i _ hi' hnone => ?_)
    · show Option.map _ _ = _
      rw [hcarried]
      rfl
    · rw [hr.incarnationID]
      exact fun hin => (hi.had live hlive).2 (hsub hin)
    · have hin := hl.pending n i hi'
      rcases hr.generation with hnext | ⟨_, hcleared, j, hpending, hgen⟩
      · exact (UInt64.ne_of_lt (UInt64.lt_of_le_of_lt (hi.held n i hin).2.1 hnext)).symm
      · have hn : h.name ≠ n := by
          rintro rfl
          rw [hcleared] at hi'
          cases hi'
        exact hgen ▸ hi.apart h.name n j i hn hpending hin
    · rw [hr.incarnationID]
      exact ((hi.free n i hi' hnone).2.1 live hlive).1
  · refine follows_of_lands hcarried hl (congrArg some hname.symm) ?_ (fun hins => ?_)
      (fun _ _ => ⟨live, hr.hosts, hr.incarnationID, hr.presenceEpoch⟩) rfl
    · rcases hr.generation with hnext | ⟨_, _, i, hpending, hgen⟩
      · exact UInt64.lt_of_le_of_lt hi.gen hnext
      · exact hgen ▸ (hi.held h.name i hpending).1
    · cases hins
  · exact precedes_of_carried hcarried hold fun hins => by cases hins

theorem Inv.step (hi : Inv r₀ past (op.generated.toList ++ future) r)
    (hnodup : (op.generated.toList ++ future).Nodup) : Steps r₀ past future (r.event op) := by
  have hsub : future ⊆ op.generated.toList ++ future := subset_append_right _ _
  cases happly : r.apply op with
  | error err =>
    rw [event_error happly]
    have hrecorded : Event.recorded { before := r, op, reply := .error err, after := r } = none := by
      cases op <;> rfl
    exact ⟨hi.idle hsub rfl rfl rfl rfl rfl hrecorded,
      follows_of_none rfl (UInt64.le_refl _) (fun _ => UInt64.le_refl _) (fun _ _ => rfl),
      fun e' _ => precedes_of_none rfl e'⟩
  | ok result =>
    obtain ⟨reply, r'⟩ := result
    rw [event_ok happly]
    have hnamed : ∀ n live, r.hosts n = some live → live.name = n := fun n live h =>
      (hi.live n live h).1
    cases apply_change hnamed happly with
    | stamps hs =>
      exact ⟨hi.stamps hnodup hs rfl rfl rfl, follows_of_none rfl
        (hs.gen ▸ UInt64.le_of_lt hs.generation) hs.presence_le (fun _ h => (nomatch h)),
        fun e' _ => precedes_of_none rfl e'⟩
    | mints h hl htarget hinserts hgeneration hpresence hid =>
      exact hi.mints hnodup hl htarget hinserts hgeneration hpresence hid
    | consumes h hl htarget hinserts hfree hpending hcleared =>
      exact hi.consumes hsub hl htarget hinserts hfree hpending hcleared
    | updates h live hl hname hreplaces => exact hi.updates hsub hl hname hreplaces
    | @removes name _ _ presence hahead hhosts hgen hpresence hpending =>
      have hcarried : Event.carried
          { before := r, op := .remove name, reply := .ok reply, after := r' } = none := by
        show (some (trimSpace name)).bind r'.hosts = none
        rw [bind_some, hhosts, update_self]
      have hrecorded : Event.recorded
          { before := r, op := .remove name, reply := .ok reply, after := r' } =
          some (trimSpace name, presence) := by
        show some (trimSpace name, r'.presence (trimSpace name)) = _
        rw [hpresence, update_self]
      refine ⟨hi.removes hahead hhosts hgen hpresence hpending hcarried hrecorded,
        follows_of_none hcarried (hgen ▸ UInt64.le_refl _) (fun n => ?_) (fun _ h => (nomatch h)),
        fun e' _ => precedes_of_none hcarried e'⟩
      show r.presence n ≤ r'.presence n
      rw [hpresence]
      exact le_update (UInt64.le_of_lt hahead) n
    | links edges =>
      exact ⟨hi.idle hsub rfl rfl rfl rfl rfl rfl,
        follows_of_none rfl (UInt64.le_refl _) (fun _ => UInt64.le_refl _) (fun _ h => (nomatch h)),
        fun e' _ => precedes_of_none rfl e'⟩

end Evener.Hostreg
