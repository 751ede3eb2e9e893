/-
  What one call of the registry can change.

  Say once how an identity lands (`Change`); what no two registrations share is read off that.
-/
import Evener.Hostreg.Registry

namespace Evener.Hostreg

open Evener.Lib

/-! ## Counters -/

theorem lt_succ {x : UInt64} (h : x ≠ maxUint64) : x < x + 1 := by
  have hne : x.toNat ≠ maxUint64.toNat := fun heq => h (UInt64.toNat_inj.mp heq)
  have hmax : maxUint64.toNat = 18446744073709551615 := rfl
  have hone : (1 : UInt64).toNat = 1 := rfl
  have hlt := x.toNat_lt
  rw [UInt64.lt_iff_toNat_lt, UInt64.toNat_add]
  omega

theorem le_raised (counter value : UInt64) : counter ≤ raised counter value := by
  unfold raised
  split
  · next hlt => exact UInt64.le_of_lt hlt
  · exact UInt64.le_refl _

theorem value_le_raised (counter value : UInt64) : value ≤ raised counter value := by
  unfold raised
  split
  · exact UInt64.le_refl _
  · next hnot => exact UInt64.not_lt.mp hnot

theorem raised_le {counter value bound : UInt64} (hcounter : counter ≤ bound)
    (hvalue : value ≤ bound) : raised counter value ≤ bound := by
  unfold raised
  split
  · exact hvalue
  · exact hcounter

variable {r r' : Registry}

theorem nextGeneration_gt {generation : UInt64} (h : r.nextGenerationLocked = .ok generation) :
    generation = r.gen + 1 ∧ r.gen < generation := by
  unfold Registry.nextGenerationLocked at h
  split at h
  · cases h
  · next hroom =>
    obtain rfl := Except.ok.inj h
    exact ⟨rfl, lt_succ hroom⟩

variable {name : String} {id : Option String} {i : Identity} {entry : Host} {reply : Reply}

theorem nextPresence_gt {presence : UInt64} (h : r.nextPresenceLocked name = .ok presence) :
    r.presence name < presence := by
  have hnext : ∀ next, r.presence name ≤ next →
      (if next = maxUint64 then Except.error (RegistryError.presenceExhausted name)
        else .ok (next + 1)) = .ok presence → r.presence name < presence := by
    intro next hle hok
    split at hok
    · cases hok
    · next hroom =>
      obtain rfl := Except.ok.inj hok
      exact UInt64.lt_of_le_of_lt hle (lt_succ hroom)
  refine hnext _ ?_ h
  split
  · exact le_raised _ _
  · exact UInt64.le_refl _

theorem mintIncarnationID_ok {incarnation : String} (h : mintIncarnationID id = .ok incarnation) :
    id = some incarnation := by
  cases id with
  | none => cases h
  | some id => exact congrArg some (Except.ok.inj h)

/-! ## Calls -/

-- compared as it stands, not by its values at every name
attribute [local irreducible] Function.update

def Host.identity (h : Host) : Identity :=
  { generation := h.generation
    incarnationID := h.incarnationID
    presenceEpoch := h.presenceEpoch }

/-- The entry under an identity. -/
def Host.under (h : Host) (i : Identity) : Host :=
  { h with
    generation := i.generation
    incarnationID := i.incarnationID
    presenceEpoch := i.presenceEpoch }

/-- The name whose registration the call changes where it succeeds. -/
def Op.target : Op → Option String
  | .addWithUpstreams entry _ _ => some (trimSpace entry.name)
  | .update entry => some (trimSpace entry.name)
  | .remove name => some (trimSpace name)
  | .rebaseBootCollision name _ => some (trimSpace name)
  | _ => none

/-- The calls that make a new incarnation. -/
def Op.inserts : Op → Bool
  | .addWithUpstreams .. => true
  | .rebaseBootCollision .. => true
  | _ => false

/-- What the generator of incarnation ids gives to the call. -/
def Op.generated : Op → Option String
  | .stamp _ id => id
  | .addWithUpstreams _ _ id => id
  | .rebaseBootCollision _ id => id
  | _ => none

/-- The entry `h` is stored. -/
structure Lands (r r' : Registry) (h : Host) : Prop where
  hosts : r'.hosts = Function.update r.hosts h.name (some h)
  gen : r'.gen = raised r.gen h.generation
  presence : r'.presence =
    Function.update r.presence h.name (raised (r.presence h.name) h.presenceEpoch)
  pending : ∀ n i, r'.pending n = some i → r.pending n = some i

/-- The entry `h` replaces `live`: its generation is the next one, or the one that was stamped. -/
structure Replaces (r r' : Registry) (h live : Host) : Prop where
  hosts : r.hosts h.name = some live
  incarnationID : h.incarnationID = live.incarnationID
  presenceEpoch : h.presenceEpoch = live.presenceEpoch
  generation : r.gen < h.generation ∨ live.generation < h.generation ∧ r'.pending h.name = none ∧
    ∃ i, r.pending h.name = some i ∧ i.generation = h.generation

/-- The stamp `i` is made for a name. -/
structure Stamps (r r' : Registry) (name : String) (id : Option String) (i : Identity) : Prop where
  generation : r.gen < i.generation
  live : ∀ h, r.hosts name = some h →
    i.incarnationID = h.incarnationID ∧ i.presenceEpoch = h.presenceEpoch
  free : r.hosts name = none → r.presence name < i.presenceEpoch ∧ id = some i.incarnationID
  hosts : r'.hosts = r.hosts
  gen : r'.gen = i.generation
  presence : r'.presence =
    Function.update r.presence name (raised (r.presence name) i.presenceEpoch)
  pending : r'.pending = Function.update r.pending name (some i)

/-- What a call that succeeds does. -/
inductive Change (r : Registry) : Op → Reply → Registry → Prop where
  | stamps {entry : Host} {id : Option String} {i : Identity} {r' : Registry}
      (h : Stamps r r' (trimSpace entry.name) id i) : Change r (.stamp entry id) (.identity i) r'
  | mints {op : Op} {reply : Reply} {r' : Registry} (h : Host) (hlands : Lands r r' h)
      (htarget : op.target = some h.name) (hinserts : op.inserts = true)
      (hgeneration : r.gen < h.generation) (hpresence : r.presence h.name < h.presenceEpoch)
      (hid : op.generated = some h.incarnationID) : Change r op reply r'
  | consumes {op : Op} {reply : Reply} {r' : Registry} (h : Host) (hlands : Lands r r' h)
      (htarget : op.target = some h.name) (hinserts : op.inserts = true)
      (hfree : r.hosts h.name = none) (hpending : r.pending h.name = some h.identity)
      (hcleared : r'.pending h.name = none) : Change r op reply r'
  | updates {entry : Host} {reply : Reply} {r' : Registry} (h live : Host)
      (hlands : Lands r r' h) (hname : h.name = trimSpace entry.name)
      (hreplaces : Replaces r r' h live) : Change r (.update entry) reply r'
  | removes {name : String} {reply : Reply} {r' : Registry} {presence : UInt64}
      (hpresence : r.presence (trimSpace name) < presence)
      (hosts : r'.hosts = Function.update r.hosts (trimSpace name) none)
      (gen : r'.gen = r.gen)
      (hrecorded : r'.presence = Function.update r.presence (trimSpace name) presence)
      (pending : r'.pending = Function.update r.pending (trimSpace name) none) :
      Change r (.remove name) reply r'
  | links {name : String} {upstreamNames : List String} {reply : Reply}
      (edges : List (String × List String)) :
      Change r (.setUpstreams name upstreamNames) reply { r with edges }

theorem stamp_change (h : r.stamp entry id = .ok (i, r')) :
    Stamps r r' (trimSpace entry.name) id i := by
  unfold Registry.stamp at h
  obtain ⟨_, _, h⟩ := bind_eq_ok.mp h
  obtain ⟨generation, hgeneration, h⟩ := bind_eq_ok.mp h
  obtain ⟨identity, hidentity, h⟩ := bind_eq_ok.mp h
  obtain ⟨rfl, rfl⟩ := Prod.mk.inj (Except.ok.inj h)
  have hnext := nextGeneration_gt hgeneration
  have hname : (normalize entry).name = trimSpace entry.name := rfl
  rw [hname] at hidentity
  rw [hname]
  split at hidentity
  · next live hlive =>
    obtain rfl := Except.ok.inj hidentity
    refine ⟨hnext.2, fun h hh => ?_, fun hfree => ?_, rfl, rfl, rfl, rfl⟩
    · obtain rfl := Option.some.inj (hlive.symm.trans hh)
      exact ⟨rfl, rfl⟩
    · rw [hfree] at hlive
      cases hlive
  · next hfree =>
    obtain ⟨presence, hpresence, hidentity⟩ := bind_eq_ok.mp hidentity
    obtain ⟨incarnation, hmint, hidentity⟩ := bind_eq_ok.mp hidentity
    obtain rfl := Except.ok.inj hidentity
    refine ⟨hnext.2, fun h hh => ?_, fun _ => ?_, rfl, rfl, rfl, rfl⟩
    · rw [hfree] at hh
      cases hh
    · exact ⟨nextPresence_gt hpresence, mintIncarnationID_ok hmint⟩

theorem peekStamp_some (h : r.peekStampLocked entry = some i) :
    r.pending entry.name = some i ∧ i = entry.identity := by
  unfold Registry.peekStampLocked at h
  split at h
  · cases h
  · next pending hpending =>
    split at h
    · cases h
    · next hsame =>
      obtain rfl := Option.some.inj h
      push Not at hsame
      obtain ⟨hgeneration, hincarnation, hpresence⟩ := hsame
      refine ⟨hpending, ?_⟩
      unfold Host.identity
      rw [hgeneration, hincarnation, hpresence]

theorem pending_cleared (n : String) (i : Identity)
    (h : Function.update r.pending name none n = some i) : r.pending n = some i := by
  by_cases hn : n = name
  · subst hn
    rw [Function.update_self] at h
    cases h
  · rwa [Function.update_of_ne hn] at h

theorem mintIdentity_ok (h : r.mintIdentityLocked name id = .ok i) : r.gen < i.generation ∧
      r.presence name < i.presenceEpoch ∧ id = some i.incarnationID := by
  unfold Registry.mintIdentityLocked at h
  obtain ⟨generation, hgeneration, h⟩ := bind_eq_ok.mp h
  obtain ⟨presence, hpresence, h⟩ := bind_eq_ok.mp h
  obtain ⟨incarnation, hid, h⟩ := bind_eq_ok.mp h
  obtain rfl := Except.ok.inj h
  exact ⟨(nextGeneration_gt hgeneration).2, nextPresence_gt hpresence, mintIncarnationID_ok hid⟩

/-- What an insertion does: its identity is the one that was stamped, or a new one. -/
structure Inserts (r r' : Registry) (h : Host) (id : Option String) : Prop where
  lands : Lands r r' h
  identity : r.pending h.name = some h.identity ∧ r'.pending h.name = none ∨
    r.gen < h.generation ∧ r.presence h.name < h.presenceEpoch ∧ id = some h.incarnationID

theorem insertLocked_inserts (h : r.insertLocked entry id = .ok r') :
    ∃ h, h.name = entry.name ∧ Inserts r r' h id := by
  unfold Registry.insertLocked Registry.consumeStampLocked at h
  cases hpeek : r.peekStampLocked entry with
  | some i =>
    rw [hpeek] at h
    obtain rfl := Except.ok.inj h
    refine ⟨entry.under i, rfl, ⟨rfl, rfl, rfl, pending_cleared⟩, Or.inl ⟨(peekStamp_some hpeek).1, ?_⟩⟩
    exact Function.update_self ..
  | none =>
    rw [hpeek] at h
    obtain ⟨i, hmint, h⟩ := bind_eq_ok.mp h
    obtain rfl := Except.ok.inj h
    exact ⟨entry.under i, rfl, ⟨rfl, rfl, rfl, fun _ _ h => h⟩, Or.inr (mintIdentity_ok hmint)⟩

theorem add_change {upstreamNames : List String}
    (h : r.addWithUpstreams entry upstreamNames id = .ok r') :
    Change r (.addWithUpstreams entry upstreamNames id) reply r' := by
  unfold Registry.addWithUpstreams at h
  obtain ⟨_, _, h⟩ := bind_eq_ok.mp h
  obtain ⟨upstreams, _, h⟩ := bind_eq_ok.mp h
  split at h
  · cases h
  · next hnew =>
    obtain ⟨_, _, h⟩ := bind_eq_ok.mp h
    obtain ⟨r₁, hinsert, h⟩ := bind_eq_ok.mp h
    obtain rfl := Except.ok.inj h
    obtain ⟨host, hname, hinserts⟩ := insertLocked_inserts hinsert
    have hlands : Lands r { r₁ with edges := put Prod.fst ((normalize entry).name, upstreams) r₁.edges }
        host := ⟨hinserts.lands.hosts, hinserts.lands.gen, hinserts.lands.presence,
      hinserts.lands.pending⟩
    have htarget : some (trimSpace entry.name) = some host.name := congrArg some hname.symm
    rcases hinserts.identity with ⟨hpending, hcleared⟩ | ⟨hgeneration, hpresence, hid⟩
    · refine .consumes host hlands htarget rfl ?_ hpending hcleared
      rw [hname]
      simpa using hnew
    · exact .mints host hlands htarget rfl hgeneration hpresence hid

theorem update_change (h : r.update entry = .ok r') : Change r (.update entry) reply r' := by
  unfold Registry.update at h
  obtain ⟨_, _, h⟩ := bind_eq_ok.mp h
  split at h
  · cases h
  · next live hlive =>
    obtain ⟨⟨generation, pending⟩, hgeneration, h⟩ := bind_eq_ok.mp h
    obtain rfl := Except.ok.inj h
    split at hgeneration
    · next i hpeek =>
      split at hgeneration
      · next hlt =>
        obtain ⟨rfl, rfl⟩ := Prod.mk.inj (Except.ok.inj hgeneration)
        refine .updates { normalize entry with
          generation := i.generation
          incarnationID := live.incarnationID
          presenceEpoch := live.presenceEpoch } live ⟨rfl, rfl, rfl, pending_cleared⟩ rfl
          ⟨hlive, rfl, rfl, Or.inr ⟨hlt, ?_, i, (peekStamp_some hpeek).1, rfl⟩⟩
        exact Function.update_self ..
      · cases hgeneration
    · obtain ⟨next, hnext, hgeneration⟩ := bind_eq_ok.mp hgeneration
      obtain ⟨rfl, rfl⟩ := Prod.mk.inj (Except.ok.inj hgeneration)
      exact .updates { normalize entry with
        generation := next
        incarnationID := live.incarnationID
        presenceEpoch := live.presenceEpoch } live ⟨rfl, rfl, rfl, fun _ _ h => h⟩ rfl
        ⟨hlive, rfl, rfl, Or.inl (nextGeneration_gt hnext).2⟩

theorem remove_change (h : r.remove name = .ok r') : Change r (.remove name) reply r' := by
  unfold Registry.remove at h
  obtain ⟨_, _, h⟩ := bind_eq_ok.mp h
  split at h
  · cases h
  · obtain ⟨presence, hpresence, h⟩ := bind_eq_ok.mp h
    obtain rfl := Except.ok.inj h
    exact .removes (nextPresence_gt hpresence) rfl rfl rfl rfl

theorem setUpstreams_change {upstreamNames : List String}
    (h : r.setUpstreams name upstreamNames = .ok r') :
    Change r (.setUpstreams name upstreamNames) reply r' := by
  unfold Registry.setUpstreams at h
  obtain ⟨_, _, h⟩ := bind_eq_ok.mp h
  obtain ⟨upstreams, _, h⟩ := bind_eq_ok.mp h
  split at h
  · cases h
  · obtain ⟨_, _, h⟩ := bind_eq_ok.mp h
    obtain rfl := Except.ok.inj h
    exact .links _

theorem rebase_change (h : r.rebaseBootCollision name id = .ok (entry, r'))
    (hnamed : ∀ n live, r.hosts n = some live → live.name = n) :
    Change r (.rebaseBootCollision name id) reply r' := by
  unfold Registry.rebaseBootCollision at h
  dsimp only at h
  split at h
  · cases h
  · next live hlive =>
    obtain ⟨generation, hgeneration, h⟩ := bind_eq_ok.mp h
    obtain ⟨presence, hpresence, h⟩ := bind_eq_ok.mp h
    obtain ⟨incarnation, hid, h⟩ := bind_eq_ok.mp h
    obtain ⟨rfl, rfl⟩ := Prod.mk.inj (Except.ok.inj h)
    obtain hname := hnamed _ _ hlive
    rw [← hname] at hpresence ⊢
    refine .mints { live with
      generation := generation
      incarnationID := incarnation
      presenceEpoch := presence } ⟨rfl, rfl, rfl, pending_cleared⟩ ?_ rfl
      (nextGeneration_gt hgeneration).2 (nextPresence_gt hpresence) (mintIncarnationID_ok hid)
    exact congrArg some hname.symm

/-- What a call does, where the entries stand under their own names. -/
theorem apply_change (hnamed : ∀ n live, r.hosts n = some live → live.name = n) {op : Op}
    (h : r.apply op = .ok (reply, r')) : Change r op reply r' := by
  cases op with
  | stamp entry id =>
    obtain ⟨⟨i, r₁⟩, hstamp, heq⟩ := map_eq_ok.mp h
    obtain ⟨rfl, rfl⟩ := Prod.mk.inj heq
    exact .stamps (stamp_change hstamp)
  | addWithUpstreams entry upstreamNames id =>
    obtain ⟨r₁, hadd, heq⟩ := map_eq_ok.mp h
    obtain ⟨rfl, rfl⟩ := Prod.mk.inj heq
    exact add_change hadd
  | update entry =>
    obtain ⟨r₁, hupdate, heq⟩ := map_eq_ok.mp h
    obtain ⟨rfl, rfl⟩ := Prod.mk.inj heq
    exact update_change hupdate
  | remove name =>
    obtain ⟨r₁, hremove, heq⟩ := map_eq_ok.mp h
    obtain ⟨rfl, rfl⟩ := Prod.mk.inj heq
    exact remove_change hremove
  | setUpstreams name upstreamNames =>
    obtain ⟨r₁, hlink, heq⟩ := map_eq_ok.mp h
    obtain ⟨rfl, rfl⟩ := Prod.mk.inj heq
    exact setUpstreams_change hlink
  | rebaseBootCollision name id =>
    obtain ⟨⟨entry, r₁⟩, hrebase, heq⟩ := map_eq_ok.mp h
    obtain ⟨rfl, rfl⟩ := Prod.mk.inj heq
    exact rebase_change hrebase hnamed

end Evener.Hostreg
