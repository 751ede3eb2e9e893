/-
  The pending watch-send frames of a journal: a slot is pending exactly when one of its frames is
  newer than all that was settled, whatever order the events were appended in.
-/
import Evener.Jobstore.Fold

namespace Evener.Jobstore

open Evener.Lib Option
open List hiding lookup

variable (k : WatchSendKey)

/-- The frame that the event makes pending in the slot. -/
def Event.pends (e : Event) : Option WatchSendState :=
  match e.kind with
  | .watchSendPending => e.watchSend.filter fun send => send.key = k
  | _ => none

/-- The frame of the slot that the event settles. -/
def Event.settles (e : Event) : Option WatchSendState :=
  match e.kind with
  | .watchSendDelivered | .watchSendDropped | .watchSendEvicted =>
    e.watchSend.filter fun send => send.key = k
  | _ => none

/-- The last of the frames with the greatest update. -/
def Latest (frames : List WatchSendState) (send : WatchSendState) : Prop :=
  ∃ before after, frames = before ++ send :: after ∧
    (∀ x ∈ before, x.updateSeq ≤ send.updateSeq) ∧ ∀ x ∈ after, x.updateSeq < send.updateSeq

variable {send : WatchSendState} {e : Event}

theorem Latest.le {frames : List WatchSendState} (h : Latest frames send) :
    ∀ x ∈ frames, x.updateSeq ≤ send.updateSeq := by
  obtain ⟨before, after, rfl, hbefore, hafter⟩ := h
  intro x hx
  rcases mem_append.mp hx with hx | hx
  · exact hbefore x hx
  · rcases mem_cons.mp hx with rfl | hx
    · exact Nat.le_refl _
    · exact Nat.le_of_lt (hafter x hx)

theorem Latest.mem {frames : List WatchSendState} (h : Latest frames send) : send ∈ frames := by
  obtain ⟨before, after, rfl, _⟩ := h
  exact mem_append_right _ mem_cons_self

/-- What the fold stores of a frame. -/
def WatchSendState.stored (send : WatchSendState) : WatchSendState :=
  { send with provenance := cloneProvenance send.provenance }

/-- The slot after the events: the frames they made pending, and those they settled. -/
structure Slot (pends settles : List WatchSendState) (acc : SendFold) : Prop where
  settled : ∀ t ∈ settles, ∃ seq,
    (lookup Prod.fst k acc.terminalSeq).map Prod.snd = some seq ∧ t.updateSeq ≤ seq
  reached : ∀ seq, (lookup Prod.fst k acc.terminalSeq).map Prod.snd = some seq →
    ∃ t ∈ settles, t.updateSeq = seq
  waits : ∀ p, lookup sendKey k acc.pending = some p →
    ∃ send, Latest pends send ∧ p = send.stored ∧ ∀ t ∈ settles, t.updateSeq < send.updateSeq
  empty : lookup sendKey k acc.pending = none →
    ∀ send ∈ pends, ∃ t ∈ settles, send.updateSeq ≤ t.updateSeq

variable {k} {pends settles : List WatchSendState} {acc : SendFold}

theorem Slot.start : Slot k [] [] {} :=
  ⟨fun _ h => (nomatch h), fun _ h => (nomatch h), fun _ h => (nomatch h), fun _ _ h => (nomatch h)⟩

/-- A frame that becomes pending. -/
theorem Slot.pend (h : Slot k pends settles acc) (hkind : e.kind = .watchSendPending)
    (hsend : e.watchSend = some send) (hkey : send.key = k) :
    Slot k (pends ++ [send]) settles (applySendEvent acc e) := by
  subst hkey
  unfold applySendEvent
  rw [hsend, hkind]
  dsimp only
  -- the frame is not stored where a settled update or the stored one is newer
  have hskip : (∃ t ∈ settles, send.updateSeq ≤ t.updateSeq) ∨
      (∃ p, lookup sendKey send.key acc.pending = some p ∧ send.updateSeq < p.updateSeq) →
      Slot send.key (pends ++ [send]) settles acc := by
    intro hnewer
    refine ⟨h.settled, h.reached, fun p hp => ?_, fun hnone x hx => ?_⟩
    · obtain ⟨last, ⟨before, after, hsplit, hbefore, hafter⟩, rfl, hsettled⟩ := h.waits p hp
      refine ⟨last, ⟨before, after ++ [send], by rw [hsplit]; simp, hbefore, fun x hx => ?_⟩, rfl,
        hsettled⟩
      rcases mem_append.mp hx with hx | hx
      · exact hafter x hx
      · rw [mem_singleton.mp hx]
        rcases hnewer with ⟨t, ht, hle⟩ | ⟨p, hp', hlt⟩
        · exact Nat.lt_of_le_of_lt hle (hsettled t ht)
        · rw [hp] at hp'
          obtain rfl := some.inj hp'
          exact hlt
    · rcases mem_append.mp hx with hx | hx
      · exact h.empty hnone x hx
      · rw [mem_singleton.mp hx]
        rcases hnewer with hold | ⟨p, hp, _⟩
        · exact hold
        · rw [hnone] at hp
          cases hp
  split
  · next hold =>
    obtain ⟨seq, hseq, hle⟩ := (Option.any_eq_true _ _).mp hold
    obtain ⟨t, ht, rfl⟩ := h.reached seq hseq
    exact hskip (Or.inl ⟨t, ht, of_decide_eq_true hle⟩)
  · next hsettled =>
    split
    · next hnewer =>
      obtain ⟨p, hp, hlt⟩ := (Option.any_eq_true _ _).mp hnewer
      exact hskip (Or.inr ⟨p, hp, of_decide_eq_true hlt⟩)
    · next hlatest =>
      have hahead : ∀ t ∈ settles, t.updateSeq < send.updateSeq := by
        intro t ht
        obtain ⟨seq, hseq, hle⟩ := h.settled t ht
        rw [hseq] at hsettled
        have hlt : seq < send.updateSeq := by simpa using hsettled
        exact Nat.lt_of_le_of_lt hle hlt
      have hlookup : lookup sendKey send.key (put sendKey send.stored acc.pending) =
          some send.stored := by
        have hkey : sendKey send.stored = send.key := rfl
        rw [lookup_put, if_pos hkey]
      refine ⟨h.settled, h.reached, fun p hp => ?_, fun hnone => ?_⟩
      · obtain rfl := some.inj (hlookup.symm.trans hp)
        refine ⟨send, ⟨pends, [], rfl, fun x hx => ?_, forall_mem_nil _⟩, rfl, hahead⟩
        cases hp' : lookup sendKey send.key acc.pending with
        | none =>
          obtain ⟨t, ht, hle⟩ := h.empty hp' x hx
          exact Nat.le_trans hle (Nat.le_of_lt (hahead t ht))
        | some p =>
          obtain ⟨last, hlast, rfl, _⟩ := h.waits p hp'
          rw [hp'] at hlatest
          have hle : last.updateSeq ≤ send.updateSeq := by
            simpa [WatchSendState.stored] using hlatest
          exact Nat.le_trans (hlast.le x hx) hle
      · cases hlookup.symm.trans hnone

/-- A frame that is settled. -/
theorem Slot.settle (h : Slot k pends settles acc)
    (hkind : e.kind = .watchSendDelivered ∨ e.kind = .watchSendDropped ∨ e.kind = .watchSendEvicted)
    (hsend : e.watchSend = some send) (hkey : send.key = k) :
    Slot k pends (settles ++ [send]) (applySendEvent acc e) := by
  subst hkey
  have happly : applySendEvent acc e =
      { pending :=
          if (lookup sendKey send.key acc.pending).any (·.updateSeq ≤ send.updateSeq) then
            erase sendKey send.key acc.pending else acc.pending
        terminalSeq :=
          if ((lookup Prod.fst send.key acc.terminalSeq).map Prod.snd).all (· < send.updateSeq) then
            put Prod.fst (send.key, send.updateSeq) acc.terminalSeq else acc.terminalSeq } := by
    unfold applySendEvent
    rw [hsend]
    rcases hkind with hkind | hkind | hkind
    all_goals rw [hkind]
  rw [happly]
  constructor
  case settled =>
    intro t ht
    dsimp only
    split
    · next hall =>
      rw [lookup_put, if_pos rfl]
      refine ⟨send.updateSeq, rfl, ?_⟩
      rcases mem_append.mp ht with ht | ht
      · obtain ⟨seq, hseq, hle⟩ := h.settled t ht
        rw [hseq] at hall
        have hlt : seq < send.updateSeq := by simpa using hall
        exact Nat.le_trans hle (Nat.le_of_lt hlt)
      · rw [mem_singleton.mp ht]
    · next hnot =>
      rcases mem_append.mp ht with ht | ht
      · exact h.settled t ht
      · rw [mem_singleton.mp ht]
        cases hseq : (lookup Prod.fst send.key acc.terminalSeq).map Prod.snd with
        | none =>
          rw [hseq] at hnot
          exact absurd rfl hnot
        | some seq =>
          rw [hseq] at hnot
          refine ⟨seq, rfl, ?_⟩
          simpa using hnot
  case reached =>
    intro seq hseq
    dsimp only at hseq
    split at hseq
    · rw [lookup_put, if_pos rfl] at hseq
      exact ⟨send, mem_append_right _ (mem_singleton.mpr rfl), some.inj hseq⟩
    · obtain ⟨t, ht, hup⟩ := h.reached seq hseq
      exact ⟨t, mem_append_left _ ht, hup⟩
  case waits =>
    intro p hp
    split at hp
    · rw [lookup_erase, if_pos rfl] at hp
      cases hp
    · next hnot =>
      obtain ⟨last, hlast, rfl, hahead⟩ := h.waits p hp
      refine ⟨last, hlast, rfl, fun t ht => ?_⟩
      rcases mem_append.mp ht with ht | ht
      · exact hahead t ht
      · rw [mem_singleton.mp ht]
        rw [hp] at hnot
        simpa [WatchSendState.stored] using hnot
  case empty =>
    intro hnone x hx
    split at hnone
    · next hany =>
      obtain ⟨p, hp, hle⟩ := (Option.any_eq_true _ _).mp hany
      obtain ⟨last, hlast, rfl, _⟩ := h.waits p hp
      exact ⟨send, mem_append_right _ (mem_singleton.mpr rfl),
        Nat.le_trans (hlast.le x hx) (of_decide_eq_true hle)⟩
    · obtain ⟨t, ht, hle⟩ := h.empty hnone x hx
      exact ⟨t, mem_append_left _ ht, hle⟩

/-- An event that is of another slot, or no frame's at all. -/
theorem Slot.other (h : Slot k pends settles acc) (hpends : e.pends k = none)
    (hsettles : e.settles k = none) : Slot k pends settles (applySendEvent acc e) := by
  unfold applySendEvent
  cases hsend : e.watchSend with
  | none => exact h
  | some send =>
    have hkey : ∀ {kinds : Prop}, (kinds → (some send).filter (fun send => decide (send.key = k)) =
        none) → kinds → send.key ≠ k := by
      intro kinds hfilter hkinds heq
      have hnone := hfilter hkinds
      rw [filter_some, if_pos (decide_eq_true heq)] at hnone
      cases hnone
    unfold Event.pends at hpends
    unfold Event.settles at hsettles
    rw [hsend] at hpends hsettles
    cases hkind : e.kind
    case watchSendPending =>
      rw [hkind] at hpends
      have hne := hkey (fun _ : True => hpends) trivial
      have hlookup : ∀ pending : List WatchSendState, lookup sendKey k (put sendKey send.stored pending) =
          lookup sendKey k pending := by
        intro pending
        rw [lookup_put, if_neg]
        exact hne
      dsimp only
      split
      · exact h
      · split
        · exact h
        · refine ⟨h.settled, h.reached, fun p hp => h.waits p ?_, fun hnone => h.empty ?_⟩
          · exact (hlookup acc.pending).symm.trans hp
          · exact (hlookup acc.pending).symm.trans hnone
    case watchSendDelivered | watchSendDropped | watchSendEvicted =>
      rw [hkind] at hsettles
      have hne := hkey (fun _ : True => hsettles) trivial
      have hpending : ∀ b : Bool, lookup sendKey k (if b then erase sendKey send.key acc.pending
          else acc.pending) = lookup sendKey k acc.pending := by
        intro b
        cases b with
        | false => rfl
        | true => exact (lookup_erase _ _ _).trans (if_neg hne.symm)
      have hterminal : ∀ b : Bool, lookup Prod.fst k (if b then
          put Prod.fst (send.key, send.updateSeq) acc.terminalSeq else acc.terminalSeq) =
          lookup Prod.fst k acc.terminalSeq := by
        intro b
        cases b with
        | false => rfl
        | true => exact (lookup_put _ _ _).trans (if_neg hne)
      constructor
      case settled =>
        simp only [hterminal]
        exact h.settled
      case reached =>
        simp only [hterminal]
        exact h.reached
      case waits =>
        simp only [hpending]
        exact h.waits
      case empty =>
        simp only [hpending]
        exact h.empty
    all_goals exact h

theorem pends_eq_some (h : e.pends k = some send) :
    e.kind = .watchSendPending ∧ e.watchSend = some send ∧ send.key = k := by
  unfold Event.pends at h
  split at h
  · next hkind =>
    obtain ⟨hsend, hkey⟩ := filter_eq_some_iff.mp h
    exact ⟨hkind, hsend, of_decide_eq_true hkey⟩
  · cases h

theorem settles_eq_some (h : e.settles k = some send) :
    (e.kind = .watchSendDelivered ∨ e.kind = .watchSendDropped ∨ e.kind = .watchSendEvicted) ∧
      e.watchSend = some send ∧ send.key = k := by
  unfold Event.settles at h
  split at h
  case h_4 => cases h
  all_goals
    next hkind =>
    obtain ⟨hsend, hkey⟩ := filter_eq_some_iff.mp h
    exact ⟨by simp [hkind], hsend, of_decide_eq_true hkey⟩

theorem Slot.step (h : Slot k pends settles acc) (e : Event) :
    Slot k (pends ++ (e.pends k).toList) (settles ++ (e.settles k).toList) (applySendEvent acc e) := by
  cases hpends : e.pends k with
  | some send =>
    obtain ⟨hkind, hsend, hkey⟩ := pends_eq_some hpends
    have hsettles : e.settles k = none := by
      unfold Event.settles
      rw [hkind]
    rw [hsettles, toList_none, append_nil]
    exact h.pend hkind hsend hkey
  | none =>
    rw [toList_none, append_nil]
    cases hsettles : e.settles k with
    | some send =>
      obtain ⟨hkind, hsend, hkey⟩ := settles_eq_some hsettles
      exact h.settle hkind hsend hkey
    | none =>
      rw [toList_none, append_nil]
      exact h.other hpends hsettles

theorem Slot.foldl (h : Slot k pends settles acc) (events : List Event) :
    Slot k (pends ++ events.filterMap (Event.pends k)) (settles ++ events.filterMap (Event.settles k))
      (events.foldl applySendEvent acc) := by
  induction events generalizing pends settles acc with
  | nil => simpa using h
  | cons e events ih =>
    have hcons : ∀ f : Event → Option WatchSendState,
        (e :: events).filterMap f = (f e).toList ++ events.filterMap f := by
      intro f
      rw [filterMap_cons]
      cases f e <;> rfl
    rw [hcons, hcons, ← append_assoc, ← append_assoc]
    exact ih (h.step e)

theorem foldWatchSends_slot (k : WatchSendKey) (events : List Event) :
    Slot k ((bySeq events).filterMap (Event.pends k)) ((bySeq events).filterMap (Event.settles k))
      ((bySeq events).foldl applySendEvent {}) := by
  have hslot := (Slot.start (k := k)).foldl (bySeq events)
  simpa using hslot

/-- Whether a slot is pending is read off the updates of its frames. -/
theorem pending_iff (k : WatchSendKey) (events : List Event) :
    (lookup sendKey k (foldWatchSends events).pending).isSome = true ↔
      ∃ send ∈ events.filterMap (Event.pends k), ∀ t ∈ events.filterMap (Event.settles k),
        t.updateSeq < send.updateSeq := by
  have hslot := foldWatchSends_slot k events
  have hmem : ∀ (f : Event → Option WatchSendState) send, send ∈ (bySeq events).filterMap f ↔
      send ∈ events.filterMap f := fun f send =>
    ((sortBy_perm events).filterMap f).mem_iff
  show (lookup sendKey k ((bySeq events).foldl applySendEvent {}).pending).isSome = true ↔ _
  constructor
  · intro hsome
    obtain ⟨p, hp⟩ := isSome_iff_exists.mp hsome
    obtain ⟨send, hlatest, _, hahead⟩ := hslot.waits p hp
    exact ⟨send, (hmem _ send).mp hlatest.mem, fun t ht => hahead t ((hmem _ t).mpr ht)⟩
  · rintro ⟨send, hsend, hahead⟩
    cases hp : lookup sendKey k ((bySeq events).foldl applySendEvent {}).pending with
    | some p => rfl
    | none =>
      obtain ⟨t, ht, hle⟩ := hslot.empty hp send ((hmem _ send).mpr hsend)
      exact absurd (hahead t ((hmem _ t).mp ht)) (Nat.not_lt_of_le hle)

/-- The last conjunct: the order in which the events were appended, and so their numbers, decide
    nothing about whether a slot is pending. -/
theorem watchSends_pending (k : WatchSendKey) (events : List Event) :
    ((lookup sendKey k (foldWatchSends events).pending).isSome = true ↔
      ∃ send ∈ events.filterMap (Event.pends k), ∀ t ∈ events.filterMap (Event.settles k),
        t.updateSeq < send.updateSeq) ∧
    (∀ p, lookup sendKey k (foldWatchSends events).pending = some p →
      ∃ send, Latest ((bySeq events).filterMap (Event.pends k)) send ∧
        p = { send with provenance := cloneProvenance send.provenance }) ∧
    ∀ events' : List Event, (events'.map fun e => (e.kind, e.watchSend)).Perm
        (events.map fun e => (e.kind, e.watchSend)) →
      (lookup sendKey k (foldWatchSends events').pending).isSome =
        (lookup sendKey k (foldWatchSends events).pending).isSome := by
  refine ⟨pending_iff k events, fun p hp => ?_, fun events' hperm => ?_⟩
  · obtain ⟨send, hlatest, hstored, _⟩ := (foldWatchSends_slot k events).waits p hp
    exact ⟨send, hlatest, hstored⟩
  · -- neither side reads the number of an event
    have hmem : ∀ f : Event → Option WatchSendState,
        (∀ e, f e = f { kind := e.kind, seq := 0, watchSend := e.watchSend }) →
        ∀ send, send ∈ events'.filterMap f ↔ send ∈ events.filterMap f := by
      intro f hf send
      have hfactor : ∀ l : List Event, l.filterMap f = (l.map fun e => (e.kind, e.watchSend)).filterMap
          fun p => f { kind := p.1, seq := 0, watchSend := p.2 } := by
        intro l
        rw [filterMap_map]
        exact filterMap_congr fun e _ => hf e
      rw [hfactor, hfactor]
      exact (hperm.filterMap _).mem_iff
    have hpends := hmem (Event.pends k) fun _ => rfl
    have hsettles := hmem (Event.settles k) fun _ => rfl
    rw [Bool.eq_iff_iff, pending_iff, pending_iff]
    simp only [hpends, hsettles]

/-- A chain of more than sixteen entries is cut. -/
theorem longChain_cut :
    let send : WatchSendState :=
      { key :=
          { visibleSessionId := "s"
            watchTarget := "t"
            resolvedWatchedIdentity := "w"
            resolvedSendTo := "r"
            watchGeneration := "1" }
        deliveryId := "d"
        updateSeq := 1
        provenance := some { chain := List.replicate 17 { kind := "watch" } } }
    let events := [({ kind := .watchSendPending, seq := 1, watchSend := some send } : Event)]
    (lookup sendKey send.key (foldWatchSends events).pending).isSome = true ∧
      lookup sendKey send.key (foldWatchSends events).pending ≠ some send := by
  decide

end Evener.Jobstore
