/-
  Runs of a client, and what one operation can do to the held history.

  `HistoryStep op h h'` lists it: each operation of the model is such a step (`step_history`), and
  what holds of every run is derived from these cases and not from the operations' bodies.
-/
import Evener.Transcript.Reducer

namespace Evener.Transcript

open Evener.Lib List

/-! ## Operations and runs -/

inductive ClientOp where
  | issueLatestWindowRead
  | applyReadResponse (resp : ThreadReadResponse) (frontier : String)
  | notify (n : AnyNotification)
  | mergeOlderItemPage (resp : ThreadTurnsListResponse)
  | invalidateHistory
  | applyHistoryReadFailure (diagnostic : String) (requestGeneration : Nat)
deriving DecidableEq, Repr

/-- A thread model, and the number of the next frame. -/
structure Client where
  frame : Nat
  model : ThreadModel

/-- One operation at time `now`. -/
def applyOp (U : UnversionedMerge) (frame now : Nat) (model : ThreadModel) : ClientOp → ThreadModel
  | .issueLatestWindowRead => issueLatestWindowRead model
  | .applyReadResponse resp frontier => applyReadResponse frame model resp now frontier
  | .notify n => applyNotification frame model n now
  | .mergeOlderItemPage resp => mergeOlderItemPage U model resp
  | .invalidateHistory => invalidateHistory model
  | .applyHistoryReadFailure diagnostic generation =>
    applyHistoryReadFailure model diagnostic generation

def Client.step (U : UnversionedMerge) (c : Client) (op : ClientOp × Nat) : Client :=
  ⟨c.frame + 1, applyOp U c.frame op.2 c.model op.1⟩

def Client.run (U : UnversionedMerge) (c : Client) (ops : List (ClientOp × Nat)) : Client :=
  ops.foldl (Client.step U) c

theorem Client.run_append (U : UnversionedMerge) (c : Client) (ops ops' : List (ClientOp × Nat)) :
    c.run U (ops ++ ops') = (c.run U ops).run U ops' := by
  simp [Client.run]

variable {model : ThreadModel} {held : HistoryState}

theorem historyOf_some {h : HistoryState} (hh : model.history = some h) : historyOf model = h := by
  unfold historyOf
  rw [hh]
  rfl

/-- An unversioned merge that keeps older turns in front. -/
def plainMerge : UnversionedMerge := ⟨id, fun older shown => older ++ shown⟩

/-- A page operation names its snapshot. -/
def ClientOp.NamesSnapshot : ClientOp → Prop
  | .mergeOlderItemPage resp => resp.snapshot.isSome
  | _ => True

/-! ## Pages -/

/-- The held turns after a page merged. -/
def pageTurns (route : Option String) (turns : List TurnModel) (resp : ThreadTurnsListResponse) :
    List TurnModel :=
  let fresh := splitWireTurns (resp.data.getD []) route
  let kept :=
    match (if resp.authoritative then fragmentRange fresh.items else none) with
    | some (first, last) => dropItemsInRange turns first (some last)
    | none => turns
  mergeHistory kept fresh

/-- The history after a page. -/
def pageHistory (route : Option String) (held : HistoryState) (resp : ThreadTurnsListResponse) :
    HistoryState :=
  match pageDisposition held resp with
  | .discard => held
  | .defer => { held with deferredPages := held.deferredPages ++ [resp] }
  | .invalidate =>
    let history := invalidated held resp.identity.signal
    if history.pendingIncarnation = resp.identity.incarnation then
      { history with deferredPages := history.deferredPages ++ [resp] }
    else history
  | .merge => { held with turns := pageTurns route held.turns resp }

theorem withDisplay_history (model : ThreadModel) (history : HistoryState)
    (overlay : List OverlayCell) : (withDisplay model history overlay).history = some history := rfl

theorem mergeVersionedPage_history (h : model.history = some held) (resp : ThreadTurnsListResponse)
    (takeCursor : Bool) :
    (mergeVersionedPage model held resp takeCursor).history =
      some (pageHistory (modelImageSessionRoute model) held resp) := by
  unfold mergeVersionedPage pageHistory
  cases pageDisposition held resp with
  | discard => exact h
  | defer => rfl
  | invalidate => rfl
  | merge => rfl

theorem mergeVersionedPage_fields (model : ThreadModel) (held : HistoryState)
    (resp : ThreadTurnsListResponse) (takeCursor : Bool) :
    (mergeVersionedPage model held resp takeCursor).toThreadFields = model.toThreadFields := by
  unfold mergeVersionedPage
  cases pageDisposition held resp with
  | discard => rfl
  | defer => rfl
  | invalidate => rfl
  | merge => cases takeCursor <;> rfl

/-- The history after the pages deferred for `incarnation`. -/
def deferredHistory (route : Option String) (incarnation : Option String) (history : HistoryState)
    (pages : List ThreadTurnsListResponse) : HistoryState :=
  pages.foldl (fun history page =>
    if page.identity.incarnation = incarnation then pageHistory route history page else history)
    history

theorem mergeDeferredPages_history (incarnation : Option String)
    (pages : List ThreadTurnsListResponse) (h : model.history = some held) :
    (mergeDeferredPages incarnation model pages).history =
      some (deferredHistory (modelImageSessionRoute model) incarnation held pages) := by
  induction pages generalizing model held with
  | nil => exact h
  | cons page pages ih =>
    unfold mergeDeferredPages deferredHistory at ih ⊢
    rw [foldl_cons, foldl_cons]
    split
    · have hnext := mergeVersionedPage_history h page false
      rw [historyOf_some h]
      have hroute : modelImageSessionRoute (mergeVersionedPage model held page false) =
          modelImageSessionRoute model := by
        unfold modelImageSessionRoute
        rw [mergeVersionedPage_fields]
      rw [ih hnext, hroute]
    · exact ih h

/-- Everything a page can do to a history. -/
theorem pageHistory_cases (route : Option String) (held : HistoryState)
    (resp : ThreadTurnsListResponse) :
    pageHistory route held resp = held ∨
    (held.invalidatedAtGeneration.isSome ∧
      pageHistory route held resp = { held with deferredPages := held.deferredPages ++ [resp] }) ∨
    (∃ pages, (∀ p ∈ pages, p = resp) ∧
      pageHistory route held resp = { invalidated held resp.identity.signal with
        deferredPages := held.deferredPages ++ pages }) ∨
    (pageDisposition held resp = .merge ∧
      pageHistory route held resp = { held with turns := pageTurns route held.turns resp }) := by
  unfold pageHistory
  cases hd : pageDisposition held resp with
  | discard => exact Or.inl rfl
  | defer =>
    refine Or.inr (Or.inl ⟨?_, rfl⟩)
    unfold pageDisposition at hd
    split at hd
    · cases hd
    · split at hd
      · cases hd
      · cases hd
      · split at hd
        · next hinv => exact hinv
        · split at hd <;> cases hd
  | invalidate =>
    refine Or.inr (Or.inr (Or.inl ?_))
    dsimp only
    split
    · exact ⟨[resp], by simp, rfl⟩
    · exact ⟨[], by simp, by simp [invalidated]⟩
  | merge => exact Or.inr (Or.inr (Or.inr ⟨rfl, rfl⟩))

/-! ## What a read lets in -/

theorem invalidated_live (history : HistoryState) (signal : HistorySignal) :
    (invalidated history signal).invalidatedAtGeneration = some history.issuedGeneration := rfl

/-- The identity and the generations of a history, which no page changes. -/
structure SameRead (h h' : HistoryState) : Prop where
  identity : h'.toReadIdentity = h.toReadIdentity
  applied : h'.appliedGeneration = h.appliedGeneration
  issued : h'.issuedGeneration = h.issuedGeneration

theorem sameRead_refl (h : HistoryState) : SameRead h h := ⟨rfl, rfl, rfl⟩

theorem SameRead.trans {a b c : HistoryState} (hab : SameRead a b) (hbc : SameRead b c) :
    SameRead a c :=
  ⟨hbc.identity.trans hab.identity, hbc.applied.trans hab.applied, hbc.issued.trans hab.issued⟩

theorem pageHistory_sameRead (route : Option String) (held : HistoryState)
    (resp : ThreadTurnsListResponse) : SameRead held (pageHistory route held resp) := by
  rcases pageHistory_cases route held resp with heq | ⟨-, heq⟩ | ⟨pages, -, heq⟩ | ⟨-, heq⟩
  · rw [heq]
    exact sameRead_refl held
  · rw [heq]
    exact ⟨rfl, rfl, rfl⟩
  · rw [heq]
    exact ⟨rfl, rfl, rfl⟩
  · rw [heq]
    exact ⟨rfl, rfl, rfl⟩

/-- A live history awaits nothing. -/
def HistoryState.Calm (h : HistoryState) : Prop :=
  h.invalidatedAtGeneration = none → h.awaited = none

theorem pageHistory_calm {route : Option String} {resp : ThreadTurnsListResponse} (h : held.Calm) :
    (pageHistory route held resp).Calm := by
  rcases pageHistory_cases route held resp with heq | ⟨-, heq⟩ | ⟨pages, -, heq⟩ | ⟨-, heq⟩
  · rw [heq]
    exact h
  · rw [heq]
    exact h
  · rw [heq]
    intro hlive
    rw [show ({ invalidated held resp.identity.signal with
      deferredPages := held.deferredPages ++ pages } : HistoryState).invalidatedAtGeneration =
      some held.issuedGeneration from rfl] at hlive
    cases hlive
  · rw [heq]
    exact h

/-- `page` was projected from the very history that `identity` names. -/
def PageMatches (identity : ReadIdentity) (page : ThreadTurnsListResponse) : Prop :=
  Matches identity page.identity.bootGeneration page.identity.epoch page.identity.incarnation

/-- The pages a read lets in all carry the identity it installed; the turns are these pages
    merged over the read's own. -/
theorem deferredHistory_spec (route : Option String) (incarnation : Option String)
    (pages : List ThreadTurnsListResponse) (hpages : ∀ p ∈ pages, p.snapshot.isSome)
    {history : HistoryState} (hcalm : history.Calm) :
    ∃ admitted : List ThreadTurnsListResponse, admitted.Sublist pages ∧
      (∀ p ∈ admitted, PageMatches history.toReadIdentity p) ∧
      (deferredHistory route incarnation history pages).turns =
        admitted.foldl (pageTurns route) history.turns ∧
      SameRead history (deferredHistory route incarnation history pages) ∧
      (deferredHistory route incarnation history pages).Calm := by
  induction pages generalizing history with
  | nil =>
    exact ⟨[], List.Sublist.refl _, by simp, rfl, sameRead_refl _, hcalm⟩
  | cons page pages ih =>
    have hpages' : ∀ p ∈ pages, p.snapshot.isSome := fun p hp => hpages p (mem_cons_of_mem _ hp)
    unfold deferredHistory at ih ⊢
    rw [foldl_cons]
    split
    · have hsame := pageHistory_sameRead route history page
      obtain ⟨admitted, hsub, hmatch, hturns, hread, hcalm'⟩ := ih hpages' (pageHistory_calm hcalm)
      rw [hsame.identity] at hmatch
      have hrest := hsame.trans hread
      by_cases hmerge : pageDisposition history page = .merge
      · have hsnap : page.identity.incarnation.isSome := by
          have := hpages page mem_cons_self
          simpa [ThreadTurnsListResponse.identity, readIdentity] using this
        have hm := pageDisposition_merge hcalm hsnap hmerge
        have hp : (pageHistory route history page).turns = pageTurns route history.turns page := by
          unfold pageHistory
          rw [hmerge]
        rw [hp] at hturns
        refine ⟨page :: admitted, hsub.cons_cons page, ?_, hturns, hrest, hcalm'⟩
        intro p hp
        rcases mem_cons.mp hp with rfl | hp
        · exact hm
        · exact hmatch p hp
      · have hp : (pageHistory route history page).turns = history.turns := by
          rcases pageHistory_cases route history page with heq | ⟨-, heq⟩ | ⟨ps, -, heq⟩ | ⟨hd, -⟩
          · rw [heq]
          · rw [heq]
          · rw [heq]
            rfl
          · exact absurd hd hmerge
        rw [hp] at hturns
        exact ⟨admitted, hsub.cons page, hmatch, hturns, hrest, hcalm'⟩
    · obtain ⟨admitted, hsub, hrest⟩ := ih hpages' hcalm
      exact ⟨admitted, hsub.cons page, hrest⟩

/-! ## One operation -/

/-- Everything an operation can do to the history of the thread `ref`. -/
inductive HistoryStep (ref : String) : ClientOp → HistoryState → HistoryState → Prop where
  | same (op : ClientOp) (h : HistoryState) : HistoryStep ref op h h
  | issue (h : HistoryState) :
      HistoryStep ref .issueLatestWindowRead h { h with issuedGeneration := h.issuedGeneration + 1 }
  | invalidate (op : ClientOp) (h : HistoryState) (signal : HistorySignal) :
      HistoryStep ref op h (invalidated h signal)
  | page (resp : ThreadTurnsListResponse) (h : HistoryState) (route : Option String) :
      HistoryStep ref (.mergeOlderItemPage resp) h (pageHistory route h resp)
  | update (params : HistoryUpdatedParams) (h : HistoryState) (route : Option String)
      (htarget : params.ref = ref) (hlive : h.invalidatedAtGeneration = none)
      (hsignal : classifySignal h (historyUpdatedSignal params) = .apply) :
      HistoryStep ref (.notify (.historyUpdated params)) h
        { h with turns := mergeHistory h.turns (wireFragment params.turns params.items route) }
  | fail (diagnostic : String) (generation : Nat) (h : HistoryState)
      (hfresh : supersededRead h generation = false) :
      HistoryStep ref (.applyHistoryReadFailure diagnostic generation) h
        { h with invalidatedAtGeneration := none, awaited := none, failed := some diagnostic }
  | read (resp : ThreadReadResponse) (frontier : String) (h : HistoryState)
      (disposition : ReadDisposition) (route : Option String)
      (hdisp : readDisposition h resp.generation resp.identity = disposition)
      (happly : disposition ≠ .discard) :
      HistoryStep ref (.applyReadResponse resp frontier) h
        (deferredHistory route resp.identity.incarnation (historyAfterRead h disposition resp route)
          h.deferredPages)

theorem applyReadResponse_history (frame : Nat) (model : ThreadModel) (resp : ThreadReadResponse)
    (now : Nat) (frontier : String) :
    HistoryStep model.ref (.applyReadResponse resp frontier) (historyOf model)
      (historyOf (applyReadResponse frame model resp now frontier)) := by
  unfold applyReadResponse
  dsimp only
  split
  · exact .same _ _
  · next hdisp =>
    rw [historyOf_some (mergeDeferredPages_history _ _ (withDisplay_history _ _ _))]
    exact .read resp frontier _ _ _ rfl hdisp

/-- The history a read that is not discarded leaves. -/
theorem applyReadResponse_applied (frame : Nat) {h : HistoryState} (hof : historyOf model = h)
    {resp : ThreadReadResponse} (hdisp : readDisposition h resp.generation resp.identity ≠ .discard)
    (frontier : String) (now : Nat) :
    ∃ h' route, (applyReadResponse frame model resp now frontier).history = some h' ∧
      h' = deferredHistory route resp.identity.incarnation
        (historyAfterRead h (readDisposition h resp.generation resp.identity) resp route)
        h.deferredPages := by
  subst hof
  unfold applyReadResponse
  rw [if_neg hdisp]
  exact ⟨_, _, mergeDeferredPages_history _ _ (withDisplay_history _ _ _), rfl⟩

theorem applyHistoryUpdated_history (model : ThreadModel) (params : HistoryUpdatedParams)
    (now : Nat) (htarget : params.ref = model.ref) :
    HistoryStep model.ref (.notify (.historyUpdated params)) (historyOf model)
      (historyOf (applyHistoryUpdated model params now)) := by
  unfold applyHistoryUpdated
  dsimp only
  split
  · exact .same _ _
  · split
    · exact .invalidate _ _ _
    · exact .same _ _
    · next hsignal =>
      split
      · exact .same _ _
      · next hlive =>
        split
        · exact .update params _ _ htarget (by simpa using hlive) hsignal
        · exact .same _ _

theorem applyResync_history (model : ThreadModel) (params : ThreadResyncParams) (now : Nat)
    (op : ClientOp) :
    HistoryStep model.ref op (historyOf model) (historyOf (applyResync model params now)) := by
  unfold applyResync
  cases hh : model.history with
  | none => exact .same _ _
  | some held =>
    rw [historyOf_some hh]
    dsimp only
    split
    · exact .same _ _
    · split
      · exact .invalidate _ _ _
      · exact .same _ _

theorem liveHistory_eq_some {history : HistoryState} (h : liveHistory model = some history) :
    model.history = some history ∧ history.invalidatedAtGeneration = none := by
  unfold liveHistory at h
  rw [Option.filter_eq_some_iff] at h
  exact ⟨h.1, by simpa [HistoryState.live] using h.2⟩

theorem applyOverlayChange_history (model : ThreadModel) (now : Nat)
    (change : List OverlayCell → Option (List OverlayCell)) :
    (applyOverlayChange model now change).history = model.history := by
  unfold applyOverlayChange
  split
  · next history _ hl _ => exact (liveHistory_eq_some hl).1.symm
  · rfl

theorem applyOverlayDelta_history (frame : Nat) (model : ThreadModel) (params : OverlayDeltaParams)
    (now : Nat) : (applyOverlayDelta frame model params now).history = model.history := by
  unfold applyOverlayDelta
  dsimp only
  split
  · next held history _ hl =>
    split
    · rfl
    · exact (liveHistory_eq_some hl).1.symm
  · rfl

theorem historyStep_of_eq {ref : String} {op : ClientOp} {model' : ThreadModel}
    (h : model'.history = model.history) :
    HistoryStep ref op (historyOf model) (historyOf model') := by
  have heq : historyOf model' = historyOf model := by
    unfold historyOf
    rw [h]
  rw [heq]
  exact .same _ _

theorem applyNotification_history (frame : Nat) (model : ThreadModel) (n : AnyNotification)
    (now : Nat) :
    HistoryStep model.ref (.notify n) (historyOf model)
      (historyOf (applyNotification frame model n now)) := by
  have hretry : historyOf (applyNotification frame model n now) =
      historyOf (applyNotificationToThread frame model n now) := by
    unfold applyNotification
    split <;> rfl
  rw [hretry]
  unfold applyNotificationToThread
  split
  · next htarget =>
    have href : n.ref = model.ref := by simpa [notificationTargetsThread] using htarget
    cases n with
    | historyUpdated params => exact applyHistoryUpdated_history model params now href
    | threadResync params => exact applyResync_history model params now _
    | overlayUpserted ref item => exact historyStep_of_eq (applyOverlayChange_history _ _ _)
    | overlayDelta params => exact historyStep_of_eq (applyOverlayDelta_history _ _ _ _)
    | overlayReset ref streamId => exact historyStep_of_eq (applyOverlayChange_history _ _ _)
    | overlayEnd ref roundId => exact historyStep_of_eq (applyOverlayChange_history _ _ _)
    | threadStatusChanged params => exact historyStep_of_eq rfl
  · exact .same _ _

theorem mergeOlderItemPage_history (U : UnversionedMerge) (model : ThreadModel)
    (resp : ThreadTurnsListResponse) :
    HistoryStep model.ref (.mergeOlderItemPage resp) (historyOf model)
      (historyOf (mergeOlderItemPage U model resp)) := by
  unfold mergeOlderItemPage
  split
  · next history snap hh hs =>
    rw [historyOf_some hh, historyOf_some (mergeVersionedPage_history hh resp true)]
    exact .page resp history _
  · exact historyStep_of_eq rfl

/-- Every operation is one of the listed steps on the history. -/
theorem step_history (U : UnversionedMerge) (c : Client) (op : ClientOp × Nat) :
    HistoryStep c.model.ref op.1 (historyOf c.model) (historyOf (c.step U op).model) := by
  obtain ⟨op, now⟩ := op
  unfold Client.step
  cases op with
  | issueLatestWindowRead => exact .issue _
  | applyReadResponse resp frontier => exact applyReadResponse_history _ _ _ _ _
  | notify n => exact applyNotification_history _ _ _ _
  | mergeOlderItemPage resp => exact mergeOlderItemPage_history U _ _
  | invalidateHistory => exact .invalidate _ _ _
  | applyHistoryReadFailure diagnostic generation =>
    dsimp only [applyOp, applyHistoryReadFailure]
    split
    · exact .same _ _
    · next hs => exact .fail diagnostic generation _ (by simpa using hs)

/-! ## The thread's own name -/

theorem mergeDeferredPages_fields (incarnation : Option String) (model : ThreadModel)
    (pages : List ThreadTurnsListResponse) :
    (mergeDeferredPages incarnation model pages).toThreadFields = model.toThreadFields := by
  unfold mergeDeferredPages
  refine List.foldlRecOn (motive := fun next : ThreadModel =>
    next.toThreadFields = model.toThreadFields) _ _ rfl fun next hnext page _ => ?_
  split
  · exact (mergeVersionedPage_fields _ _ _ _).trans hnext
  · exact hnext

theorem applyNotification_ref (frame : Nat) (model : ThreadModel) (n : AnyNotification)
    (now : Nat) : (applyNotification frame model n now).ref = model.ref := by
  have hretry : (applyNotification frame model n now).ref =
      (applyNotificationToThread frame model n now).ref := by
    unfold applyNotification
    split <;> rfl
  rw [hretry]
  unfold applyNotificationToThread
  split
  · cases n with
    | historyUpdated params =>
      dsimp only [applyHistoryUpdated]
      split
      · rfl
      · split
        · rfl
        · rfl
        · split
          · rfl
          · split <;> rfl
    | threadResync params =>
      dsimp only [applyResync]
      split
      · rfl
      · split
        · rfl
        · split <;> rfl
    | overlayUpserted ref item =>
      simp only [applyOverlayChange]
      split <;> rfl
    | overlayDelta params =>
      simp only [applyOverlayDelta]
      split
      · split <;> rfl
      · rfl
    | overlayReset ref streamId =>
      simp only [applyOverlayChange]
      split <;> rfl
    | overlayEnd ref roundId =>
      simp only [applyOverlayChange]
      split <;> rfl
    | threadStatusChanged params => rfl
  · rfl

/-- No operation renames the thread. -/
theorem step_ref (U : UnversionedMerge) (c : Client) (op : ClientOp × Nat) :
    (c.step U op).model.ref = c.model.ref := by
  obtain ⟨op, now⟩ := op
  unfold Client.step
  cases op with
  | issueLatestWindowRead => rfl
  | applyReadResponse resp frontier =>
    dsimp only [applyOp, applyReadResponse]
    split
    · rfl
    · rw [mergeDeferredPages_fields]
      rfl
  | notify n => exact applyNotification_ref _ _ _ _
  | mergeOlderItemPage resp =>
    dsimp only [applyOp, mergeOlderItemPage]
    split
    · rw [mergeVersionedPage_fields]
    · rfl
  | invalidateHistory => rfl
  | applyHistoryReadFailure diagnostic generation =>
    dsimp only [applyOp, applyHistoryReadFailure]
    split <;> rfl

/-- An invariant of the history that every listed step keeps holds after every run. -/
theorem run_history_induction {P : List (ClientOp × Nat) → HistoryState → Prop}
    (U : UnversionedMerge) (c : Client) (hstart : P [] (historyOf c.model))
    (hstep : ∀ ops op h h', P ops h → HistoryStep c.model.ref op.1 h h' → P (ops ++ [op]) h')
    (ops : List (ClientOp × Nat)) : P ops (historyOf (c.run U ops).model) := by
  have hall : (c.run U ops).model.ref = c.model.ref ∧ P ops (historyOf (c.run U ops).model) := by
    induction ops using List.reverseRecOn with
    | nil => exact ⟨rfl, hstart⟩
    | append_singleton ops op ih =>
      rw [Client.run_append]
      have hs := step_history U (c.run U ops) op
      rw [ih.1] at hs
      exact ⟨(step_ref U _ op).trans ih.1, hstep ops op _ _ ih.2 hs⟩
  exact hall.2

end Evener.Transcript
