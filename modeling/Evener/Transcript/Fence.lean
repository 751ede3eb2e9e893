/-
  The invalidation fence.

  A history marked invalid at generation `g` keeps its turns until a response to a read issued
  after `g` replaces them, or a failure of such a read ends the invalid state. `GenInv` bounds the
  applied generation and the threshold by the newest issued one.
-/
import Evener.Transcript.NoMixing

namespace Evener.Transcript

open Evener.Lib List

/-! ## Generations -/

structure GenInv (h : HistoryState) : Prop where
  applied : h.appliedGeneration ≤ h.issuedGeneration
  threshold : ∀ g, h.invalidatedAtGeneration = some g → g ≤ h.issuedGeneration

variable {h : HistoryState} {g : Nat}

theorem GenInv.invalidated (hinv : GenInv h) (signal : HistorySignal) :
    GenInv (invalidated h signal) := by
  refine ⟨hinv.applied, fun g hg => ?_⟩
  rw [invalidated_live] at hg
  obtain rfl := Option.some.inj hg
  exact Nat.le_refl _

theorem GenInv.page (hinv : GenInv h) (route : Option String) (page : ThreadTurnsListResponse) :
    GenInv (pageHistory route h page) := by
  rcases pageHistory_cases route h page with heq | ⟨-, heq⟩ | ⟨pages, -, heq⟩ | ⟨-, heq⟩
  · rw [heq]
    exact hinv
  · rw [heq]
    exact ⟨hinv.applied, hinv.threshold⟩
  · rw [heq]
    have hinv' := hinv.invalidated page.identity.signal
    exact ⟨hinv'.applied, hinv'.threshold⟩
  · rw [heq]
    exact ⟨hinv.applied, hinv.threshold⟩

theorem GenInv.deferred (hinv : GenInv h) (route incarnation : Option String)
    (pages : List ThreadTurnsListResponse) :
    GenInv (deferredHistory route incarnation h pages) := by
  unfold deferredHistory
  refine List.foldlRecOn (motive := GenInv) _ _ hinv fun history hhist page _ => ?_
  split
  · exact hhist.page route page
  · exact hhist

theorem genInv_historyAfterRead (h : HistoryState) (disposition : ReadDisposition)
    (resp : ThreadReadResponse) (route : Option String) :
    GenInv (historyAfterRead h disposition resp route) := by
  refine ⟨Nat.le_max_right _ _, fun g hg => ?_⟩
  cases hg

theorem deferredHistory_sameRead (route incarnation : Option String) (h : HistoryState)
    (pages : List ThreadTurnsListResponse) :
    SameRead h (deferredHistory route incarnation h pages) := by
  unfold deferredHistory
  refine List.foldlRecOn (motive := SameRead h) _ _ (sameRead_refl h) fun history hhist page _ => ?_
  split
  · exact hhist.trans (pageHistory_sameRead route history page)
  · exact hhist

/-- No step lowers the newest issued generation. -/
theorem HistoryStep.genInv {ref : String} {op : ClientOp} {h' : HistoryState}
    (hstep : HistoryStep ref op h h') (hinv : GenInv h) :
    GenInv h' ∧ h.issuedGeneration ≤ h'.issuedGeneration := by
  cases hstep with
  | same => exact ⟨hinv, Nat.le_refl _⟩
  | issue =>
    refine ⟨⟨Nat.le_succ_of_le hinv.applied, fun g hg => ?_⟩, Nat.le_succ _⟩
    exact Nat.le_succ_of_le (hinv.threshold g hg)
  | invalidate _ _ signal => exact ⟨hinv.invalidated signal, Nat.le_refl _⟩
  | page resp _ route =>
    refine ⟨hinv.page route resp, ?_⟩
    rw [(pageHistory_sameRead route h resp).issued]
  | update params _ route htarget hlive hsignal =>
    exact ⟨⟨hinv.applied, hinv.threshold⟩, Nat.le_refl _⟩
  | fail diagnostic generation _ hfresh =>
    refine ⟨⟨hinv.applied, fun g hg => ?_⟩, Nat.le_refl _⟩
    cases hg
  | read resp frontier _ disposition route hdisp happly =>
    refine ⟨(genInv_historyAfterRead h disposition resp route).deferred route _ _, ?_⟩
    rw [(deferredHistory_sameRead route _ _ _).issued]
    exact Nat.le_max_left _ _

theorem StartsFrom.genInv {U : UnversionedMerge} {model : ThreadModel} {log : List Message}
    (h : StartsFrom U model log) : GenInv (historyOf model) := by
  have hempty : GenInv emptyHistory := ⟨Nat.le_refl _, fun g hg => by cases hg⟩
  rcases h with ⟨hnone, -⟩ | ⟨frame, resp, ref, now, frontier, rfl, -⟩
  · unfold historyOf
    rw [hnone]
    exact hempty
  · unfold hydrateThread
    dsimp only
    split
    · exact hempty
    · exact ⟨Nat.le_refl _, fun g hg => by cases hg⟩

theorem run_genInv (U : UnversionedMerge) {c : Client} (hinv : GenInv (historyOf c.model))
    (ops : List (ClientOp × Nat)) :
    GenInv (historyOf (c.run U ops).model) ∧
      (historyOf c.model).issuedGeneration ≤ (historyOf (c.run U ops).model).issuedGeneration := by
  refine run_history_induction (P := fun _ h =>
    GenInv h ∧ (historyOf c.model).issuedGeneration ≤ h.issuedGeneration) U c
    ⟨hinv, Nat.le_refl _⟩ ?_ ops
  rintro ops op h h' ⟨hh, hle⟩ hstep
  have hnext := hstep.genInv hh
  exact ⟨hnext.1, Nat.le_trans hle hnext.2⟩

/-! ## An invalid history -/

/-- Still invalid, at a threshold no lower than `g`, and still holding `turns`. -/
def Frozen (g : Nat) (turns : List TurnModel) (h : HistoryState) : Prop :=
  h.turns = turns ∧ ∃ g', h.invalidatedAtGeneration = some g' ∧ g ≤ g'

/-- A response to the newest issued read, one issued after `g`, replaces the turns by its own and
    the deferred pages of its identity. -/
def ReadReplaces (g : Nat) (op : ClientOp) (h h' : HistoryState) : Prop :=
  ∃ resp frontier route, ∃ admitted : List ThreadTurnsListResponse,
    op = .applyReadResponse resp frontier ∧
    g < resp.generation ∧ h.issuedGeneration ≤ resp.generation ∧
    h'.issuedGeneration = resp.generation ∧ h'.appliedGeneration = resp.generation ∧
    h'.toReadIdentity = resp.identity ∧
    admitted.Sublist h.deferredPages ∧ (∀ p ∈ admitted, PageMatches resp.identity p) ∧
    h'.turns = admitted.foldl (pageTurns route)
      (mergeHistory [] (splitWireTurns (resp.thread.turns.getD []) route))

/-- A failure that is not superseded ends the invalid state and leaves the turns. -/
def FailureEnds (g : Nat) (op : ClientOp) (h h' : HistoryState) : Prop :=
  ∃ diagnostic generation, op = .applyHistoryReadFailure diagnostic generation ∧
    g < generation ∧ h.issuedGeneration ≤ generation ∧
    h'.invalidatedAtGeneration = none ∧ h'.turns = h.turns

theorem identityDisposition_of_invalid (hg : h.invalidatedAtGeneration = some g)
    {identity : ReadIdentity} (hne : identityDisposition h identity ≠ .discard) :
    identityDisposition h identity = .replace := by
  unfold identityDisposition at hne ⊢
  rw [if_pos (by rw [hg]; rfl)] at hne ⊢
  split at hne
  · exact absurd rfl hne
  · next hs => rw [if_neg hs]

/-- What one operation can do to an invalid history. -/
theorem HistoryStep.of_invalid {ref : String} {op : ClientOp} {h' : HistoryState}
    (hstep : HistoryStep ref op h h') (hinv : GenInv h)
    (hpages : ∀ p ∈ h.deferredPages, p.snapshot.isSome) {turns : List TurnModel}
    (hf : Frozen g turns h) :
    Frozen g turns h' ∨ ReadReplaces g op h h' ∨ FailureEnds g op h h' := by
  obtain ⟨hturns, g', hg', hle⟩ := hf
  cases hstep with
  | same => exact Or.inl ⟨hturns, g', hg', hle⟩
  | issue => exact Or.inl ⟨hturns, g', hg', hle⟩
  | invalidate _ _ signal =>
    exact Or.inl ⟨hturns, _, invalidated_live _ _, Nat.le_trans hle (hinv.threshold g' hg')⟩
  | page resp _ route =>
    left
    rcases pageHistory_cases route h resp with heq | ⟨-, heq⟩ | ⟨pages, -, heq⟩ | ⟨hd, -⟩
    · rw [heq]
      exact ⟨hturns, g', hg', hle⟩
    · rw [heq]
      exact ⟨hturns, g', hg', hle⟩
    · rw [heq]
      exact ⟨hturns, _, rfl, Nat.le_trans hle (hinv.threshold g' hg')⟩
    · rw [(pageDisposition_merge_live hd).1] at hg'
      cases hg'
  | update params _ route htarget hlive hsignal =>
    rw [hlive] at hg'
    cases hg'
  | fail diagnostic generation _ hfresh =>
    obtain ⟨hissued, hthreshold⟩ := supersededRead_false hfresh
    have hlt := hthreshold g' hg'
    exact Or.inr (Or.inr ⟨diagnostic, generation, rfl, by omega, hissued, rfl, rfl⟩)
  | read resp frontier _ disposition route hdisp happly =>
    right
    left
    rw [← hdisp] at happly
    obtain ⟨hfresh, hid⟩ := readDisposition_spec happly
    obtain ⟨hissued, hthreshold⟩ := supersededRead_false hfresh
    have hlt := hthreshold g' hg'
    have hreplace : disposition = .replace := by
      rw [← hdisp, hid]
      exact identityDisposition_of_invalid hg' (by rw [← hid]; exact happly)
    subst hreplace
    have hcalm : (historyAfterRead h .replace resp route).Calm := fun _ => rfl
    obtain ⟨admitted, hsub, hmatch, hnew, hsame, -⟩ := deferredHistory_spec route
      resp.identity.incarnation h.deferredPages hpages hcalm
    refine ⟨resp, frontier, route, admitted, rfl, by omega, hissued, ?_, hsame.applied,
      hsame.identity, hsub, hmatch, hnew⟩
    rw [hsame.issued]
    exact Nat.max_eq_right hissued

/-- The turns of an invalid history stay through a run, up to a read that replaces them or a
    failure that ends the invalid state. -/
theorem fence_run (U : UnversionedMerge) {c : Client} {log : List Message}
    (hgen : GenInv (historyOf c.model)) (hinv : HistoryInv log (historyOf c.model))
    {turns : List TurnModel} (hf : Frozen g turns (historyOf c.model)) (ops : List (ClientOp × Nat))
    (hops : ∀ op ∈ ops, op.1.NamesSnapshot) :
    (∀ pre, pre <+: ops → Frozen g turns (historyOf (c.run U pre).model)) ∨
    ∃ pre op post, ops = pre ++ op :: post ∧
      (∀ pre', pre' <+: pre → Frozen g turns (historyOf (c.run U pre').model)) ∧
      (ReadReplaces g op.1 (historyOf (c.run U pre).model)
          (historyOf (c.run U (pre ++ [op])).model) ∨
        FailureEnds g op.1 (historyOf (c.run U pre).model)
          (historyOf (c.run U (pre ++ [op])).model)) := by
  induction ops generalizing c log with
  | nil =>
    left
    intro pre hpre
    rw [prefix_nil.mp hpre]
    exact hf
  | cons op ops ih =>
    have hstep := step_history U c op
    have hsnap := hops op mem_cons_self
    rcases hstep.of_invalid hgen (fun p hp => (hinv.pages p hp).1) hf with hf' | hexit
    · have hcons : ∀ pre : List (ClientOp × Nat),
          (∀ pre', pre' <+: pre → Frozen g turns (historyOf ((c.step U op).run U pre').model)) →
          ∀ pre', pre' <+: op :: pre → Frozen g turns (historyOf (c.run U pre').model) := by
        intro pre hpre pre' hpre'
        rcases prefix_cons_iff.mp hpre' with rfl | ⟨rest, rfl, hrest⟩
        · exact hf
        · exact hpre rest hrest
      rcases ih (hstep.genInv hgen).1 (hstep.inv hsnap hinv) hf'
        (fun o ho => hops o (mem_cons_of_mem _ ho)) with hall | ⟨pre, o, post, rfl, hpre, hexit⟩
      · exact Or.inl (hcons ops hall)
      · exact Or.inr ⟨op :: pre, o, post, rfl, hcons pre hpre, hexit⟩
    · refine Or.inr ⟨[], op, ops, rfl, fun pre' hpre' => ?_, hexit⟩
      rw [prefix_nil.mp hpre']
      exact hf

/-- Along every run of a client: the newest issued generation never falls and bounds the applied
    one; an invalid history keeps its turns until a response to the newest read, issued after the
    invalidation, replaces them, or a failure of such a read ends the invalid state; and the
    identity a read installs is not older than the one held, or awaited while invalid. -/
theorem invalidation_fence (U : UnversionedMerge) (c : Client) (log : List Message)
    (hstart : StartsFrom U c.model log) (ops : List (ClientOp × Nat))
    (hops : ∀ op ∈ ops, op.1.NamesSnapshot) :
    (historyOf (c.run U ops).model).appliedGeneration ≤
      (historyOf (c.run U ops).model).issuedGeneration ∧
    (∀ pre post, ops = pre ++ post → (historyOf (c.run U pre).model).issuedGeneration ≤
      (historyOf (c.run U ops).model).issuedGeneration) ∧
    (∀ pre post g, ops = pre ++ post →
      (historyOf (c.run U pre).model).invalidatedAtGeneration = some g →
      (∀ mid, mid <+: post → Frozen g (historyOf (c.run U pre).model).turns
        (historyOf (c.run U (pre ++ mid)).model)) ∨
      ∃ mid op rest, post = mid ++ op :: rest ∧
        (∀ mid', mid' <+: mid → Frozen g (historyOf (c.run U pre).model).turns
          (historyOf (c.run U (pre ++ mid')).model)) ∧
        (ReadReplaces g op.1 (historyOf (c.run U (pre ++ mid)).model)
            (historyOf (c.run U (pre ++ mid ++ [op])).model) ∨
          FailureEnds g op.1 (historyOf (c.run U (pre ++ mid)).model)
            (historyOf (c.run U (pre ++ mid ++ [op])).model))) ∧
    (∀ resp frontier now, readDisposition (historyOf (c.run U ops).model) resp.generation
        resp.identity ≠ .discard →
      (historyOf ((c.run U ops).step U (.applyReadResponse resp frontier, now)).model).toReadIdentity
        = resp.identity ∧
      NotOlder (historyOf (c.run U ops).model).awaitedIdentity resp.identity ∧
      ((historyOf (c.run U ops).model).invalidatedAtGeneration = none →
        (historyOf (c.run U ops).model).awaitedIdentity =
          ⟨(historyOf (c.run U ops).model).bootGeneration,
            (historyOf (c.run U ops).model).epoch⟩)) := by
  have hgen := run_genInv U hstart.genInv
  have hinv := run_historyInv U hstart
  refine ⟨(hgen ops).1.applied, ?_, ?_, ?_⟩
  · rintro pre post rfl
    rw [Client.run_append]
    exact (run_genInv U (hgen pre).1 post).2
  · rintro pre post g rfl hg
    have hpre := hinv pre fun op hop => hops op (mem_append_left _ hop)
    have hfrozen : Frozen g (historyOf (c.run U pre).model).turns (historyOf (c.run U pre).model) :=
      ⟨rfl, g, hg, Nat.le_refl _⟩
    have hfence := fence_run U (hgen pre).1 hpre hfrozen post
      fun op hop => hops op (mem_append_right _ hop)
    simpa only [← Client.run_append, append_assoc] using hfence
  · intro resp frontier now hdisp
    have hcalm := (hinv ops hops).calm
    obtain ⟨h', route, hh', heq⟩ :=
      applyReadResponse_applied (c.run U ops).frame rfl hdisp frontier now
    refine ⟨?_, ?_, fun hlive => awaitedIdentity_of_none (hcalm hlive)⟩
    · have hof : historyOf ((c.run U ops).step U (.applyReadResponse resp frontier, now)).model = h' :=
        historyOf_some hh'
      rw [hof, heq]
      exact (deferredHistory_sameRead route _ _ _).identity
    · have hid := (readDisposition_spec hdisp).2
      exact identityDisposition_notOlder hcalm (by rw [← hid]; exact hdisp)

/-- The announced incarnation freezes the history until the read of generation 1 replaces it. -/
theorem invalidation_fence_new_incarnation :
    (historyOf (hydratedClient.run plainMerge (newIncarnationOps.take 1)).model).invalidatedAtGeneration
      = some 0 ∧
    ((∀ mid, mid <+: newIncarnationOps.drop 1 →
      Frozen 0 (historyOf (hydratedClient.run plainMerge (newIncarnationOps.take 1)).model).turns
        (historyOf (hydratedClient.run plainMerge (newIncarnationOps.take 1 ++ mid)).model)) ∨
      ∃ mid op rest, newIncarnationOps.drop 1 = mid ++ op :: rest ∧
        (ReadReplaces 0 op.1
            (historyOf (hydratedClient.run plainMerge (newIncarnationOps.take 1 ++ mid)).model)
            (historyOf (hydratedClient.run plainMerge
              (newIncarnationOps.take 1 ++ mid ++ [op])).model) ∨
          FailureEnds 0 op.1
            (historyOf (hydratedClient.run plainMerge (newIncarnationOps.take 1 ++ mid)).model)
            (historyOf (hydratedClient.run plainMerge
              (newIncarnationOps.take 1 ++ mid ++ [op])).model))) := by
  have hg : (historyOf (hydratedClient.run plainMerge
      (newIncarnationOps.take 1)).model).invalidatedAtGeneration = some 0 := by decide
  have hmain := invalidation_fence plainMerge hydratedClient
    [readMessage (messageRead 0 "i1" "old" 3)] (Or.inr ⟨0, _, "r", 0, _, rfl, rfl⟩)
    newIncarnationOps (by simp [newIncarnationOps, ClientOp.NamesSnapshot])
  refine ⟨hg, ?_⟩
  rcases hmain.2.2.1 (newIncarnationOps.take 1) (newIncarnationOps.drop 1) 0
    (take_append_drop 1 _).symm hg with hall | ⟨mid, op, rest, heq, -, hexit⟩
  · exact Or.inl hall
  · exact Or.inr ⟨mid, op, rest, heq, hexit⟩

end Evener.Transcript
