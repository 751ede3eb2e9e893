/-
  What a retarget forgets of a Stop.

  It rebases a row's destination baseline, so a Stop that crossed the row there is no longer a
  difference of epochs. The baseline of the ref the row is displayed on does not move (`Barred`).
-/
import Evener.Outbox.Attempts

namespace Evener.Outbox

open Evener.Lib JsValue Tx Option
open List hiding lookup

/-! ## The crossed Stop -/

/-- The answer of `#fenceCrossedSinceEnqueue` on the row, read from the stores. -/
def crossed (s : Stores) (r : MutationOutboxRecord) : Bool :=
  fenceCrossed r (epochOf s.sequences r.targetRef) (displayedEpochOf s.sequences r)

/-- The half of the fence that compares the ref the row is displayed on. -/
def displayedCrossed (s : Stores) (r : MutationOutboxRecord) : Bool :=
  r.displayedRef.any fun ref => r.displayedStopEpochAtEnqueue.getD 0 < epochOf s.sequences ref

variable {r r' : MutationOutboxRecord} {ids : List String} {key : String} {w : World}

theorem crossed_of_displayed {s : Stores} (h : displayedCrossed s r = true) (stopEpoch : Nat) :
    fenceCrossed r stopEpoch (displayedEpochOf s.sequences r) = true := by
  unfold displayedCrossed at h
  unfold fenceCrossed displayedEpochOf
  cases href : r.displayedRef with
  | none => simp [href] at h
  | some ref =>
    rw [href, any_some, decide_eq_true_eq] at h
    simp [h]

/-- With the destination's baseline at its epoch, only the displayed ref is left to compare. -/
theorem not_crossed_of_displayed {s : Stores}
    (hbase : r.stopEpochAtEnqueue = some (epochOf s.sequences r.targetRef))
    (h : displayedCrossed s r = false) : crossed s r = false := by
  unfold displayedCrossed at h
  unfold crossed fenceCrossed displayedEpochOf
  rw [hbase]
  cases href : r.displayedRef with
  | none => simp
  | some ref =>
    rw [href, any_some, decide_eq_false_iff_not] at h
    simp only [getD_some, lt_self_iff_false, decide_false, isSome_some,
      Bool.true_and, Bool.false_or, map_some, decide_eq_false_iff_not]
    exact h

/-! ## Automatic operations -/

/-- The calls nobody pressed a button for. -/
def OutboxOp.automatic : OutboxOp → Bool
  | .markAttempted _ | .unmarkAttempted _ | .markUnknown _ _ | .restoreProvenAbsent _ _ _
  | .retargetOutbox _ _ _ => true
  | _ => false

section Sent

variable (supply : Nat → String)

/-- The ids of a row's work after an event: a reconciliation adds the rows it re-queues for
    them. -/
def Event.lineage (ids : List String) (event : Event) : List String :=
  match (event.result supply).1 with
  | .ok (.rows requeued) =>
    ids ++ (requeued.filter fun pair => ids.contains pair.1).map fun pair => pair.2.clientMutationId
  | _ => ids

/-- Somewhere in the run a mark lets out one of the ids, or a row minted from one. -/
def SentAgain (ids : List String) (w : World) : List Step → Prop
  | [] => False
  | step :: steps =>
    (∃ id ∈ ids, Event.marks supply id ⟨w, step⟩ = true) ∨
      SentAgain (Event.lineage supply ids ⟨w, step⟩) (Event.after supply ⟨w, step⟩) steps

theorem mem_lineage {id : String} (h : id ∈ ids) (event : Event) :
    id ∈ event.lineage supply ids := by
  unfold Event.lineage
  split
  · exact mem_append_left _ h
  · exact h

/-- After the retarget no run of automatic calls sends the row's work again. -/
def RemembersStop (w : World) (r : MutationOutboxRecord) (toRef : String)
    (identity : ResumedIdentity) : Prop :=
  ∀ steps : List Step, (∀ step ∈ steps, step.op.automatic = true) →
    ¬ SentAgain supply [r.clientMutationId]
      (Event.after supply ⟨w, ⟨.retargetOutbox r.targetRef toRef identity, none⟩⟩) steps

end Sent

/-! ## Rows of a run -/

section Reachable

variable {supply : Nat → String} {s s' : Db} {op : OutboxOp} {reply : Reply}

/-- The key of every row was handed out, and a row no mark compares has no Stop to find on the
    ref it is displayed on. -/
structure Unseen (supply : Nat → String) (s : Db) : Prop where
  keys : ∀ r ∈ s.outbox, Drawn supply s r.clientMutationId
  clear : ∀ r ∈ s.outbox, Unevidenced r → displayedCrossed s.toStores r = false

theorem displayedCrossed_iff {s : Stores} :
    displayedCrossed s r = true ↔ ∃ ref, r.displayedRef = some ref ∧
      r.displayedStopEpochAtEnqueue.getD 0 < epochOf s.sequences ref := by
  unfold displayedCrossed
  simp [Option.any_eq_true]

theorem displayedCrossed_congr {s s' : Stores} (href : r'.displayedRef = r.displayedRef)
    (hepoch : r'.displayedStopEpochAtEnqueue = r.displayedStopEpochAtEnqueue)
    (hepochs : ∀ ref, r.displayedRef = some ref → epochOf s'.sequences ref = epochOf s.sequences ref) :
    displayedCrossed s' r' = displayedCrossed s r := by
  unfold displayedCrossed
  rw [href, hepoch]
  cases hr : r.displayedRef with
  | none => rfl
  | some ref => rw [any_some, any_some, hepochs ref hr]

/-- Epochs only grow, so a crossed ref stays crossed. -/
theorem displayedCrossed_mono {s s' : Stores} (href : r'.displayedRef = r.displayedRef)
    (hepoch : r'.displayedStopEpochAtEnqueue = r.displayedStopEpochAtEnqueue)
    (hepochs : ∀ ref, epochOf s.sequences ref ≤ epochOf s'.sequences ref)
    (h : displayedCrossed s r = true) : displayedCrossed s' r' = true := by
  obtain ⟨ref, hr, hlt⟩ := displayedCrossed_iff.mp h
  refine displayedCrossed_iff.mpr ⟨ref, href.trans hr, ?_⟩
  rw [hepoch]
  exact lt_of_lt_of_le hlt (hepochs ref)

theorem Unseen.fate (h : Unseen supply s) {sweeps : List Sweep} (htidy : Tidy s)
    (heffect : Effect supply sweeps s op reply s') (hr' : r' ∈ s'.outbox) (hun : Unevidenced r') :
    displayedCrossed s'.toStores r' = false := by
  have hquiet : op.stopRef = none → ∀ ref, epochOf s'.sequences ref = epochOf s.sequences ref := by
    intro hstop ref
    rw [heffect.epochs ref, hstop]
    rfl
  cases heffect.fate htidy hr' with
  | @stepped r _ hr hstep hcancel _ =>
    have hunr : Unevidenced r :=
      ⟨hstep.waiting hun.1, hstep.attempted ▸ hun.2.1, hstep.unresolved ▸ hun.2.2⟩
    rw [displayedCrossed_congr hstep.displayedRef hstep.displayedEpoch fun ref href => ?_]
    · exact h.clear r hr hunr
    · -- a Stop on the displayed ref would have canceled the row
      rw [heffect.epochs ref, if_neg]
      · rfl
      · intro hstop
        have hmissed := hcancel ref hstop (by simp [crossedBy, hstep.displayedRef, href])
        rw [unevidenced_cancelable hun] at hmissed
        exact absurd hmissed (by decide)
  | marked hr _ _ _ _ => exact absurd hun.2.1 (by simp [markedRow])
  | fenced hr _ _ _ _ =>
    refine absurd hun.2.2 ?_
    unfold fencedRow
    split <;>
    · intro hstate
      cases hstate
  | unmarked crossed hr _ _ => exact absurd hun.2.2 (unresolved_unmarkedRow _ _)
  | @moved r fromRef toRef identity mutations n hr _ hop _ _ =>
    have hsame : displayedCrossed s'.toStores (movedRow toRef identity
        (epochOf s.sequences toRef) n r) = displayedCrossed s.toStores r :=
      displayedCrossed_congr rfl rfl fun ref _ => hquiet (by rw [hop]; rfl) ref
    rw [hsame]
    exact h.clear r hr hun
  | born hborn _ =>
    refine Bool.eq_false_iff.mpr fun hcrossed => ?_
    obtain ⟨ref, href, hlt⟩ := displayedCrossed_iff.mp hcrossed
    rw [hborn.displayedEpoch ref href] at hlt
    exact absurd hlt (lt_irrefl _)

theorem Unseen.step (event : Event) (htidy : Tidy event.before.db)
    (h : Unseen supply event.before.db) : Unseen supply (event.after supply).db := by
  rcases event.outcome supply htidy with ⟨reply, -, heffect⟩ | ⟨e, n, -, hle, -, hafter⟩
  · exact ⟨fun r' hr' => (heffect.fate htidy hr').drawn h.keys heffect.drawn_le,
      fun r' hr' hun => h.fate htidy heffect hr' hun⟩
  · rw [hafter]
    exact ⟨fun r hr => (h.keys r hr).mono hle, h.clear⟩

variable (supply) in
theorem unseen_run (steps : List Step) : Unseen supply (run supply {} steps).db := by
  have hstart : Unseen supply ({} : World).db :=
    ⟨fun _ hr => absurd hr not_mem_nil, fun _ hr => absurd hr not_mem_nil⟩
  have hboth := run_induction supply (P := fun _ w => Tidy w.db ∧ Unseen supply w.db)
    ⟨tidy_empty, hstart⟩ (fun _ w step h =>
      ⟨Tidy.event supply ⟨w, step⟩ h.1, Unseen.step ⟨w, step⟩ h.1 h.2⟩) steps
  exact hboth.2

end Reachable

/-! ## Rows no mark lets out -/

section Barred

variable {supply : Nat → String}

/-- Whatever still waits under the key was crossed on the ref it is displayed on, and a mark
    would compare it. -/
structure Barred (supply : Nat → String) (key : String) (s : Db) : Prop where
  drawn : Drawn supply s key
  rows : ∀ r ∈ s.outbox, r.clientMutationId = key → Waiting r →
    displayedCrossed s.toStores r = true ∧ ¬ Unevidenced r

theorem unresolved_fencedRow (r : MutationOutboxRecord) (n : Nat) (uncertain : Bool) :
    (fencedRow r n uncertain).unresolvedAttempts ≠ none := by
  unfold fencedRow
  split <;> exact nofun

theorem displayed_fencedRow (r : MutationOutboxRecord) (n : Nat) (uncertain : Bool) :
    (fencedRow r n uncertain).displayedRef = r.displayedRef ∧
      (fencedRow r n uncertain).displayedStopEpochAtEnqueue = r.displayedStopEpochAtEnqueue := by
  unfold fencedRow
  split <;> exact ⟨rfl, rfl⟩

/-- A mark that goes through would have compared the displayed ref and found it clear. -/
theorem Barred.not_passed {s : Db} (h : Barred supply key s) (hr : r ∈ s.outbox)
    (hkey : r.clientMutationId = key) (hstate : r.state = .submitting) :
    ¬ (gated r = true → markCrossed s.toStores r = false) := by
  intro hgate
  obtain ⟨hcrossed, hevidenced⟩ := h.rows r hr hkey (Or.inl hstate)
  by_cases hgated : gated r = true
  · have hclear := hgate hgated
    unfold markCrossed at hclear
    have hsame : displayedCrossed s.toStores
        { r with stopEpochAtEnqueue := some (markBaseline s.toStores r) } = true := hcrossed
    rw [show displayedEpochOf s.sequences r = displayedEpochOf s.sequences
        { r with stopEpochAtEnqueue := some (markBaseline s.toStores r) } from rfl,
      crossed_of_displayed hsame] at hclear
    exact absurd hclear (by decide)
  · exact hevidenced (unevidenced_of_not_gated hstate hgated)

theorem Barred.step (hinj : Function.Injective supply) (event : Event)
    (htidy : Tidy event.before.db) (h : Barred supply key event.before.db) :
    Barred supply key (event.after supply).db := by
  rcases event.outcome supply htidy with ⟨reply, hok, heffect⟩ | ⟨e, n, herror, hle, -, hafter⟩
  · refine ⟨h.drawn.mono heffect.drawn_le, fun r' hr' hkey hw => ?_⟩
    have hepochs : ∀ ref, epochOf event.before.db.sequences ref ≤
        epochOf (event.after supply).db.sequences ref := by
      intro ref
      rw [heffect.epochs ref]
      exact Nat.le_add_right _ _
    cases heffect.fate htidy hr' with
    | @stepped r _ hr hstep _ _ =>
      obtain ⟨hcrossed, hevidenced⟩ := h.rows r hr
        ((congrArg MutationRecord.clientMutationId hstep.record).symm.trans hkey)
        (hstep.waiting hw)
      refine ⟨displayedCrossed_mono hstep.displayedRef hstep.displayedEpoch hepochs hcrossed,
        fun hun => hevidenced ⟨hstep.waiting hun.1, ?_, ?_⟩⟩
      · exact hstep.attempted ▸ hun.2.1
      · exact hstep.unresolved ▸ hun.2.2
    | marked hr _ _ hstate hgate => exact absurd hgate (h.not_passed hr hkey hstate)
    | fenced hr _ _ hstate _ =>
      rw [(sameSlot_fencedRow _ _ _).key] at hkey
      obtain ⟨hcrossed, -⟩ := h.rows _ hr hkey (Or.inl hstate)
      obtain ⟨href, hepoch⟩ := displayed_fencedRow _ _ _
      exact ⟨displayedCrossed_mono href hepoch hepochs hcrossed,
        fun hun => unresolved_fencedRow _ _ _ hun.2.2⟩
    | @unmarked r crossed hr _ hwaiting =>
      rw [(sameSlot_unmarkedRow _ _).key] at hkey
      obtain ⟨hcrossed, -⟩ := h.rows r hr hkey hwaiting
      have hsame := sameFence_unmarkedRow crossed r
      exact ⟨displayedCrossed_mono hsame.displayedRef hsame.displayedEpoch hepochs hcrossed,
        fun hun => unresolved_unmarkedRow _ _ hun.2.2⟩
    | @moved r _ _ _ _ n hr _ _ _ _ =>
      obtain ⟨hcrossed, hevidenced⟩ := h.rows r hr hkey hw
      exact ⟨displayedCrossed_mono rfl rfl hepochs hcrossed, hevidenced⟩
    | born hborn _ =>
      subst hkey
      exact absurd h.drawn (hborn.fresh hinj)
  · rw [hafter]
    exact ⟨h.drawn.mono hle, h.rows⟩

theorem Barred.not_marks (event : Event) (htidy : Tidy event.before.db)
    (h : Barred supply key event.before.db) : event.marks supply key = false := by
  refine Bool.eq_false_iff.mpr fun hmark => ?_
  rcases event.outcome supply htidy with ⟨reply, hok, heffect⟩ | ⟨e, n, herror, -⟩
  · obtain ⟨hop, rfl⟩ := (marks_iff hok).mp hmark
    generalize (event.after supply).db = s' at heffect
    rw [hop] at heffect
    cases heffect with
    | idle hidle => exact absurd hidle (by simp [Idle])
    | marked hr hkey hstate hgate => exact h.not_passed hr hkey hstate hgate
  · rw [(marks_of_error herror key).1] at hmark
    exact Bool.false_ne_true hmark

/-- What a reconciliation re-queues for a parked row: the row itself when a Stop crossed it. -/
def RequeuedFrom (sequences : List TargetSequence) (x : MutationOutboxRecord)
    (pair : String × MutationOutboxRecord) : Prop :=
  pair.1 = x.clientMutationId ∧
    (fenceCrossed x (epochOf sequences x.targetRef) (displayedEpochOf sequences x) = true →
      pair.2.clientMutationId = x.clientMutationId)

theorem restoreRow_requeues (tab : Tab) (sequences : List TargetSequence)
    (x : MutationOutboxRecord) (s : Db) :
    Tx.wp (restoreRow supply tab sequences x) s
      (fun result _ => ∀ pair ∈ result.1, RequeuedFrom sequences x pair) (fun _ _ => True) := by
  unfold restoreRow
  dsimp only
  split
  · split
    · rw [wp_bind]
      refine wp_mono (wp_trivial _ _) (fun _ _ _ pair hpair => ?_) fun _ _ _ => trivial
      rw [mem_singleton.mp hpair]
      exact ⟨rfl, fun _ => rfl⟩
    · rw [wp_bind]
      refine wp_mono (wp_trivial _ _) (fun _ _ _ pair hpair => ?_) fun _ _ _ => trivial
      exact absurd hpair not_mem_nil
  · next hclear =>
    -- the mint of a row no Stop crossed
    have hfrom : ∀ fresh : MutationOutboxRecord,
        RequeuedFrom sequences x (x.clientMutationId, fresh) :=
      fun fresh => ⟨rfl, fun hcrossed => absurd hcrossed hclear⟩
    have hrest : ∀ outranked : Bool, ∀ s : Db, Tx.wp (restoreRest supply tab x
        (epochOf sequences x.targetRef) (x.displayedRef.map (epochOf sequences)) outranked) s
        (fun result _ => ∀ pair ∈ result.1, RequeuedFrom sequences x pair) (fun _ _ => True) := by
      intro outranked s
      unfold restoreRest
      rw [wp_bind]
      refine wp_mono (wp_trivial _ _) (fun _ _ _ => ?_) fun _ _ _ => trivial
      split
      · exact fun pair hpair => absurd hpair not_mem_nil
      · rw [wp_bind]
        refine wp_mono (wp_trivial _ _) (fun result _ _ pair hpair => ?_) fun _ _ _ => trivial
        rw [mem_singleton.mp hpair]
        exact hfrom _
    split
    · rw [wp_bind]
      exact wp_mono (wp_trivial _ _) (fun outranked s _ => hrest outranked s)
        fun _ _ _ => trivial
    · exact hrest false s

theorem restoreProvenAbsent_requeues (tab : Tab) (ref : String) (ids : List String) (s : Db) :
    Tx.wp (restoreProvenAbsent supply tab ref ids) s (fun result _ => ∀ pair ∈ result.1,
      ∃ x ∈ s.outbox, x.state = .blockedUnknown ∧ RequeuedFrom s.sequences x pair)
      (fun _ _ => True) := by
  unfold restoreProvenAbsent
  simp only [wp_bind, wp_getAllOutbox, wp_read]
  refine wp_mono (wp_forEach fun x _ s => restoreRow_requeues tab _ x s)
    (fun outcomes _ h => ?_) fun _ _ _ => trivial
  intro pair hpair
  obtain ⟨outcome, houtcome, hpair⟩ := mem_flatMap.mp hpair
  obtain ⟨x, hx, hfrom⟩ := h outcome houtcome
  obtain ⟨hheld, hp⟩ := mem_selection.mp hx
  simp only [Bool.and_eq_true, decide_eq_true_eq] at hp
  exact ⟨x, hheld, hp.1.2, hfrom pair hpair⟩

/-- What the body of an event's call always returns, the event replied when it committed. -/
theorem Event.reply_of_wp {event : Event} {P : Reply → Prop}
    (h : Tx.wp (exec supply event.before.sweeps event.step.op) event.before.db (fun reply _ => P reply)
      (fun _ _ => True)) {reply : Reply} (hok : (event.result supply).1 = .ok reply) : P reply := by
  have hcases := @Tx.runTransaction_cases _ _ _ _ _ _ rollback event.step.fault _ h
  unfold Event.result at hok
  rcases hcases with ⟨reply', s', hrun, hP⟩ | ⟨e, s', hrun, -⟩
  · rw [hrun] at hok
    exact Except.ok.inj hok ▸ hP
  · rw [hrun] at hok
    exact nomatch hok

/-- The work of a barred key stays the key: a reconciliation re-queues at most the row itself. -/
theorem Barred.lineage (event : Event) (htidy : Tidy event.before.db)
    (h : Barred supply key event.before.db) (hids : ∀ id ∈ ids, id = key) :
    ∀ id ∈ event.lineage supply ids, id = key := by
  unfold Event.lineage
  split
  · next requeued hok =>
    intro id hid
    rcases mem_append.mp hid with hid | hid
    · exact hids id hid
    · obtain ⟨pair, hpair, rfl⟩ := mem_map.mp hid
      obtain ⟨hpair, hfirst⟩ := mem_filter.mp hpair
      have hkey : pair.1 = key := hids _ (by simpa using hfirst)
      -- only a reconciliation answers with rows
      have hop : ∃ tab ref authoritative,
          event.step.op = .restoreProvenAbsent tab ref authoritative := by
        rcases event.outcome supply htidy with ⟨reply, hok', heffect⟩ | ⟨e, n, herror, -⟩
        · rw [hok] at hok'
          obtain rfl := Except.ok.inj hok'
          generalize (event.after supply).db = s' at heffect
          generalize event.step.op = op at heffect ⊢
          cases heffect with
          | idle hidle => cases op <;> simp [Idle] at hidle
          | restored tab ref authoritative _ => exact ⟨tab, ref, authoritative, rfl⟩
        · rw [hok] at herror
          cases herror
      obtain ⟨tab, ref, authoritative, hop⟩ := hop
      have hwp : Tx.wp (exec supply event.before.sweeps event.step.op) event.before.db
          (fun reply _ => ∀ requeued, reply = .rows requeued → ∀ pair ∈ requeued,
            ∃ x ∈ event.before.db.outbox, x.state = .blockedUnknown ∧
              RequeuedFrom event.before.db.sequences x pair) (fun _ _ => True) := by
        rw [hop]
        show Tx.wp (do return Reply.rows (← restoreProvenAbsent supply tab ref authoritative).1)
          event.before.db _ _
        rw [wp_bind]
        refine wp_mono (restoreProvenAbsent_requeues tab ref authoritative event.before.db)
          (fun result _ hresult requeued heq => ?_) fun _ _ _ => trivial
        obtain rfl := Reply.rows.inj heq
        exact hresult
      obtain ⟨x, hx, hparked, hxkey, hstays⟩ := Event.reply_of_wp hwp hok requeued rfl pair hpair
      have hxkey' : x.clientMutationId = key := hxkey.symm.trans hkey
      have hcrossed := (h.rows x hx hxkey' (Or.inr hparked)).1
      exact (hstays (crossed_of_displayed hcrossed _)).trans hxkey'
  · exact hids

/-- No run, whatever its calls, sends the work of a barred key. -/
theorem Barred.not_sent (hinj : Function.Injective supply) (htidy : Tidy w.db)
    (h : Barred supply key w.db) (hids : ∀ id ∈ ids, id = key) (steps : List Step) :
    ¬ SentAgain supply ids w steps := by
  induction steps generalizing w ids with
  | nil => exact id
  | cons step steps ih =>
    rintro (⟨id, hid, hmark⟩ | hsent)
    · rw [hids id hid, h.not_marks ⟨w, step⟩ htidy] at hmark
      exact Bool.false_ne_true hmark
    · exact ih (Tidy.event supply ⟨w, step⟩ htidy) (h.step hinj ⟨w, step⟩ htidy)
        (h.lineage ⟨w, step⟩ htidy hids) hsent

/-- The rows a Stop leaves barred. -/
theorem Unseen.barred {s : Db} (h : Unseen supply s) (htidy : Tidy s) (hr : r ∈ s.outbox)
    (hstop : r.state = .superseded ∨ displayedCrossed s.toStores r = true) :
    Barred supply r.clientMutationId s := by
  refine ⟨h.keys r hr, fun x hx hkey hw => ?_⟩
  obtain rfl := htidy.outboxKeys.eq_of_key hx hr hkey
  rcases hstop with hstate | hcrossed
  · rcases hw with hw | hw
    · exact absurd (hw.symm.trans hstate) (by decide)
    · exact absurd (hw.symm.trans hstate) (by decide)
  · refine ⟨hcrossed, fun hun => ?_⟩
    rw [h.clear x hx hun] at hcrossed
    exact Bool.false_ne_true hcrossed

end Barred

/-! ## Rows a retarget lets out -/

section Clear

variable {supply : Nat → String}

/-- A waiting row of the key with nothing crossed, its baseline in place. -/
structure Clear (key : String) (s : Db) (r : MutationOutboxRecord) : Prop where
  held : r ∈ s.outbox
  key : r.clientMutationId = key
  waiting : Waiting r
  baseline : r.stopEpochAtEnqueue = some (epochOf s.sequences r.targetRef)
  displayed : displayedCrossed s.toStores r = false

theorem Event.result_of_wp (event : Event) (hfault : event.step.fault = none)
    {Q : Reply → Db → Prop} (h : Tx.wp (exec supply event.before.sweeps event.step.op)
      event.before.db Q (fun _ _ => False)) :
    ∃ reply, (event.result supply).1 = .ok reply ∧ Q reply (event.after supply).db := by
  show ∃ reply, (event.result supply).1 = .ok reply ∧ Q reply (event.result supply).2
  unfold Event.result
  rw [hfault]
  unfold Tx.wp at h
  unfold Tx.runTransaction
  split at h
  · next reply s' hbody =>
    rw [hbody]
    exact ⟨reply, rfl, h⟩
  · exact h.elim

theorem Clear.mark_passes {s : Db} (htidy : Tidy s) (h : Clear key s r)
    (hstate : r.state = .submitting) {E : OutboxError → Db → Prop} :
    Tx.wp (markAttempted key) s (fun passed _ => passed = true) E := by
  have hlookup : lookup outboxKey key s.outbox = some r :=
    (lookup_eq_some htidy.outboxKeys).mpr ⟨h.held, h.key⟩
  unfold markAttempted
  rw [wp_bind, wp_getOutbox, hlookup]
  dsimp only
  rw [if_pos hstate]
  split
  · rw [wp_bind, wp_read]
    refine (wp_ite _ _).mpr ⟨fun hcrossed => ?_, fun _ => ?_⟩
    · have hclear := not_crossed_of_displayed h.baseline h.displayed
      have hsame : ({ r with stopEpochAtEnqueue := some (epochOf s.sequences r.targetRef) } :
          MutationOutboxRecord) = r := by
        rw [← h.baseline]
      simp only [h.baseline, isNone_some, Bool.false_and, Bool.false_eq_true, if_false,
        getD_some, hsame] at hcrossed
      unfold crossed at hclear
      rw [hclear] at hcrossed
      exact absurd hcrossed Bool.false_ne_true
    · rw [wp_bind]
      exact wp_rewriteRow htidy _ h.held ⟨rfl, rfl, rfl⟩ rfl
  · rw [wp_bind]
    exact wp_rewriteRow htidy _ h.held ⟨rfl, rfl, rfl⟩ rfl

theorem unmarkedRow_clear (hstate : r.state = .blockedUnknown) :
    (priorUnresolvedAttempts r ≤ 1 ∧ (unmarkedRow false r).state = .submitting) ∨
      (1 < priorUnresolvedAttempts r ∧ (unmarkedRow false r).state = .blockedUnknown ∧
        priorUnresolvedAttempts (unmarkedRow false r) = priorUnresolvedAttempts r - 1) := by
  have hsub : ¬ r.state = .submitting := by
    rw [hstate]
    decide
  by_cases hmany : 1 < priorUnresolvedAttempts r
  · refine Or.inr ⟨hmany, ?_, prior_of_some ?_⟩
    · simp [unmarkedRow, hmany, hstate]
    · simp [unmarkedRow, hsub, hmany]
  · exact Or.inl ⟨by omega, by simp [unmarkedRow, hsub, hmany, drainedRow]⟩

variable (supply) in
/-- A refusal of a parked clear row leaves it clear, one attempt less. -/
theorem Clear.refused (htidy : Tidy w.db) (h : Clear key w.db r)
    (hstate : r.state = .blockedUnknown) :
    Clear key (Event.after supply ⟨w, ⟨.unmarkAttempted key, none⟩⟩).db (unmarkedRow false r) := by
  have hwp : Tx.wp (exec supply w.sweeps (.unmarkAttempted key)) w.db (fun _ s' =>
      s' = { w.db with outbox := put outboxKey (unmarkedRow false r) w.db.outbox })
      (fun _ _ => False) := by
    show Tx.wp (do return Reply.flag (← unmarkAttempted key)) w.db _ _
    rw [wp_bind]
    refine wp_mono (unmarkAttempted_spec htidy key) (fun b s' hspec => ?_)
      fun _ _ hfalse => hfalse
    rcases hspec with ⟨-, hnone⟩ | ⟨x, hx, hkey, -, hs'⟩
    · exact absurd hstate (hnone r h.held h.key).2
    · obtain rfl := htidy.outboxKeys.eq_of_key hx h.held (hkey.trans h.key.symm)
      have hclear := not_crossed_of_displayed h.baseline h.displayed
      unfold crossed at hclear
      rw [hclear] at hs'
      exact hs'
  obtain ⟨reply, -, hafter⟩ :=
    Event.result_of_wp ⟨w, ⟨.unmarkAttempted key, none⟩⟩ rfl hwp
  have hsame := sameFence_unmarkedRow false r
  rw [hafter]
  refine ⟨mem_put_self _ _, hsame.key.trans h.key, ?_, ?_, ?_⟩
  · rcases unmarkedRow_clear hstate with ⟨-, hsub⟩ | ⟨-, hblocked, -⟩
    · exact Or.inl hsub
    · exact Or.inr hblocked
  · rw [hsame.stopEpoch, hsame.ref]
    exact h.baseline
  · exact (displayedCrossed_congr hsame.displayedRef hsame.displayedEpoch fun _ _ => rfl).trans
      h.displayed

theorem Clear.sent_submitting (htidy : Tidy w.db) (h : Clear key w.db r)
    (hstate : r.state = .submitting) (hid : key ∈ ids) :
    SentAgain supply ids w [⟨.markAttempted key, none⟩] := by
  have hwp : Tx.wp (exec supply w.sweeps (.markAttempted key)) w.db (fun reply _ =>
      reply = .flag true) (fun _ _ => False) := by
    show Tx.wp (do return Reply.flag (← markAttempted key)) w.db _ _
    rw [wp_bind]
    exact wp_mono (h.mark_passes htidy hstate) (fun b _ hb => congrArg Reply.flag hb)
      fun _ _ hfalse => hfalse
  obtain ⟨reply, hok, hreply⟩ :=
    Event.result_of_wp ⟨w, ⟨.markAttempted key, none⟩⟩ rfl hwp
  exact Or.inl ⟨key, hid, (marks_iff hok).mpr ⟨rfl, hreply⟩⟩

/-- Refusals until no attempt is left open, then a mark: the clear row goes out. -/
theorem Clear.sent (htidy : Tidy w.db) (h : Clear key w.db r) (hid : key ∈ ids) :
    ∃ steps : List Step, (∀ step ∈ steps, step.op.automatic = true) ∧
      SentAgain supply ids w steps := by
  rcases h.waiting with hsub | hblocked
  · exact ⟨_, by simp [OutboxOp.automatic], h.sent_submitting htidy hsub hid⟩
  · induction hn : priorUnresolvedAttempts r using Nat.strong_induction_on
      generalizing w r ids with
    | _ n ih =>
      have hnext := h.refused supply htidy hblocked
      have htidy' := Tidy.event supply ⟨w, ⟨.unmarkAttempted key, none⟩⟩ htidy
      have hid' := mem_lineage supply hid ⟨w, ⟨.unmarkAttempted key, none⟩⟩
      rcases unmarkedRow_clear hblocked with ⟨-, hsub⟩ | ⟨hmany, hstate, hprior⟩
      · exact ⟨[⟨.unmarkAttempted key, none⟩, ⟨.markAttempted key, none⟩],
          by simp [OutboxOp.automatic], Or.inr (hnext.sent_submitting htidy' hsub hid')⟩
      · obtain ⟨steps, hautomatic, hsent⟩ :=
          ih (priorUnresolvedAttempts r - 1) (by omega) htidy' hnext hid' hstate hprior
        exact ⟨⟨.unmarkAttempted key, none⟩ :: steps, by simpa [OutboxOp.automatic] using hautomatic,
          Or.inr hsent⟩

theorem retarget_wp (htidy : Tidy w.db) (fromRef toRef : String) (identity : ResumedIdentity)
    {P : Db → Prop} (hidle : fromRef = toRef → P w.db)
    (hmoved : ∀ moved s', fromRef ≠ toRef →
      RetargetOf w.db fromRef ⟨toRef, identity, epochOf w.db.sequences toRef⟩ moved s' → P s') :
    P (Event.after supply ⟨w, ⟨.retargetOutbox fromRef toRef identity, none⟩⟩).db := by
  have hwp : Tx.wp (exec supply w.sweeps (.retargetOutbox fromRef toRef identity)) w.db
      (fun _ s' => P s') (fun _ _ => False) := by
    show Tx.wp (do return Reply.moved (← retargetOutbox fromRef toRef identity)) w.db _ _
    rw [wp_bind]
    by_cases href : fromRef = toRef
    · unfold retargetOutbox
      rw [if_pos href]
      exact hidle href
    · refine wp_mono (retargetOutbox_spec htidy fromRef toRef identity) (fun moved s' h => ?_)
        fun _ _ hfalse => hfalse
      rcases h with ⟨heq, -⟩ | h
      · exact absurd heq href
      · exact hmoved moved s' href h
  obtain ⟨reply, -, hafter⟩ :=
    Event.result_of_wp ⟨w, ⟨.retargetOutbox fromRef toRef identity, none⟩⟩ rfl hwp
  exact hafter

variable (supply) in
/-- A retarget to another ref clears a waiting row crossed on its destination alone. -/
theorem Clear.of_retarget (htidy : Tidy w.db) (hr : r ∈ w.db.outbox) (hw : Waiting r)
    (hbase : r.stopEpochAtEnqueue.isSome = true)
    (hdisplayed : displayedCrossed w.db.toStores r = false) {toRef : String}
    (hne : r.targetRef ≠ toRef) (identity : ResumedIdentity) :
    ∃ r', Clear r.clientMutationId
      (Event.after supply ⟨w, ⟨.retargetOutbox r.targetRef toRef identity, none⟩⟩).db r' := by
  refine retarget_wp (P := fun s => ∃ r', Clear r.clientMutationId s r') htidy _ _ _
    (fun href => absurd href hne) fun moved s' _ hmoved => ?_
  have hp : retargetedRow r.targetRef r = true := by
    rcases hw with hstate | hstate
    · simp [retargetedRow, hstate]
    · simp [retargetedRow, hstate]
  obtain ⟨n, hn⟩ := hmoved.rows.covers r hr hp
  refine ⟨_, (hmoved.rows.mem _).mpr (Or.inl hn), rfl, hw, ?_, ?_⟩
  · obtain ⟨e, he⟩ := isSome_iff_exists.mp hbase
    show r.stopEpochAtEnqueue.map (fun _ => epochOf w.db.sequences toRef) =
      some (epochOf s'.sequences toRef)
    rw [he, hmoved.epochs]
    rfl
  · exact (displayedCrossed_congr (r := r) rfl rfl fun ref _ => hmoved.epochs ref).trans hdisplayed

theorem ref_ne_longer (ref : String) : ref ≠ ref ++ "x" := by
  intro h
  have hlength := congrArg String.length h
  rw [String.length_append] at hlength
  exact absurd hlength (by simp)

end Clear

/-! ## The condition -/

/-- After a retarget no automatic run sends a row's work again exactly when the row is superseded
    or a Stop crossed the ref it is displayed on: a Stop that crossed it on its destination alone
    is forgotten. -/
theorem retarget_remembers_iff (supply : Nat → String) (hinj : Function.Injective supply)
    (steps : List Step) (r : MutationOutboxRecord) (hr : r ∈ (run supply {} steps).db.outbox)
    (hlive : r.state ≠ .canceled) (toRef : String) (identity : ResumedIdentity) :
    RemembersStop supply (run supply {} steps) r toRef identity ↔
      r.state = .superseded ∨ displayedCrossed (run supply {} steps).db.toStores r = true := by
  have htidy := tidy_run supply steps
  have hafter := Tidy.event supply
    ⟨run supply {} steps, ⟨.retargetOutbox r.targetRef toRef identity, none⟩⟩ htidy
  constructor
  · intro hremembers
    by_contra hcondition
    obtain ⟨hnot, hdisplayed⟩ := not_or.mp hcondition
    rw [Bool.not_eq_true] at hdisplayed
    have hw : Waiting r := by
      cases hstate : r.state with
      | submitting => exact Or.inl hstate
      | blockedUnknown => exact Or.inr hstate
      | canceled => exact absurd hstate hlive
      | superseded => exact absurd hstate hnot
    have hbase : r.stopEpochAtEnqueue.isSome = true := by
      obtain ⟨e, he, -⟩ := ((fenced_run supply steps).lags r hr).target
      rw [he]
      rfl
    by_cases href : r.targetRef = toRef
    · -- a retarget of a ref to itself changes nothing; the next one to another ref clears the row
      have hmoves : ∃ r', Clear r.clientMutationId (Event.after supply
          ⟨Event.after supply ⟨run supply {} steps,
              ⟨.retargetOutbox r.targetRef toRef identity, none⟩⟩,
            ⟨.retargetOutbox r.targetRef (r.targetRef ++ "x") identity, none⟩⟩).db r' := by
        have hsame : (Event.after supply ⟨run supply {} steps,
            ⟨.retargetOutbox r.targetRef toRef identity, none⟩⟩).db = (run supply {} steps).db :=
          retarget_wp (P := fun s => s = (run supply {} steps).db) htidy _ _ _ (fun _ => rfl)
            fun _ _ hne _ => absurd href hne
        refine Clear.of_retarget supply hafter ?_ hw hbase ?_ (ref_ne_longer r.targetRef) identity
        · rw [hsame]
          exact hr
        · rw [hsame]
          exact hdisplayed
      obtain ⟨r', hclear⟩ := hmoves
      obtain ⟨later, hautomatic, hsent⟩ := hclear.sent (Tidy.event supply _ hafter)
        (mem_lineage supply (mem_singleton_self _) _)
      refine hremembers
        (⟨.retargetOutbox r.targetRef (r.targetRef ++ "x") identity, none⟩ :: later) ?_
        (Or.inr hsent)
      intro step hstep
      rcases mem_cons.mp hstep with rfl | hstep
      · rfl
      · exact hautomatic step hstep
    · obtain ⟨r', hclear⟩ := Clear.of_retarget supply htidy hr hw hbase hdisplayed
        href identity
      obtain ⟨later, hautomatic, hsent⟩ := hclear.sent hafter
        (mem_singleton_self r.clientMutationId)
      exact hremembers later hautomatic hsent
  · intro hstop later _
    have hbarred := (unseen_run supply steps).barred htidy hr hstop
    exact (hbarred.step hinj ⟨_, ⟨.retargetOutbox r.targetRef toRef identity, none⟩⟩ htidy).not_sent
      hinj hafter (fun id hid => mem_singleton.mp hid) later

/-- A message to `"a"` resent from a pane that shows `"d"`, in flight when `"d"` was stopped. -/
def stoppedWhereDisplayed : List Step :=
  [⟨.enqueueIntent oneTab (sendTo "a") none, none⟩,
    ⟨.transferToRecovery "i" .rejected none false, none⟩,
    ⟨.resendRecovery oneTab {
      sourceIds := ["i"]
      intent := sendTo "a"
      displayedBarrier := some ⟨"d", 0⟩ }, none⟩,
    ⟨.markAttempted "ii", none⟩, ⟨.cancelUnattempted "d", none⟩]

theorem retarget_remembers_iff_displayed :
    ∃ r ∈ (run tallyIds {} stoppedWhereDisplayed).db.outbox, r.state ≠ .canceled ∧
      crossed (run tallyIds {} stoppedWhereDisplayed).db.toStores r = true ∧
      RemembersStop tallyIds (run tallyIds {} stoppedWhereDisplayed) r "b" ⟨none, none⟩ :=
  ⟨_, mem_singleton_self _, nofun, rfl,
    (retarget_remembers_iff tallyIds tallyIds_injective stoppedWhereDisplayed _
      (mem_singleton_self _) nofun "b" ⟨none, none⟩).mpr (Or.inr rfl)⟩

/-- A message in flight when its ref was stopped. -/
def stoppedInFlight : List Step :=
  [⟨.enqueueIntent oneTab (sendTo "a") none, none⟩, ⟨.markAttempted "i", none⟩,
    ⟨.cancelUnattempted "a", none⟩]

/-- The retarget forgets the Stop: the next mark lets the row out. -/
theorem stoppedInFlight_sent_again : ∃ r ∈ (run tallyIds {} stoppedInFlight).db.outbox,
    r.targetRef = "a" ∧ r.state ≠ .canceled ∧
      crossed (run tallyIds {} stoppedInFlight).db.toStores r = true ∧
      ¬ RemembersStop tallyIds (run tallyIds {} stoppedInFlight) r "b" ⟨none, none⟩ := by
  refine ⟨_, mem_singleton_self _, rfl, nofun, rfl, fun hremembers => ?_⟩
  exact hremembers [⟨.markAttempted "i", none⟩] (by simp [OutboxOp.automatic])
    (Or.inl ⟨"i", mem_singleton_self _, rfl⟩)

/-! ## Rows that have left -/

/-- An id that was handed out and names no row of the outbox never names one again, and no mark of
    it lets a row out. -/
theorem gone_stays_gone (supply : Nat → String) (hinj : Function.Injective supply)
    (steps later : List Step) (key : String) (hdrawn : Drawn supply (run supply {} steps).db key)
    (hgone : ∀ r ∈ (run supply {} steps).db.outbox, r.clientMutationId ≠ key) :
    (∀ r ∈ (run supply {} (steps ++ later)).db.outbox, r.clientMutationId ≠ key) ∧
      ∀ fault, (Event.result supply
        ⟨run supply {} (steps ++ later), ⟨.markAttempted key, fault⟩⟩).1 ≠ .ok (.flag true) := by
  -- a key without a row is at both ends of a row's life
  have hended : ∀ state, state = .canceled ∨ state = .superseded →
      Ended supply key state (run supply {} (steps ++ later)).db := by
    intro state hend
    rw [run_append]
    exact Ended.run hinj hend later (tidy_run supply steps)
      ⟨hdrawn, fun r hr hkey => absurd hkey (hgone r hr)⟩
  have hnone : ∀ r ∈ (run supply {} (steps ++ later)).db.outbox, r.clientMutationId ≠ key := by
    intro r hr hkey
    have hcanceled := (hended .canceled (Or.inl rfl)).rows r hr hkey
    have hsuperseded := (hended .superseded (Or.inr rfl)).rows r hr hkey
    exact absurd (hcanceled.symm.trans hsuperseded) (by decide)
  exact ⟨hnone, mark_of_not_submitting supply (tidy_run supply _)
    fun r hr hkey => absurd hkey (hnone r hr)⟩

/-- A message in flight is applied and another is sent: a mark of the first lets no row out. -/
theorem gone_stays_gone_settled :
    (Event.result tallyIds ⟨run tallyIds {} ([⟨.enqueueIntent oneTab (sendTo "a") none, none⟩,
      ⟨.markAttempted "i", none⟩, ⟨.settleApplied "i", none⟩] ++
        [⟨.enqueueIntent oneTab (sendTo "a") none, none⟩]), ⟨.markAttempted "i", none⟩⟩).1 ≠
      .ok (.flag true) := by
  exact (gone_stays_gone tallyIds tallyIds_injective _ _ "i" ⟨0, by decide, rfl⟩ (by decide)).2 none

end Evener.Outbox
