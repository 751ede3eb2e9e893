/-
  The stop fence: a row that a mark lets out was not stopped since it was born or moved.

  The baseline of every row lags its ref's epoch by at least the Stops since (`Lags`), and a
  waiting row without evidence has seen no Stop at all (`Unstopped`).
-/
import Evener.Outbox.RowFate

namespace Evener.Outbox

open Evener.Lib JsValue List

/-! ## Events of a run -/

section Events

variable (supply : Nat → String)

def Event.committed (event : Event) : Bool :=
  match (event.result supply).1 with
  | .ok _ => true
  | .error _ => false

/-- A Stop on `ref` that committed. -/
def Event.stops (ref : String) (event : Event) : Bool :=
  event.committed supply && event.step.op.stopRef = some ref

/-- A commit that drew the id and left an outbox row under it. -/
def Event.inserts (id : String) (event : Event) : Bool :=
  event.committed supply &&
    ((event.after supply).db.outbox.any fun r => r.clientMutationId = id) &&
    (List.range (event.after supply).db.drawn).any fun n =>
      event.before.db.drawn ≤ n && supply n = id

/-- A retarget that moved the row of the id. -/
def Event.moves (id : String) (event : Event) : Bool :=
  match event.step.op, (event.result supply).1 with
  | .retargetOutbox _ _ _, .ok (.moved mutations) =>
    mutations.outbox.any fun r => r.clientMutationId = id
  | _, _ => false

end Events

/-- The events after the last one that meets `p`. -/
def since (p : Event → Bool) (trace : List Event) : List Event :=
  (trace.reverse.takeWhile fun event => !p event).reverse

section Since

variable {p : Event → Bool} {trace : List Event} {event : Event}

theorem since_append_of_pos (h : p event = true) : since p (trace ++ [event]) = [] := by
  simp [since, h]

theorem since_append_of_neg (h : p event = false) :
    since p (trace ++ [event]) = since p trace ++ [event] := by
  simp [since, h]

/-- Counting over the events since: one more event counts at most itself. -/
theorem countP_since_le (q : Event → Bool) :
    (since p (trace ++ [event])).countP q ≤
      (since p trace).countP q + if q event = true then 1 else 0 := by
  by_cases h : p event = true
  · rw [since_append_of_pos h]
    exact Nat.zero_le _
  · rw [since_append_of_neg (by simpa using h), countP_append]
    simp [countP_cons]

end Since

/-! ## The invariant -/

section Invariant

variable (supply : Nat → String) (trace : List Event) (s : Db)

/-- The Stops on the row's target since it was born or last moved. -/
def targetStops (r : MutationOutboxRecord) : Nat :=
  (since (fun event => event.inserts supply r.clientMutationId ||
    event.moves supply r.clientMutationId) trace).countP (Event.stops supply r.targetRef)

/-- The Stops on a ref since the row was born. -/
def displayedStops (r : MutationOutboxRecord) (ref : String) : Nat :=
  (since (Event.inserts supply r.clientMutationId) trace).countP (Event.stops supply ref)

/-- The baselines lag the epochs by at least the Stops since. -/
structure Lags (r : MutationOutboxRecord) : Prop where
  target : ∃ e, r.stopEpochAtEnqueue = some e ∧
    e + targetStops supply trace r ≤ epochOf s.sequences r.targetRef
  displayed : ∀ ref, r.displayedRef = some ref → ∃ e, r.displayedStopEpochAtEnqueue = some e ∧
    e + displayedStops supply trace r ref ≤ epochOf s.sequences ref

/-- No Stop reached the row's refs since. -/
structure Unstopped (r : MutationOutboxRecord) : Prop where
  target : targetStops supply trace r = 0
  displayed : ∀ ref, r.displayedRef = some ref → displayedStops supply trace r ref = 0

/-- A row a mark would let out without comparing epochs, could it be marked now. -/
def Unevidenced (r : MutationOutboxRecord) : Prop :=
  Waiting r ∧ r.attempted = some false ∧ r.unresolvedAttempts = none

structure Fenced : Prop where
  lags : ∀ r ∈ s.outbox, Lags supply trace s r
  unstopped : ∀ r ∈ s.outbox, Unevidenced r → Unstopped supply trace r

end Invariant

/-! ## One event -/

variable {r r' : MutationOutboxRecord}

section Step

variable {supply : Nat → String} {trace : List Event} {event : Event}

theorem stops_eq (ref : String) (hcommitted : event.committed supply = true) :
    event.stops supply ref = decide (event.step.op.stopRef = some ref) := by
  unfold Event.stops
  rw [hcommitted, Bool.true_and]

theorem committed_of_ok {reply : Reply} (h : (event.result supply).1 = .ok reply) :
    event.committed supply = true := by
  unfold Event.committed
  rw [h]

theorem committed_of_error {e : OutboxError} (h : (event.result supply).1 = .error e) :
    event.committed supply = false := by
  unfold Event.committed
  rw [h]

/-- The number of Stops of a ref an event adds. -/
def stopCount (supply : Nat → String) (event : Event) (ref : String) : Nat :=
  if event.stops supply ref = true then 1 else 0

/-- What stays of a row through an event that neither bears nor moves it. -/
structure SameFence (r r' : MutationOutboxRecord) : Prop where
  key : r'.clientMutationId = r.clientMutationId
  ref : r'.targetRef = r.targetRef
  stopEpoch : r'.stopEpochAtEnqueue = r.stopEpochAtEnqueue
  displayedRef : r'.displayedRef = r.displayedRef
  displayedEpoch : r'.displayedStopEpochAtEnqueue = r.displayedStopEpochAtEnqueue

variable (supply trace event) in
theorem targetStops_le (h : SameFence r r') :
    targetStops supply (trace ++ [event]) r' ≤
      targetStops supply trace r + stopCount supply event r.targetRef := by
  unfold targetStops
  rw [h.key, h.ref]
  exact countP_since_le _

variable (supply trace event) in
theorem displayedStops_le (hkey : r'.clientMutationId = r.clientMutationId) (ref : String) :
    displayedStops supply (trace ++ [event]) r' ref ≤
      displayedStops supply trace r ref + stopCount supply event ref := by
  unfold displayedStops
  rw [hkey]
  exact countP_since_le _

theorem Lags.carry {s s' : Db} (h : Lags supply trace s r) (hsame : SameFence r r')
    (hepochs : ∀ ref, epochOf s'.sequences ref = epochOf s.sequences ref + stopCount supply event ref) :
    Lags supply (trace ++ [event]) s' r' := by
  refine ⟨?_, fun ref href => ?_⟩
  · obtain ⟨e, he, hle⟩ := h.target
    refine ⟨e, hsame.stopEpoch.trans he, ?_⟩
    rw [hsame.ref, hepochs]
    have := targetStops_le supply trace event hsame
    omega
  · obtain ⟨e, he, hle⟩ := h.displayed ref (hsame.displayedRef ▸ href)
    refine ⟨e, hsame.displayedEpoch.trans he, ?_⟩
    rw [hepochs]
    have := displayedStops_le supply trace event hsame.key ref
    omega

theorem Unstopped.carry (h : Unstopped supply trace r) (hsame : SameFence r r')
    (htarget : stopCount supply event r.targetRef = 0)
    (hdisplayed : ∀ ref, r.displayedRef = some ref → stopCount supply event ref = 0) :
    Unstopped supply (trace ++ [event]) r' := by
  refine ⟨?_, fun ref href => ?_⟩
  · have := targetStops_le supply trace event hsame
    have := h.target
    omega
  · rw [hsame.displayedRef] at href
    have := displayedStops_le supply trace event hsame.key ref
    have := h.displayed ref href
    have := hdisplayed ref href
    omega

theorem inserts_of_born (hcommitted : event.committed supply = true)
    (hborn : Born supply event.before.db (event.after supply).db r)
    (hr : r ∈ (event.after supply).db.outbox) : event.inserts supply r.clientMutationId = true := by
  obtain ⟨n, hle, hlt, hn⟩ := hborn.drawn
  unfold Event.inserts
  simp only [Bool.and_eq_true, any_eq_true, decide_eq_true_eq]
  exact ⟨⟨hcommitted, r, hr, rfl⟩, n, mem_range.mpr hlt, hle, hn⟩

variable (trace) in
theorem stops_zero_of_inserts (hinserts : event.inserts supply r.clientMutationId = true) :
    Unstopped supply (trace ++ [event]) r := by
  refine ⟨?_, fun ref _ => ?_⟩
  · unfold targetStops
    rw [since_append_of_pos (by rw [hinserts]; rfl)]
    rfl
  · unfold displayedStops
    rw [since_append_of_pos hinserts]
    rfl

theorem targetStops_of_moves (hmoves : event.moves supply r.clientMutationId = true) :
    targetStops supply (trace ++ [event]) r = 0 := by
  unfold targetStops
  rw [since_append_of_pos (by rw [hmoves, Bool.or_true])]
  rfl

theorem stopCount_eq (hcommitted : event.committed supply = true) (ref : String) :
    stopCount supply event ref = if event.step.op.stopRef = some ref then 1 else 0 := by
  unfold stopCount
  rw [stops_eq ref hcommitted]
  simp only [decide_eq_true_eq]

theorem stopCount_of_error {e : OutboxError} (h : (event.result supply).1 = .error e)
    (ref : String) : stopCount supply event ref = 0 := by
  unfold stopCount Event.stops
  rw [committed_of_error h]
  rfl

/-- A row whose baseline is set keeps it through a mark. -/
theorem keptBaseline_eq {s : Stores} {e : Nat} (h : r.stopEpochAtEnqueue = some e) :
    keptBaseline s r = some e ∧ markBaseline s r = e := by
  have hmark : markBaseline s r = e := by
    unfold markBaseline
    simp [h]
  refine ⟨?_, hmark⟩
  unfold keptBaseline
  rw [hmark, h, ite_self]

theorem sameFence_unmarkedRow (crossed : Bool) (r : MutationOutboxRecord) :
    SameFence r (unmarkedRow crossed r) := by
  unfold unmarkedRow drainedRow
  dsimp only
  repeat' split
  all_goals exact ⟨rfl, rfl, rfl, rfl, rfl⟩

/-- A refusal always leaves a count behind. -/
theorem unresolved_unmarkedRow (crossed : Bool) (r : MutationOutboxRecord) :
    (unmarkedRow crossed r).unresolvedAttempts ≠ none := by
  unfold unmarkedRow drainedRow
  dsimp only
  repeat' split
  all_goals exact nofun

theorem sameFence_fencedRow {s : Stores} {e : Nat} (h : r.stopEpochAtEnqueue = some e)
    (uncertain : Bool) : SameFence r (fencedRow r (markBaseline s r) uncertain) := by
  rw [(keptBaseline_eq (s := s) h).2]
  unfold fencedRow
  split
  · exact ⟨rfl, rfl, h.symm, rfl, rfl⟩
  · exact ⟨rfl, rfl, h.symm, rfl, rfl⟩

theorem moves_of_moved {fromRef toRef : String} {identity : ResumedIdentity}
    {mutations : RetargetedMutations} (hop : event.step.op = .retargetOutbox fromRef toRef identity)
    (hok : (event.result supply).1 = .ok (.moved mutations)) (hr : r ∈ mutations.outbox) :
    event.moves supply r.clientMutationId = true := by
  unfold Event.moves
  rw [hop, hok]
  exact any_eq_true.mpr ⟨r, hr, decide_eq_true rfl⟩

theorem unevidenced_cancelable (h : Unevidenced r) : isCancelableByStop r = true :=
  isCancelableByStop_iff.mpr ⟨h.1, h.2.1⟩

variable (event) in
/-- Every event keeps the two halves of the invariant, row by row. -/
theorem Fenced.step (htidy : Tidy event.before.db)
    (h : Fenced supply trace event.before.db) :
    Fenced supply (trace ++ [event]) (event.after supply).db := by
  rcases event.outcome supply htidy with ⟨reply, hok, heffect⟩ | ⟨e, n, herror, -, -, hafter⟩
  · have hcommitted := committed_of_ok hok
    have hepochs : ∀ ref, epochOf (event.after supply).db.sequences ref =
        epochOf event.before.db.sequences ref + stopCount supply event ref := by
      intro ref
      rw [stopCount_eq hcommitted]
      exact heffect.epochs ref
    have hquiet : event.step.op.stopRef = none → ∀ ref, stopCount supply event ref = 0 := by
      intro hstop ref
      rw [stopCount_eq hcommitted, hstop]
      rfl
    refine ⟨fun r' hr' => ?_, fun r' hr' hun => ?_⟩
    · cases heffect.fate htidy hr' with
      | stepped hr hstep hcancel _ =>
        exact (h.lags _ hr).carry ⟨congrArg _ hstep.record, congrArg (·.targetRef) hstep.record,
          hstep.stopEpoch, hstep.displayedRef, hstep.displayedEpoch⟩ hepochs
      | marked hr _ _ _ _ =>
        obtain ⟨e, he, -⟩ := (h.lags _ hr).target
        exact (h.lags _ hr).carry
          ⟨rfl, rfl, (keptBaseline_eq he).1.trans he.symm, rfl, rfl⟩ hepochs
      | fenced hr _ _ _ _ =>
        obtain ⟨e, he, -⟩ := (h.lags _ hr).target
        exact (h.lags _ hr).carry (sameFence_fencedRow he _) hepochs
      | unmarked crossed hr _ _ =>
        exact (h.lags _ hr).carry (sameFence_unmarkedRow crossed _) hepochs
      | @moved r fromRef toRef identity mutations n hr hstate hop hreply hmoved =>
        subst hreply
        have hstop := hquiet (by rw [hop]; rfl)
        obtain ⟨e, he, -⟩ := (h.lags r hr).target
        refine ⟨⟨epochOf event.before.db.sequences toRef, by simp [movedRow, he], ?_⟩,
          fun ref href => ?_⟩
        · rw [targetStops_of_moves (moves_of_moved hop hok hmoved), hepochs, hstop]
          exact le_rfl
        · obtain ⟨e, he, hle⟩ := (h.lags r hr).displayed ref href
          refine ⟨e, he, ?_⟩
          have hkey : (movedRow toRef identity (epochOf event.before.db.sequences toRef) n
              r).clientMutationId = r.clientMutationId := rfl
          have := displayedStops_le supply trace event hkey ref
          rw [hepochs]
          omega
      | born hborn _ =>
        have hzero := stops_zero_of_inserts trace (inserts_of_born hcommitted hborn hr')
        refine ⟨⟨_, hborn.stopEpoch, ?_⟩, fun ref href => ⟨_, hborn.displayedEpoch ref href, ?_⟩⟩
        · rw [hzero.target]
          exact le_rfl
        · rw [hzero.displayed ref href]
          exact le_rfl
    · cases heffect.fate htidy hr' with
      | @stepped r _ hr hstep hcancel _ =>
        have hsame : SameFence r r' := ⟨congrArg _ hstep.record,
          congrArg (·.targetRef) hstep.record, hstep.stopEpoch, hstep.displayedRef,
          hstep.displayedEpoch⟩
        have hunr : Unevidenced r := ⟨hstep.waiting hun.1, hstep.attempted ▸ hun.2.1,
          hstep.unresolved ▸ hun.2.2⟩
        -- a Stop that crosses the row would have canceled it
        have hmissed : ∀ ref, crossedBy ref r' = true → stopCount supply event ref = 0 := by
          intro ref hcrossed
          rw [stopCount_eq hcommitted, if_neg]
          intro hstop
          rw [unevidenced_cancelable hun] at hcancel
          exact absurd (hcancel ref hstop hcrossed) (by decide)
        refine (h.unstopped r hr hunr).carry hsame (hmissed _ ?_) fun ref href => hmissed _ ?_
        · simp [crossedBy, hsame.ref]
        · simp [crossedBy, hsame.displayedRef, href]
      | marked hr _ _ _ _ => exact absurd hun.2.1 (by simp [markedRow])
      | fenced hr _ _ _ _ =>
        refine absurd hun.2.2 ?_
        unfold fencedRow
        split
        · exact nofun
        · exact nofun
      | unmarked crossed hr _ _ => exact absurd hun.2.2 (unresolved_unmarkedRow _ _)
      | @moved r fromRef toRef identity mutations n hr hstate hop hreply hmoved =>
        subst hreply
        have hstop := hquiet (by rw [hop]; rfl)
        have hold : Unstopped supply trace r := h.unstopped r hr hun
        refine ⟨targetStops_of_moves (moves_of_moved hop hok hmoved), fun ref href => ?_⟩
        have hkey : (movedRow toRef identity (epochOf event.before.db.sequences toRef) n
            r).clientMutationId = r.clientMutationId := rfl
        have := displayedStops_le supply trace event hkey ref
        have := hold.displayed ref href
        have := hstop ref
        omega
      | born hborn _ => exact stops_zero_of_inserts trace (inserts_of_born hcommitted hborn hr')
  · rw [hafter]
    have hzero := stopCount_of_error herror
    refine ⟨fun r hr => ?_, fun r hr hun => ?_⟩
    · exact (h.lags r hr).carry ⟨rfl, rfl, rfl, rfl, rfl⟩ fun ref => by rw [hzero ref]; rfl
    · exact (h.unstopped r hr hun).carry ⟨rfl, rfl, rfl, rfl, rfl⟩ (hzero _) fun ref _ => hzero ref

end Step

/-! ## Whole runs -/

section Runs

variable (supply : Nat → String)

theorem fenced_run (steps : List Step) :
    Fenced supply (events supply {} steps) (run supply {} steps).db := by
  have hstart : Fenced supply [] ({} : World).db :=
    ⟨fun _ hr => absurd hr not_mem_nil, fun _ hr => absurd hr not_mem_nil⟩
  have hboth := run_induction supply (P := fun trace w => Tidy w.db ∧ Fenced supply trace w.db)
    ⟨tidy_empty, hstart⟩ (fun trace w step h =>
      ⟨Tidy.event supply ⟨w, step⟩ h.1,
        Fenced.step ⟨w, step⟩ h.1 h.2⟩) steps
  exact hboth.2

/-- A count of zero is a statement about every event. -/
theorem not_stops_of_zero {trace : List Event} {ref : String}
    (h : trace.countP (Event.stops supply ref) = 0) :
    ∀ event ∈ trace, event.stops supply ref = false := by
  intro event hevent
  simpa using countP_eq_zero.mp h event hevent

/-- A row without evidence and without a count is not compared; then its attempt is provably
    still to come. -/
theorem unevidenced_of_not_gated (hstate : r.state = .submitting) (h : ¬ gated r = true) :
    Unevidenced r := by
  unfold gated evidenced at h
  simp only [Bool.or_eq_true, not_or, Option.isSome_iff_ne_none, ne_eq, not_not, Option.isNone_iff_eq_none,
    decide_eq_true_eq] at h
  obtain ⟨⟨⟨htrue, hcount⟩, hnone⟩, -⟩ := h
  refine ⟨Or.inl hstate, ?_, hnone⟩
  unfold priorUnresolvedAttempts at hcount
  rw [hnone] at hcount
  cases hattempted : r.attempted with
  | none =>
    rw [hattempted] at hcount
    exact absurd Nat.one_pos hcount
  | some b =>
    cases b with
    | false => rfl
    | true => exact absurd hattempted htrue

/-- A row that a mark lets out has not been stopped: not on its target since it was inserted or
    last moved, and not on the ref it was displayed on since it was inserted. -/
theorem markAttempted_sound (steps : List Step) (id : String) (fault : Option OutboxError)
    (hmark : (Event.result supply ⟨run supply {} steps, ⟨.markAttempted id, fault⟩⟩).1 =
      .ok (.flag true)) :
    ∃ r ∈ (run supply {} steps).db.outbox, r.clientMutationId = id ∧
      (∀ event ∈ since (fun event => event.inserts supply id || event.moves supply id)
        (events supply {} steps), event.stops supply r.targetRef = false) ∧
      (∀ ref, r.displayedRef = some ref → ∀ event ∈ since (Event.inserts supply id)
        (events supply {} steps), event.stops supply ref = false) := by
  have hfenced := fenced_run supply steps
  rcases Event.outcome supply ⟨run supply {} steps, ⟨.markAttempted id, fault⟩⟩ (tidy_run supply steps)
    with ⟨reply, hok, heffect⟩ | ⟨e, n, herror, -⟩
  · rw [hmark] at hok
    obtain rfl := (Except.ok.inj hok).symm
    generalize (Event.after supply ⟨run supply {} steps, ⟨.markAttempted id, fault⟩⟩).db = s'
      at heffect
    cases heffect with
    | idle hidle => exact absurd hidle (by simp [Idle])
    | @marked _ r hr hkey hstate hgate =>
      have hunstopped : Unstopped supply (events supply {} steps) r := by
        by_cases hgated : gated r = true
        · obtain ⟨e, he, hle⟩ := (hfenced.lags r hr).target
          have hcrossed := hgate hgated
          simp only [markCrossed, (keptBaseline_eq he).2, fenceCrossed, Option.getD_some,
            Bool.or_eq_false_iff, decide_eq_false_iff_not, not_lt] at hcrossed
          refine ⟨by omega, fun ref href => ?_⟩
          obtain ⟨e', he', hle'⟩ := (hfenced.lags r hr).displayed ref href
          have hdisplayed := hcrossed.2
          simp only [displayedEpochOf, href, he', Option.isSome_some, Bool.true_and,
            Option.getD_some, Option.map_some, decide_eq_false_iff_not, not_lt] at hdisplayed
          omega
        · exact hfenced.unstopped r hr (unevidenced_of_not_gated hstate hgated)
      subst hkey
      exact ⟨r, hr, rfl, not_stops_of_zero supply hunstopped.target,
        fun ref href => not_stops_of_zero supply (hunstopped.displayed ref href)⟩
  · rw [hmark] at herror
    exact nomatch herror

end Runs

/-- A Stop on a ref, a message to it, and a Stop on another ref. -/
def sendBetweenStops : List Step :=
  [⟨.cancelUnattempted "a", none⟩, ⟨.enqueueIntent oneTab (sendTo "a") none, none⟩,
    ⟨.cancelUnattempted "b", none⟩]

theorem markAttempted_sound_sendBetweenStops :
    ∃ r ∈ (run tallyIds {} sendBetweenStops).db.outbox, r.clientMutationId = "i" ∧
      (∀ event ∈ since (fun event => event.inserts tallyIds "i" || event.moves tallyIds "i")
        (events tallyIds {} sendBetweenStops), event.stops tallyIds r.targetRef = false) ∧
      (∀ ref, r.displayedRef = some ref → ∀ event ∈ since (Event.inserts tallyIds "i")
        (events tallyIds {} sendBetweenStops), event.stops tallyIds ref = false) :=
  markAttempted_sound tallyIds sendBetweenStops "i" none rfl

end Evener.Outbox
