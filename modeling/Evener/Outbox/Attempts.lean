/-
  Attempt accounting: a row's count of unresolved attempts is the number of marks that let it out
  less the number of refusals that came back, whatever the tabs did in between.
-/
import Evener.Outbox.StopFence

namespace Evener.Outbox

open Evener.Lib JsValue List

variable {id key : String} {reply : Reply} {s s' : Db} {r r' : MutationOutboxRecord}

section Counts

variable (supply : Nat → String)

/-- A mark that let the row of the id out. -/
def Event.marks (id : String) (event : Event) : Bool :=
  match event.step.op, (event.result supply).1 with
  | .markAttempted marked, .ok (.flag true) => marked = id
  | _, _ => false

/-- A committed refusal of the id. -/
def Event.unmarks (id : String) (event : Event) : Bool :=
  match event.step.op, (event.result supply).1 with
  | .unmarkAttempted refused, .ok _ => refused = id
  | _, _ => false

def marksOf (trace : List Event) (id : String) : Nat := trace.countP (Event.marks supply id)

def unmarksOf (trace : List Event) (id : String) : Nat := trace.countP (Event.unmarks supply id)

/-- Every refusal has an earlier mark of its id left to answer. -/
def AnswersOnce (trace : List Event) : Prop :=
  ∀ before event after, trace = before ++ event :: after → ∀ id, event.unmarks supply id = true →
    unmarksOf supply before id < marksOf supply before id

variable {supply} {trace : List Event} {event : Event}

theorem marksOf_append (id : String) : marksOf supply (trace ++ [event]) id =
    marksOf supply trace id + if event.marks supply id = true then 1 else 0 := by
  simp [marksOf, countP_append, countP_cons]

theorem unmarksOf_append (id : String) : unmarksOf supply (trace ++ [event]) id =
    unmarksOf supply trace id + if event.unmarks supply id = true then 1 else 0 := by
  simp [unmarksOf, countP_append, countP_cons]

theorem AnswersOnce.init (h : AnswersOnce supply (trace ++ [event])) : AnswersOnce supply trace :=
  fun before event' after hsplit => h before event' (after ++ [event]) (by rw [hsplit]; simp)

theorem AnswersOnce.last (h : AnswersOnce supply (trace ++ [event]))
    (hunmark : event.unmarks supply id = true) :
    unmarksOf supply trace id < marksOf supply trace id :=
  h trace event [] rfl id hunmark

theorem AnswersOnce.append (h : AnswersOnce supply trace)
    (hlast : ∀ id, event.unmarks supply id = true →
      unmarksOf supply trace id < marksOf supply trace id) :
    AnswersOnce supply (trace ++ [event]) := by
  intro before event' after hsplit id hunmark
  rcases eq_nil_or_concat after with rfl | ⟨after, last, rfl⟩
  · obtain ⟨rfl, hevent⟩ := append_inj' hsplit rfl
    rw [← (List.cons.inj hevent).1] at hunmark
    exact hlast id hunmark
  · rw [concat_eq_append, ← cons_append, ← append_assoc] at hsplit
    exact h before event' after (append_inj' hsplit rfl).1 id hunmark

/-- No more refusals than marks. -/
theorem AnswersOnce.le (h : AnswersOnce supply trace) (id : String) :
    unmarksOf supply trace id ≤ marksOf supply trace id := by
  induction trace using List.reverseRecOn with
  | nil => exact le_rfl
  | append_singleton trace event ih =>
    have hle := ih h.init
    rw [marksOf_append, unmarksOf_append]
    split
    · next hunmark =>
      have := h.last hunmark
      split <;> omega
    · split <;> omega

/-- The two predicates by what the call was and how it went. -/
theorem marks_iff (hok : (event.result supply).1 = .ok reply) :
    event.marks supply id = true ↔ event.step.op = .markAttempted id ∧ reply = .flag true := by
  unfold Event.marks
  rw [hok]
  constructor
  · intro h
    split at h
    · next marked hop heq =>
      rw [hop, of_decide_eq_true h]
      exact ⟨rfl, Except.ok.inj heq⟩
    · exact absurd h Bool.false_ne_true
  · rintro ⟨hop, rfl⟩
    rw [hop]
    exact decide_eq_true rfl

theorem unmarks_iff (hok : (event.result supply).1 = .ok reply) :
    event.unmarks supply id = true ↔ event.step.op = .unmarkAttempted id := by
  unfold Event.unmarks
  rw [hok]
  constructor
  · intro h
    split at h
    · next refused _ hop _ => rw [hop, of_decide_eq_true h]
    · exact absurd h Bool.false_ne_true
  · intro hop
    rw [hop]
    exact decide_eq_true rfl

theorem marks_of_error {e : OutboxError} (herror : (event.result supply).1 = .error e)
    (id : String) : event.marks supply id = false ∧ event.unmarks supply id = false := by
  unfold Event.marks Event.unmarks
  rw [herror]
  constructor
  · split
    · next heq => exact nomatch heq
    · rfl
  · split
    · next heq => exact nomatch heq
    · rfl

end Counts

/-! ## The invariant -/

/-- The id was handed out before the state. -/
def Drawn (supply : Nat → String) (s : Db) (id : String) : Prop := ∃ n, n < s.drawn ∧ supply n = id

theorem Drawn.mono {supply : Nat → String} (h : Drawn supply s id) (hle : s.drawn ≤ s'.drawn) :
    Drawn supply s' id := by
  obtain ⟨n, hn, rfl⟩ := h
  exact ⟨n, lt_of_lt_of_le hn hle, rfl⟩

/-- What a row's attempt fields say. -/
structure Counts (supply : Nat → String) (trace : List Event) (r : MutationOutboxRecord) : Prop where
  balance : priorUnresolvedAttempts r + unmarksOf supply trace r.clientMutationId =
    marksOf supply trace r.clientMutationId
  attempted : r.attempted = some (decide (0 < priorUnresolvedAttempts r))
  canceled : r.state = .canceled → priorUnresolvedAttempts r = 0

structure Accounted (supply : Nat → String) (trace : List Event) (s : Db) : Prop where
  keys : ∀ r ∈ s.outbox, Drawn supply s r.clientMutationId
  marked : ∀ id, 0 < marksOf supply trace id → Drawn supply s id
  counts : ∀ r ∈ s.outbox, r.state ≠ .superseded → Counts supply trace r

section Step

variable {supply : Nat → String} {trace : List Event} {event : Event}

/-- A born row's id was never handed out before. -/
theorem Born.fresh (hinj : Function.Injective supply) (h : Born supply s s' r) :
    ¬ Drawn supply s r.clientMutationId := by
  rintro ⟨m, hm, hid⟩
  obtain ⟨n, hle, -, hn⟩ := h.drawn
  have := hinj (hid.trans hn.symm)
  omega

theorem prior_of_fields (hattempted : r'.attempted = r.attempted)
    (hunresolved : r'.unresolvedAttempts = r.unresolvedAttempts) :
    priorUnresolvedAttempts r' = priorUnresolvedAttempts r := by
  unfold priorUnresolvedAttempts
  rw [hattempted, hunresolved]

theorem prior_of_some {n : Nat} (h : r.unresolvedAttempts = some n) :
    priorUnresolvedAttempts r = n := by
  unfold priorUnresolvedAttempts
  rw [h]

/-- A refusal takes one attempt off the count, and the boolean follows. -/
theorem unmarkedRow_fields (crossed : Bool) (hw : Waiting r)
    (hattempted : r.attempted = some (decide (0 < priorUnresolvedAttempts r)))
    (hpos : 0 < priorUnresolvedAttempts r) :
    (unmarkedRow crossed r).unresolvedAttempts = some (priorUnresolvedAttempts r - 1) ∧
      (unmarkedRow crossed r).attempted = some (decide (0 < priorUnresolvedAttempts r - 1)) ∧
      ((unmarkedRow crossed r).state = .canceled → priorUnresolvedAttempts r - 1 = 0) := by
  unfold unmarkedRow drainedRow
  dsimp only
  split
  · next hsub =>
    split
    · split
      · next hmore => exact ⟨rfl, by simp [hmore], nofun⟩
      · next hlast =>
        have hzero : priorUnresolvedAttempts r - 1 = 0 := by omega
        rw [hzero]
        exact ⟨rfl, rfl, fun _ => rfl⟩
    · refine ⟨rfl, rfl, fun hcanceled => ?_⟩
      exact absurd (hsub.symm.trans hcanceled) (by decide)
  · next hsub =>
    have hblocked : r.state = .blockedUnknown := hw.resolve_left hsub
    split
    · next hmany =>
      refine ⟨rfl, ?_, fun hcanceled => ?_⟩
      · have hmore : 0 < priorUnresolvedAttempts r - 1 := by omega
        rw [hattempted]
        simp [hpos, hmore]
      · exact absurd (hblocked.symm.trans hcanceled) (by decide)
    · have hzero : priorUnresolvedAttempts r - 1 = 0 := by omega
      rw [hzero]
      split
      · exact ⟨rfl, rfl, fun _ => rfl⟩
      · exact ⟨rfl, rfl, nofun⟩

/-- A mark that a Stop turned back leaves the count, and cancels only at zero. -/
theorem fencedRow_counts {e : Nat}
    (hattempted : r.attempted = some (decide (0 < priorUnresolvedAttempts r)))
    (hepoch : r.stopEpochAtEnqueue.isNone = false) :
    (fencedRow r e (markUncertain r)).unresolvedAttempts = some (priorUnresolvedAttempts r) ∧
      (fencedRow r e (markUncertain r)).attempted =
        some (decide (0 < priorUnresolvedAttempts r)) ∧
      ((fencedRow r e (markUncertain r)).state = .canceled → priorUnresolvedAttempts r = 0) := by
  have huncertain : markUncertain r = decide (0 < priorUnresolvedAttempts r) := by
    unfold markUncertain evidenced
    rw [hepoch, hattempted, Bool.false_and, Bool.or_false]
    by_cases hpos : 0 < priorUnresolvedAttempts r <;> simp [hpos]
  unfold fencedRow
  rw [huncertain]
  by_cases hpos : 0 < priorUnresolvedAttempts r
  · rw [decide_eq_true hpos, if_pos rfl]
    exact ⟨rfl, rfl, nofun⟩
  · have hzero : priorUnresolvedAttempts r = 0 := by omega
    rw [decide_eq_false hpos, if_neg Bool.false_ne_true, hzero]
    exact ⟨rfl, rfl, fun _ => rfl⟩

/-- A row the event neither marked nor refused keeps its balance. -/
theorem Counts.carry (h : Counts supply trace r) (hkey : r'.clientMutationId = r.clientMutationId)
    (hprior : priorUnresolvedAttempts r' = priorUnresolvedAttempts r)
    (hattempted : r'.attempted = r.attempted)
    (hcanceled : r'.state = .canceled → priorUnresolvedAttempts r = 0)
    (hmarks : event.marks supply r.clientMutationId = false)
    (hunmarks : event.unmarks supply r.clientMutationId = false) :
    Counts supply (trace ++ [event]) r' := by
  refine ⟨?_, ?_, fun hstate => hprior.trans (hcanceled hstate)⟩
  · rw [hkey, hprior, marksOf_append, unmarksOf_append, hmarks, hunmarks]
    exact h.balance
  · rw [hattempted, hprior]
    exact h.attempted

/-- No event marks or refuses a row that its call did not name. -/
theorem no_marks (hok : (event.result supply).1 = .ok reply) (hop : event.step.op.attemptId = none)
    (id : String) : event.marks supply id = false ∧ event.unmarks supply id = false := by
  refine ⟨Bool.eq_false_iff.mpr fun hmark => ?_, Bool.eq_false_iff.mpr fun hunmark => ?_⟩
  · rw [((marks_iff hok).mp hmark).1] at hop
    exact nomatch hop
  · rw [(unmarks_iff hok).mp hunmark] at hop
    exact nomatch hop

theorem Counts.step (hinj : Function.Injective supply) (htidy : Tidy event.before.db)
    (hfenced : Fenced supply trace event.before.db)
    (hanswers : AnswersOnce supply (trace ++ [event])) (h : Accounted supply trace event.before.db)
    (hok : (event.result supply).1 = .ok reply)
    (heffect : Effect supply event.before.sweeps event.before.db event.step.op reply (event.after supply).db)
    (hr' : r' ∈ (event.after supply).db.outbox) (hlive : r'.state ≠ .superseded) :
    Counts supply (trace ++ [event]) r' := by
  cases heffect.fate htidy hr' with
  | @stepped r _ hr hstep _ huntouched =>
    have hlive' : r.state ≠ .superseded := by
      intro hsuperseded
      rcases hstep.state with hsame | ⟨hw, -⟩
      · exact hlive (hsame.trans hsuperseded)
      · exact hw.elim (fun hs => by rw [hs] at hsuperseded; exact nomatch hsuperseded)
          fun hs => by rw [hs] at hsuperseded; exact nomatch hsuperseded
    have hcounts := h.counts r hr hlive'
    have hmarks : event.marks supply r.clientMutationId = false := by
      refine Bool.eq_false_iff.mpr fun hmark => ?_
      obtain ⟨hop, hreply⟩ := (marks_iff hok).mp hmark
      exact absurd ((huntouched.1 hop).symm.trans hreply) (by simp)
    -- a refusal that left the row alone would be one of a canceled row, which has no attempts
    have hunmarks : event.unmarks supply r.clientMutationId = false := by
      refine Bool.eq_false_iff.mpr fun hunmark => ?_
      have hnot := huntouched.2 ((unmarks_iff hok).mp hunmark)
      have hcanceled : r.state = .canceled := by
        cases hstate : r.state with
        | submitting => exact absurd (Or.inl hstate) hnot
        | blockedUnknown => exact absurd (Or.inr hstate) hnot
        | canceled => rfl
        | superseded => exact absurd hstate hlive'
      have hlt := hanswers.last hunmark
      have hbalance := hcounts.balance
      rw [hcounts.canceled hcanceled] at hbalance
      omega
    refine hcounts.carry (congrArg _ hstep.record)
      (prior_of_fields hstep.attempted hstep.unresolved) hstep.attempted (fun hstate => ?_) hmarks
      hunmarks
    rcases hstep.state with hsame | ⟨-, hblocked | hsuperseded | ⟨-, hattempted⟩⟩
    · exact hcounts.canceled (hsame.symm.trans hstate)
    · exact absurd (hblocked.symm.trans hstate) (by decide)
    · exact absurd hsuperseded hlive
    · have := hcounts.attempted
      rw [hattempted] at this
      simpa using this.symm
  | @marked r hr hop hreply hstate _ =>
    have hcounts := h.counts r hr (by rw [hstate]; decide)
    have hmarks : event.marks supply r.clientMutationId = true := (marks_iff hok).mpr ⟨hop, hreply⟩
    have hunmarks : event.unmarks supply r.clientMutationId = false := by
      refine Bool.eq_false_iff.mpr fun hunmark => ?_
      exact absurd (hop.symm.trans ((unmarks_iff hok).mp hunmark)) (by simp)
    have hprior : priorUnresolvedAttempts (markedRow r (keptBaseline event.before.db.toStores r)) =
        priorUnresolvedAttempts r + 1 := prior_of_some rfl
    refine ⟨?_, ?_, fun hcanceled => absurd (hstate.symm.trans hcanceled) (by decide)⟩
    · show priorUnresolvedAttempts (markedRow r _) +
        unmarksOf supply (trace ++ [event]) r.clientMutationId =
          marksOf supply (trace ++ [event]) r.clientMutationId
      rw [hprior, marksOf_append, unmarksOf_append, hmarks, hunmarks]
      have := hcounts.balance
      simp only [if_true, Bool.false_eq_true, if_false]
      omega
    · rw [hprior]
      simp [markedRow]
  | @fenced r hr hop hreply hstate _ =>
    have hcounts := h.counts r hr (by rw [hstate]; decide)
    obtain ⟨e, he, -⟩ := (hfenced.lags r hr).target
    obtain ⟨hunresolved, hattempted, hcanceled⟩ := fencedRow_counts
      (e := markBaseline event.before.db.toStores r) hcounts.attempted (by rw [he]; rfl)
    have hkey := (sameFence_fencedRow (s := event.before.db.toStores) he (markUncertain r)).key
    refine hcounts.carry hkey (prior_of_some hunresolved) (hattempted.trans hcounts.attempted.symm)
      hcanceled ?_ ?_
    · refine Bool.eq_false_iff.mpr fun hmark => ?_
      exact absurd (hreply.symm.trans ((marks_iff hok).mp hmark).2) (by simp)
    · refine Bool.eq_false_iff.mpr fun hunmark => ?_
      exact absurd (hop.symm.trans ((unmarks_iff hok).mp hunmark)) (by simp)
  | @unmarked r crossed hr hop hw =>
    have hcounts := h.counts r hr (by
      rcases hw with hstate | hstate
      · rw [hstate]; decide
      · rw [hstate]; decide)
    have hunmarks : event.unmarks supply r.clientMutationId = true := (unmarks_iff hok).mpr hop
    have hmarks : event.marks supply r.clientMutationId = false := by
      refine Bool.eq_false_iff.mpr fun hmark => ?_
      exact absurd (hop.symm.trans ((marks_iff hok).mp hmark).1) (by simp)
    have hbalance := hcounts.balance
    have hpos : 0 < priorUnresolvedAttempts r := by
      have := hanswers.last hunmarks
      omega
    obtain ⟨hunresolved, hattempted, hcanceled⟩ :=
      unmarkedRow_fields crossed hw hcounts.attempted hpos
    have hprior := prior_of_some hunresolved
    refine ⟨?_, by rw [hprior]; exact hattempted, fun hstate => hprior.trans (hcanceled hstate)⟩
    rw [(sameFence_unmarkedRow crossed r).key, hprior, marksOf_append, unmarksOf_append, hmarks,
      hunmarks]
    simp only [if_true, Bool.false_eq_true, if_false]
    omega
  | @moved r fromRef toRef identity mutations n hr hstate hop hreply _ =>
    have hnone := no_marks hok (by rw [hop]; rfl) r.clientMutationId
    exact (h.counts r hr hlive).carry rfl rfl rfl (fun hcanceled => absurd hcanceled hstate)
      hnone.1 hnone.2
  | born hborn hop =>
    have hnone := no_marks hok hop r'.clientMutationId
    have hzero : marksOf supply trace r'.clientMutationId = 0 := by
      by_contra hpos
      exact hborn.fresh hinj (h.marked _ (Nat.pos_of_ne_zero hpos))
    have hle := hanswers.init.le r'.clientMutationId
    have hprior : priorUnresolvedAttempts r' = 0 := by
      unfold priorUnresolvedAttempts
      rw [hborn.unresolved, hborn.attempted]
      rfl
    refine ⟨?_, by rw [hprior]; exact hborn.attempted, fun _ => hprior⟩
    rw [marksOf_append, unmarksOf_append, hnone.1, hnone.2, hprior]
    simp only [Bool.false_eq_true, if_false]
    omega

theorem Fate.drawn {op : OutboxOp} (hkeys : ∀ r ∈ s.outbox, Drawn supply s r.clientMutationId)
    (hle : s.drawn ≤ s'.drawn) (h : Fate supply s s' op reply r') :
    Drawn supply s' r'.clientMutationId := by
  cases h with
  | stepped hr hstep _ _ =>
    have hkey := congrArg MutationRecord.clientMutationId hstep.record
    rw [hkey]
    exact (hkeys _ hr).mono hle
  | marked hr _ _ _ _ => exact (hkeys _ hr).mono hle
  | fenced hr _ _ _ _ =>
    rw [(sameSlot_fencedRow _ _ _).key]
    exact (hkeys _ hr).mono hle
  | unmarked crossed hr _ _ =>
    rw [(sameSlot_unmarkedRow _ _).key]
    exact (hkeys _ hr).mono hle
  | moved n hr _ _ _ _ => exact (hkeys _ hr).mono hle
  | born hborn _ =>
    obtain ⟨n, -, hlt, hn⟩ := hborn.drawn
    exact ⟨n, hlt, hn⟩

theorem Accounted.step (hinj : Function.Injective supply) (htidy : Tidy event.before.db)
    (hfenced : Fenced supply trace event.before.db)
    (hanswers : AnswersOnce supply (trace ++ [event]))
    (h : Accounted supply trace event.before.db) :
    Accounted supply (trace ++ [event]) (event.after supply).db := by
  rcases event.outcome supply htidy with ⟨reply, hok, heffect⟩ | ⟨e, n, herror, hle, -, hafter⟩
  · have hle := heffect.drawn_le
    refine ⟨fun r' hr' => (heffect.fate htidy hr').drawn h.keys hle, fun id hid => ?_,
      fun r' hr' hlive => Counts.step hinj htidy hfenced hanswers h hok heffect hr' hlive⟩
    rw [marksOf_append] at hid
    split at hid
    · next hmark =>
      obtain ⟨hop, rfl⟩ := (marks_iff hok).mp hmark
      generalize (event.after supply).db = s' at heffect ⊢
      rw [hop] at heffect
      cases heffect with
      | idle hidle => exact absurd hidle (by simp [Idle])
      | @marked _ r hr hkey _ _ =>
        rw [← hkey]
        exact (h.keys r hr).mono le_rfl
    · exact (h.marked id hid).mono hle
  · have hnone := marks_of_error herror
    have hcarry : ∀ id, Drawn supply event.before.db id → Drawn supply (event.after supply).db id := by
      intro id hid
      refine hid.mono ?_
      rw [hafter]
      exact hle
    refine ⟨fun r hr => ?_, fun id hid => ?_, fun r hr hlive => ?_⟩
    · rw [hafter] at hr
      exact hcarry _ (h.keys r hr)
    · rw [marksOf_append, (hnone id).1] at hid
      exact hcarry _ (h.marked id hid)
    · rw [hafter] at hr
      have hcounts := h.counts r hr hlive
      exact hcounts.carry rfl rfl rfl hcounts.canceled (hnone _).1 (hnone _).2

end Step

/-! ## Ends of a row's life -/

section Ends

variable {supply : Nat → String}

/-- Whatever the outbox holds under the key is in the state, and the key was handed out. -/
structure Ended (supply : Nat → String) (key : String) (state : MutationOutboxState) (s : Db) :
    Prop where
  drawn : Drawn supply s key
  rows : ∀ r ∈ s.outbox, r.clientMutationId = key → r.state = state

theorem Ended.step (hinj : Function.Injective supply) {state : MutationOutboxState}
    (hend : state = .canceled ∨ state = .superseded) (event : Event) (htidy : Tidy event.before.db)
    (h : Ended supply key state event.before.db) :
    Ended supply key state (event.after supply).db := by
  have hnot : ∀ r, r.state = state → ¬ Waiting r := by
    rintro r hr (hs | hs)
    · rcases hend with rfl | rfl <;> exact absurd (hs.symm.trans hr) (by decide)
    · rcases hend with rfl | rfl <;> exact absurd (hs.symm.trans hr) (by decide)
  rcases event.outcome supply htidy with ⟨reply, hok, heffect⟩ | ⟨e, n, herror, hle, -, hafter⟩
  · refine ⟨h.drawn.mono heffect.drawn_le, fun r' hr' hkey => ?_⟩
    cases heffect.fate htidy hr' with
    | @stepped r _ hr hstep _ _ =>
      have hstate := h.rows r hr ((congrArg MutationRecord.clientMutationId hstep.record).symm.trans hkey)
      rcases hstep.state with hsame | ⟨hw, -⟩
      · exact hsame.trans hstate
      · exact absurd hw (hnot r hstate)
    | marked hr _ _ hsub _ => exact absurd (Or.inl hsub) (hnot _ (h.rows _ hr hkey))
    | fenced hr _ _ hsub _ =>
      rw [(sameSlot_fencedRow _ _ _).key] at hkey
      exact absurd (Or.inl hsub) (hnot _ (h.rows _ hr hkey))
    | unmarked crossed hr _ hw =>
      rw [(sameSlot_unmarkedRow _ _).key] at hkey
      exact absurd hw (hnot _ (h.rows _ hr hkey))
    | @moved r _ _ _ _ n hr _ _ _ _ => exact h.rows r hr hkey
    | born hborn _ =>
      subst hkey
      exact absurd h.drawn (hborn.fresh hinj)
  · rw [hafter]
    exact ⟨h.drawn.mono hle, h.rows⟩

theorem Ended.run (hinj : Function.Injective supply) {state : MutationOutboxState}
    (hend : state = .canceled ∨ state = .superseded) (steps : List Step) {w : World}
    (htidy : Tidy w.db) (h : Ended supply key state w.db) :
    Ended supply key state (run supply w steps).db := by
  induction steps generalizing w with
  | nil => exact h
  | cons step steps ih =>
    exact ih (Tidy.event supply ⟨w, step⟩ htidy)
      (Ended.step hinj hend ⟨w, step⟩ htidy h)

theorem nextDispatchableOf_submitting {rows : List MutationOutboxRecord}
    (h : nextDispatchableOf rows = some r) : r.state = .submitting := by
  induction rows with
  | nil => exact nomatch h
  | cons x rows ih =>
    unfold nextDispatchableOf at h
    split at h
    · next hstate => rw [← Option.some.inj h, hstate]
    · split at h
      · exact ih h
      · exact nomatch h
    · exact ih h
    · exact ih h

end Ends

/-! ## Whole runs -/

section Runs

variable (supply : Nat → String)

theorem accounted_run (hinj : Function.Injective supply) (steps : List Step)
    (hanswers : AnswersOnce supply (events supply {} steps)) :
    Accounted supply (events supply {} steps) (run supply {} steps).db := by
  have hstart : Accounted supply [] ({} : World).db :=
    ⟨fun _ hr => absurd hr not_mem_nil, fun _ hid => absurd hid (lt_irrefl 0),
      fun _ hr => absurd hr not_mem_nil⟩
  induction steps using List.reverseRecOn with
  | nil => exact hstart
  | append_singleton steps step ih =>
    rw [events_append] at hanswers ⊢
    rw [run_append]
    exact Accounted.step hinj (tidy_run supply steps) (fenced_run supply steps) hanswers
      (ih hanswers.init)

/-- A mark of a row that is not submitting lets nothing out. -/
theorem mark_of_not_submitting {w : World} (htidy : Tidy w.db)
    (hrows : ∀ r ∈ w.db.outbox, r.clientMutationId = key → r.state ≠ .submitting)
    (fault : Option OutboxError) :
    (Event.result supply ⟨w, ⟨.markAttempted key, fault⟩⟩).1 ≠ .ok (.flag true) := by
  intro hmark
  rcases Event.outcome supply ⟨w, ⟨.markAttempted key, fault⟩⟩ htidy with
    ⟨reply, hok, heffect⟩ | ⟨e, n, herror, -⟩
  · rw [hmark] at hok
    obtain rfl := (Except.ok.inj hok).symm
    generalize (Event.after supply ⟨w, ⟨.markAttempted key, fault⟩⟩).db = s' at heffect
    cases heffect with
    | idle hidle => exact absurd hidle (by simp [Idle])
    | marked hr hkey hstate _ => exact hrows _ hr hkey hstate
  · rw [hmark] at herror
    cases herror

/-- Attempt accounting across tabs. The count of every row that is not superseded is the number
    of marks that let it out less the refusals, and the boolean says whether that is positive; a
    canceled row has no attempt left open and stays canceled, and a superseded row stays
    superseded and is neither picked for dispatch nor let out by a mark. -/
theorem attempts_accounted (hinj : Function.Injective supply) (steps : List Step)
    (hanswers : AnswersOnce supply (events supply {} steps)) :
    (∀ r ∈ (run supply {} steps).db.outbox, r.state ≠ .superseded →
      (priorUnresolvedAttempts r : Int) =
        marksOf supply (events supply {} steps) r.clientMutationId -
          unmarksOf supply (events supply {} steps) r.clientMutationId ∧
      (r.attempted = some true ↔
        (0 : Int) < marksOf supply (events supply {} steps) r.clientMutationId -
          unmarksOf supply (events supply {} steps) r.clientMutationId)) ∧
    (∀ r ∈ (run supply {} steps).db.outbox, r.state = .canceled →
      marksOf supply (events supply {} steps) r.clientMutationId =
        unmarksOf supply (events supply {} steps) r.clientMutationId) ∧
    (∀ earlier later, steps = earlier ++ later → ∀ r ∈ (run supply {} earlier).db.outbox,
      ∀ r' ∈ (run supply {} steps).db.outbox, r'.clientMutationId = r.clientMutationId →
      (r.state = .canceled → r'.state = .canceled) ∧
      (r.state = .superseded → r'.state = .superseded ∧
        (∀ ref, nextDispatchable (run supply {} steps).db.toStores ref ≠ some r') ∧
        ∀ fault, (Event.result supply
          ⟨run supply {} steps, ⟨.markAttempted r.clientMutationId, fault⟩⟩).1 ≠
            .ok (.flag true))) := by
  have haccounted := accounted_run supply hinj steps hanswers
  refine ⟨fun r hr hlive => ?_, fun r hr hcanceled => ?_, ?_⟩
  · have hcounts := haccounted.counts r hr hlive
    have hbalance := hcounts.balance
    refine ⟨by omega, ?_⟩
    rw [hcounts.attempted, Option.some.injEq, decide_eq_true_eq]
    omega
  · have hcounts := haccounted.counts r hr (by rw [hcanceled]; decide)
    have hbalance := hcounts.balance
    have hzero := hcounts.canceled hcanceled
    omega
  · rintro earlier later rfl r hr r' hr' hkey
    have hearlier : AnswersOnce supply (events supply {} earlier) := by
      intro before event after hsplit
      refine hanswers before event
        (after ++ events supply (run supply {} earlier) later) ?_
      rw [events_append, hsplit, append_assoc, cons_append]
    have htidy := tidy_run supply earlier
    have hdrawn := (accounted_run supply hinj earlier hearlier).keys r hr
    -- rows are told apart by their keys, so the state of one row is the state of its key
    have hended : ∀ state, r.state = state →
        Ended supply r.clientMutationId state (run supply {} earlier).db := by
      intro state hstate
      refine ⟨hdrawn, fun x hx hxkey => ?_⟩
      rw [htidy.outboxKeys.eq_of_key hx hr hxkey]
      exact hstate
    rw [run_append] at hr' ⊢
    refine ⟨fun hstate => ?_, fun hstate => ?_⟩
    · exact ((hended _ hstate).run hinj (Or.inl rfl) later htidy).rows r' hr' hkey
    · have hlater := (hended _ hstate).run hinj (Or.inr rfl) later htidy
      have hsuperseded := hlater.rows r' hr' hkey
      refine ⟨hsuperseded, fun ref hnext => ?_, ?_⟩
      · exact absurd ((nextDispatchableOf_submitting hnext).symm.trans hsuperseded) (by decide)
      · refine mark_of_not_submitting supply ?_ (fun x hx hxkey hsub => ?_)
        · rw [← run_append]
          exact tidy_run supply _
        · exact absurd (hsub.symm.trans (hlater.rows x hx hxkey)) (by decide)

end Runs

/-- A message sent, refused, and sent again. -/
def sendRefuseSend : List Step :=
  [⟨.enqueueIntent oneTab (sendTo "a") none, none⟩, ⟨.markAttempted "i", none⟩,
    ⟨.unmarkAttempted "i", none⟩, ⟨.markAttempted "i", none⟩]

theorem sendRefuseSend_answersOnce : AnswersOnce tallyIds (events tallyIds {} sendRefuseSend) := by
  have hnone : AnswersOnce tallyIds [] := by
    intro before event after hsplit
    exact absurd hsplit (by simp)
  refine AnswersOnce.append (AnswersOnce.append (AnswersOnce.append (AnswersOnce.append hnone
    ?_) ?_) ?_) ?_
  · exact fun id hunmark => absurd hunmark Bool.false_ne_true
  · exact fun id hunmark => absurd hunmark Bool.false_ne_true
  · intro id hunmark
    obtain rfl : "i" = id := of_decide_eq_true hunmark
    exact Nat.one_pos
  · exact fun id hunmark => absurd hunmark Bool.false_ne_true

theorem attempts_accounted_sendRefuseSend :
    ∃ r ∈ (run tallyIds {} sendRefuseSend).db.outbox, r.state ≠ .superseded ∧
      (priorUnresolvedAttempts r : Int) =
        marksOf tallyIds (events tallyIds {} sendRefuseSend) r.clientMutationId -
          unmarksOf tallyIds (events tallyIds {} sendRefuseSend) r.clientMutationId :=
  ⟨_, mem_singleton_self _, nofun,
    ((attempts_accounted tallyIds tallyIds_injective sendRefuseSend
      sendRefuseSend_answersOnce).1 _ (mem_singleton_self _) nofun).1⟩

end Evener.Outbox
