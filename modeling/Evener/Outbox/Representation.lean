/-
  The representation invariant of the outbox, over every call. Ids are assumed fresh.
-/
import Evener.Outbox.Represented

namespace Evener.Outbox

open Evener.Lib JsValue List

variable {a : MutationRecord} {r row source : MutationOutboxRecord} {c : MutationRecoveryRecord}
  {consumed : List MutationRecoveryRecord} {request : ResendRequest}

/-! ## Mints, transfers and resends -/

section Growth

variable {supply : Nat → String} {s : Db}

/-- A sweep that spares the new row may run before it joins. -/
theorem dropRows_insertRow {p : MutationOutboxRecord → Bool} (h : p row = false) (s : Db) :
    dropRows p (insertRow s row) = insertRow (dropRows p s) row := by
  unfold dropRows insertRow
  rw [filter_append, filter_cons_of_pos (by rw [h]; rfl)]
  rfl

/-- A mint settles its source and clears the older superseded rows of the wire before its own row
    joins. -/
def mintCleared (source : MutationOutboxRecord) (key : String) (s : Db) : Db :=
  dropRows (sweptRow (effectiveWireId source.toMutationRecord) [source.clientMutationId, key] true)
    (settledSource source s)

theorem minted_eq (source fresh : MutationOutboxRecord) (s : Db) :
    minted source fresh s = insertRow (mintCleared source fresh.clientMutationId s) fresh := by
  exact dropRows_insertRow (by simp [sweptRow]) _

theorem mem_mintCleared {key : String} (hkeys : KeysNodup outboxKey s.outbox) :
    r ∈ (mintCleared source key s).outbox ↔
      ((source.state = .blockedUnknown ∧ r = supersedeRow source) ∨
        (r ∈ s.outbox ∧ r.clientMutationId ≠ source.clientMutationId)) ∧
      sweptRow (effectiveWireId source.toMutationRecord) [source.clientMutationId, key] true r =
        false := by
  unfold mintCleared
  rw [mem_dropRows, mem_settledSource hkeys]

theorem Rep.mintCleared (h : Rep supply s) (htidy : Tidy s) (hsource : source ∈ s.outbox)
    {key : String}
    (hfree : ∀ r ∈ s.outbox, r.clientMutationId ≠ source.clientMutationId → r.clientMutationId ≠ key) :
    Rep supply (Outbox.mintCleared source key s) := by
  have hrow : ∀ r ∈ (Outbox.mintCleared source key s).outbox,
      (r = supersedeRow source) ∨ (r ∈ s.outbox ∧ r.clientMutationId ≠ source.clientMutationId ∧
        (effectiveWireId r.toMutationRecord = effectiveWireId source.toMutationRecord →
          r.state ≠ .superseded)) := by
    intro r hr
    obtain ⟨⟨-, rfl⟩ | ⟨hr, hne⟩, hswept⟩ := (mem_mintCleared htidy.outboxKeys).mp hr
    · exact Or.inl rfl
    · refine Or.inr ⟨hr, hne, fun hwire hsup => ?_⟩
      have := hfree r hr hne
      simp [sweptRow, carriesWire, hwire, hne, this, hsup] at hswept
  have hback : ∀ r ∈ (Outbox.mintCleared source key s).outbox, ∃ r₀ ∈ s.outbox,
      r₀.toMutationRecord = r.toMutationRecord := by
    intro r hr
    rcases hrow r hr with rfl | ⟨hr, -⟩
    · exact ⟨source, hsource, rfl⟩
    · exact ⟨r, hr, rfl⟩
  have hstores : (Outbox.mintCleared source key s).optimistic = s.optimistic ∧
      (Outbox.mintCleared source key s).recovery = s.recovery ∧
      (Outbox.mintCleared source key s).drawn = s.drawn := by
    unfold Outbox.mintCleared dropRows settledSource
    split <;> exact ⟨rfl, rfl, rfl⟩
  refine h.of_maps ?_ ?_ hstores.2.2.ge ?_ ?_ ?_
  · intro a ha
    rcases mem_workOf.mp ha with ⟨r, hr, rfl⟩ | ⟨c, hc, rfl⟩
    · obtain ⟨r₀, hr₀, heq⟩ := hback r hr
      exact ⟨_, mem_workOf.mpr (Or.inl ⟨r₀, hr₀, rfl⟩), SameWork.of_eq heq.symm⟩
    · rw [hstores.2.1] at hc
      exact ⟨_, mem_workOf.mpr (Or.inr ⟨c, hc, rfl⟩), SameWork.refl _⟩
  · intro a ha
    rcases mem_recordsOf.mp ha with ⟨r, hr, rfl⟩ | ⟨o, ho, rfl⟩ | ⟨c, hc, rfl⟩
    · obtain ⟨r₀, hr₀, heq⟩ := hback r hr
      exact ⟨_, row_mem_recordsOf hr₀, SameWork.of_eq heq.symm⟩
    · rw [hstores.1] at ho
      exact ⟨_, copy_mem_recordsOf ho, SameWork.refl _⟩
    · rw [hstores.2.1] at hc
      exact ⟨_, recovery_mem_recordsOf hc, SameWork.refl _⟩
  · intro r₁ hr₁ r₂ hr₂ hlive₁ hlive₂ heq
    rcases hrow r₁ hr₁ with rfl | ⟨hr₁, -⟩
    · exact absurd rfl hlive₁
    · rcases hrow r₂ hr₂ with rfl | ⟨hr₂, -⟩
      · exact absurd rfl hlive₂
      · exact h.live r₁ hr₁ r₂ hr₂ hlive₁ hlive₂ heq
  · intro r₁ hr₁ r₂ hr₂ hnote hsup₁ hsup₂ heq
    rcases hrow r₁ hr₁ with hnew₁ | ⟨hold₁, -, hnot₁⟩ <;>
      rcases hrow r₂ hr₂ with hnew₂ | ⟨hold₂, -, hnot₂⟩
    · rw [hnew₁, hnew₂]
    · rw [hnew₁] at heq
      exact absurd hsup₂ (hnot₂ heq.symm)
    · rw [hnew₂] at heq
      exact absurd hsup₁ (hnot₁ heq)
    · exact h.superseded r₁ hold₁ r₂ hold₂ hnote hsup₁ hsup₂ heq
  · rw [hstores.2.1]
    exact h.recoveries

theorem Rep.minted (h : Rep supply s) (hinj : Function.Injective supply) (htidy : Tidy s)
    {fresh : MutationOutboxRecord} (hmint : MintOf supply s source fresh) :
    Rep supply (Outbox.minted source fresh s) := by
  have hlive : source.state ≠ .superseded := by
    rcases hmint.state with hstate | hstate <;> rw [hstate] <;> decide
  obtain ⟨tab, bornCanceled, preserve, hrow⟩ := hmint.row
  have hkey : fresh.clientMutationId = supply s.drawn := by rw [hrow]; rfl
  have hwire := wire_mintedRow tab source (supply s.drawn)
    (lastSequenceOf s.sequences source.targetRef + 1) (epochOf s.sequences source.targetRef)
    (source.displayedRef.map (epochOf s.sequences)) bornCanceled preserve
  rw [← hrow] at hwire
  have hfree : ∀ r ∈ s.outbox, r.clientMutationId ≠ source.clientMutationId →
      r.clientMutationId ≠ fresh.clientMutationId := by
    intro r hr hne
    rw [hkey]
    refine hmint.free _ (row_mem_recordsOf ?_)
    exact (mem_settledSource htidy.outboxKeys).mpr (Or.inr ⟨hr, hne⟩)
  have hcleared := h.mintCleared htidy hmint.held hfree
  have hdrawn : (Outbox.mintCleared source fresh.clientMutationId s).drawn = s.drawn :=
    settledSource_drawn source
  have hfree' : KeyFree (Outbox.mintCleared source fresh.clientMutationId s).toStores
      fresh.clientMutationId := by
    intro a ha
    rw [hkey]
    refine hmint.free a ?_
    rcases mem_recordsOf.mp ha with ⟨r, hr, rfl⟩ | ⟨o, ho, rfl⟩ | ⟨c, hc, rfl⟩
    · exact row_mem_recordsOf (mem_dropRows.mp hr).1
    · exact copy_mem_recordsOf ho
    · exact recovery_mem_recordsOf hc
  have hstate : fresh.state ≠ .superseded := by
    rw [hrow]
    unfold mintedRow
    dsimp only
    split <;> decide
  rw [minted_eq]
  split at hwire
  · -- the inherited wire: its one live row was the source
    refine hcleared.insertRow hfree' ?_ (fun a ha heq => ?_) hstate fun r hr hrlive heq => ?_
    · rw [hwire]
      refine (h.wires _ (mem_workOf.mpr (Or.inl ⟨source, hmint.held, rfl⟩))).mono ?_
      show s.drawn ≤ (Outbox.mintCleared source fresh.clientMutationId s).drawn + 1
      omega
    · have hmethod : fresh.method = source.method := by rw [hrow]; rfl
      rw [hmethod]
      rw [hwire] at heq
      rcases mem_workOf.mp ha with ⟨r, hr, rfl⟩ | ⟨c, hc, rfl⟩
      · obtain ⟨⟨-, rfl⟩ | ⟨hr, -⟩, -⟩ := (mem_mintCleared htidy.outboxKeys).mp hr
        · rfl
        · exact h.row_methods hr hmint.held heq
      · have hc : c ∈ s.recovery := by
          unfold Outbox.mintCleared dropRows settledSource at hc
          split at hc <;> exact hc
        exact h.methods _ (mem_workOf.mpr (Or.inr ⟨c, hc, rfl⟩)) _
          (mem_workOf.mpr (Or.inl ⟨source, hmint.held, rfl⟩)) heq
    · rw [hwire] at heq
      obtain ⟨⟨-, rfl⟩ | ⟨hr, hne⟩, -⟩ := (mem_mintCleared htidy.outboxKeys).mp hr
      · exact absurd rfl hrlive
      · exact absurd (h.live r hr source hmint.held hrlive hlive heq) hne
  · rw [← hdrawn] at hwire
    exact hcleared.insertOwn hinj hfree' hwire hstate

theorem Rep.transferred (h : Rep supply s) (hr : r ∈ s.outbox)
    (hsame : SameWork c.toMutationRecord r.toMutationRecord)
    (hnocopy : r.method ≠ humanNoteMethod → NoCopy s.toStores (effectiveWireId r.toMutationRecord)) :
    Rep supply (Outbox.transferred r c s) := by
  have hrec : ∀ x ∈ (Outbox.transferred r c s).recovery, x = c ∨ x ∈ s.recovery := by
    intro x hx
    rcases mem_append.mp hx with hx | hx
    · exact Or.inr hx
    · exact Or.inl (mem_singleton.mp hx)
  have hrow : ∀ x ∈ (Outbox.transferred r c s).outbox, x ∈ s.outbox :=
    fun x hx => (mem_erase.mp hx).1
  refine h.of_maps ?_ ?_ le_rfl ?_ ?_ ?_
  · intro a ha
    rcases mem_workOf.mp ha with ⟨x, hx, rfl⟩ | ⟨x, hx, rfl⟩
    · exact ⟨_, mem_workOf.mpr (Or.inl ⟨x, hrow x hx, rfl⟩), SameWork.refl _⟩
    · rcases hrec x hx with rfl | hx
      · exact ⟨_, mem_workOf.mpr (Or.inl ⟨r, hr, rfl⟩), hsame⟩
      · exact ⟨_, mem_workOf.mpr (Or.inr ⟨x, hx, rfl⟩), SameWork.refl _⟩
  · intro a ha
    rcases mem_recordsOf.mp ha with ⟨x, hx, rfl⟩ | ⟨o, ho, rfl⟩ | ⟨x, hx, rfl⟩
    · exact ⟨_, row_mem_recordsOf (hrow x hx), SameWork.refl _⟩
    · exact ⟨_, copy_mem_recordsOf ho, SameWork.refl _⟩
    · rcases hrec x hx with rfl | hx
      · exact ⟨_, row_mem_recordsOf hr, hsame⟩
      · exact ⟨_, recovery_mem_recordsOf hx, SameWork.refl _⟩
  · exact fun r₁ hr₁ r₂ hr₂ => h.live r₁ (hrow r₁ hr₁) r₂ (hrow r₂ hr₂)
  · exact fun r₁ hr₁ r₂ hr₂ => h.superseded r₁ (hrow r₁ hr₁) r₂ (hrow r₂ hr₂)
  · -- the wire had no recovery row, or it is a note's
    have hclash : ∀ x ∈ s.recovery, effectiveWireId x.toMutationRecord =
        effectiveWireId c.toMutationRecord → x.method = humanNoteMethod := by
      intro x hx heq
      by_contra hnote
      have hmethod := h.methods _ (mem_workOf.mpr (Or.inr ⟨x, hx, rfl⟩)) _
        (mem_workOf.mpr (Or.inl ⟨r, hr, rfl⟩)) (heq.trans hsame.wire)
      exact hnocopy (hmethod ▸ hnote) x hx (heq.trans hsame.wire)
    intro c₁ hc₁ c₂ hc₂ hnote heq
    rcases hrec c₁ hc₁ with hnew₁ | hold₁ <;> rcases hrec c₂ hc₂ with hnew₂ | hold₂
    · rw [hnew₁, hnew₂]
    · rw [hnew₁] at heq hnote
      have hc₂note := hclash c₂ hold₂ heq.symm
      have hmethod := h.methods _ (mem_workOf.mpr (Or.inr ⟨c₂, hold₂, rfl⟩)) _
        (mem_workOf.mpr (Or.inl ⟨r, hr, rfl⟩)) (heq.symm.trans hsame.wire)
      exact absurd (hsame.method.trans (hmethod.symm.trans hc₂note)) hnote
    · rw [hnew₂] at heq
      exact absurd (hclash c₁ hold₁ heq) hnote
    · exact h.recoveries c₁ hold₁ c₂ hold₂ hnote heq

/-- What a resend that keeps a wire has checked. -/
structure ReplayOf (intent : MutationIntent) (consumed : List MutationRecoveryRecord)
    (wireId method : String) : Prop where
  wires : ∀ c ∈ consumed, effectiveWireId c.toMutationRecord = wireId
  methods : ∀ c ∈ consumed, c.method = method
  replays : ∀ c ∈ consumed, replaysOriginal intent c = true
  uncertain : ∃ c ∈ consumed, c.wireDeliveryUncertain = some true

theorem uncertainReplay_spec {intent : MutationIntent} {wireId method : String}
    (h : uncertainReplay intent consumed = some (wireId, method)) :
    ReplayOf intent consumed wireId method := by
  unfold uncertainReplay at h
  split at h
  · next w first hwires hfirst =>
    split at h
    · next hguard =>
      obtain ⟨rfl, rfl⟩ := Prod.mk.inj (Option.some.inj h)
      simp only [Bool.and_eq_true, all_eq_true, any_eq_true, decide_eq_true_eq] at hguard
      obtain ⟨⟨hreplays, huncertain⟩, hmethods⟩ := hguard
      refine ⟨fun c hc => ?_, hmethods, hreplays, huncertain⟩
      have hmem : effectiveWireId c.toMutationRecord ∈
          (consumed.map fun c => effectiveWireId c.toMutationRecord).eraseDups :=
        mem_eraseDups.mpr (mem_map_of_mem hc)
      rw [hwires] at hmem
      exact mem_singleton.mp hmem
    · exact nomatch h
  · exact nomatch h

/-- What a resend clears before its row joins. -/
def resendCleared (request : ResendRequest) (consumed : List MutationRecoveryRecord)
    (key : String) (s : Db) : Db :=
  let ids := request.sourceIds.eraseDups
  dropRecovery (fun c => ids.contains c.clientMutationId)
    (dropRows (sweptByAny (consumed.map fun c => effectiveWireId c.toMutationRecord).eraseDups
      (key :: ids)) s)

theorem sweptByAny_iff {wires excluded : List String} :
    sweptByAny wires excluded r = true ↔
      effectiveWireId r.toMutationRecord ∈ wires ∧ r.clientMutationId ∉ excluded := by
  simp only [sweptByAny, sweptRow, carriesWire, any_eq_true, Bool.and_eq_true,
    decide_eq_true_eq, Bool.not_eq_true', contains_eq_mem, decide_eq_false_iff_not,
    Bool.not_false, Bool.true_or, and_true]
  constructor
  · rintro ⟨w, hw, rfl, hne⟩
    exact ⟨hw, hne⟩
  · rintro ⟨hw, hne⟩
    exact ⟨_, hw, rfl, hne⟩

theorem resent_eq (request : ResendRequest) (consumed : List MutationRecoveryRecord)
    (row : MutationOutboxRecord) (s : Db) : resent request consumed row s =
      insertRow (resendCleared request consumed row.clientMutationId s) row := by
  have hkept : sweptByAny (consumed.map fun c => effectiveWireId c.toMutationRecord).eraseDups
      (row.clientMutationId :: request.sourceIds.eraseDups) row = false := by
    rw [← Bool.not_eq_true, sweptByAny_iff]
    exact fun h => h.2 mem_cons_self
  unfold resent
  dsimp only
  rw [dropRows_insertRow hkept]
  rfl

theorem shrinks_resendCleared (request : ResendRequest) (consumed : List MutationRecoveryRecord)
    (key : String) (s : Db) : Shrinks s (resendCleared request consumed key s) :=
  (shrinks_dropRows _ s).trans (shrinks_dropRecovery _ _)

theorem ResendOf.mem_consumed (h : ResendOf supply s request consumed row) (hc : c ∈ consumed) :
    c ∈ s.recovery := by
  rw [h.consumed_eq] at hc
  obtain ⟨id, -, hfound⟩ := mem_filterMap.mp hc
  exact mem_of_lookup hfound

/-- No outbox row has a key the resend names. -/
theorem ResendOf.sourceIds_not_row (h : ResendOf supply s request consumed row) (htidy : Tidy s)
    (hr : r ∈ s.outbox) : r.clientMutationId ∉ request.sourceIds.eraseDups := by
  intro hmem
  obtain ⟨c, hc, hkey⟩ := h.held _ (mem_eraseDups.mp hmem)
  exact htidy.disjoint r hr c (h.mem_consumed hc) hkey.symm

theorem Rep.resent (h : Rep supply s) (hinj : Function.Injective supply) (htidy : Tidy s)
    (hresend : ResendOf supply s request consumed row) :
    Rep supply (Outbox.resent request consumed row s) := by
  obtain ⟨tab, hrow⟩ := hresend.row_eq
  have hkey : row.clientMutationId = supply s.drawn := by rw [hrow]; rfl
  have hwire := wire_resentRow tab request (uncertainReplay request.intent consumed)
    (supply s.drawn) (lastSequenceOf s.sequences request.intent.targetRef + 1)
    (epochOf s.sequences request.intent.targetRef)
    ((request.displayedBarrier.map fun captured =>
      epochOf s.sequences captured.displayedRef).getD 0)
  rw [← hrow] at hwire
  have hcleared := h.shrink (shrinks_resendCleared request consumed row.clientMutationId s)
  have hfree : KeyFree (resendCleared request consumed row.clientMutationId s).toStores
      row.clientMutationId := by
    intro a ha
    rw [hkey]
    refine hresend.free a ?_
    rcases mem_recordsOf.mp ha with ⟨r, hr, rfl⟩ | ⟨o, ho, rfl⟩ | ⟨c, hc, rfl⟩
    · exact row_mem_recordsOf (mem_dropRows.mp hr).1
    · exact copy_mem_recordsOf ho
    · exact recovery_mem_recordsOf (mem_dropRecovery.mp hc).1
  have hstate : row.state ≠ .superseded := by
    rw [hrow]
    unfold resentRow
    dsimp only
    split <;> decide
  rw [resent_eq]
  cases hreplay : uncertainReplay request.intent consumed with
  | none =>
    rw [hreplay] at hwire
    exact hcleared.insertOwn hinj hfree hwire hstate
  | some p =>
    have hspec := uncertainReplay_spec hreplay
    obtain ⟨first, hfirst, -⟩ := hspec.uncertain
    have hfirst' := hresend.mem_consumed hfirst
    rw [hreplay] at hwire
    dsimp only at hwire
    split at hwire
    · refine hcleared.insertRow hfree ?_ (fun a ha heq => ?_) hstate fun r hr _ heq => ?_
      · rw [hwire, ← hspec.wires first hfirst]
        refine (h.wires _ (mem_workOf.mpr (Or.inr ⟨first, hfirst', rfl⟩))).mono ?_
        exact Nat.le_succ _
      · have hmethod : row.method = first.method := by
          rw [hrow, hreplay, hspec.methods first hfirst]
          rfl
        obtain ⟨b, hb, hsame⟩ :=
          (shrinks_resendCleared request consumed row.clientMutationId s).work ha
        rw [hmethod, hsame.method]
        refine h.methods b hb _ (mem_workOf.mpr (Or.inr ⟨first, hfirst', rfl⟩)) ?_
        rw [← hsame.wire, heq, hwire, hspec.wires first hfirst]
      · -- the rows of the wire were swept
        obtain ⟨hr, hkept⟩ := mem_dropRows.mp hr
        have hswept : sweptByAny (consumed.map fun c => effectiveWireId c.toMutationRecord).eraseDups
            (row.clientMutationId :: request.sourceIds.eraseDups) r = true := by
          refine sweptByAny_iff.mpr ⟨?_, ?_⟩
          · rw [heq, hwire, ← hspec.wires first hfirst]
            exact mem_eraseDups.mpr (mem_map.mpr ⟨first, hfirst, rfl⟩)
          · rw [mem_cons, not_or]
            refine ⟨?_, hresend.sourceIds_not_row htidy hr⟩
            rw [hkey]
            exact hresend.free _ (row_mem_recordsOf hr)
        rw [hkept] at hswept
        exact Bool.false_ne_true hswept
    · exact hcleared.insertOwn hinj hfree hwire hstate

end Growth

/-! ## One call -/

section Step

variable {supply : Nat → String} {sweeps : List Sweep} {s s' : Db} {op : OutboxOp} {reply : Reply}

theorem Settling.shrinks {k : SettleKey} (h : Settling s k s')
    (hheld : k.subject ∈ recordsOf s.toStores) : Shrinks s s' := by
  refine ⟨fun r' hr' => ?_, fun o ho => ?_, fun c hc => ⟨c, h.recovery c hc, SameWork.refl _⟩,
    h.drawn.ge⟩
  · rcases h.rows r' hr' with hr | ⟨r, hr, hnote, rfl⟩
    · exact shrinks_self hr
    · refine ⟨r, hr, SameWork.refl _, fun hlive => absurd rfl hlive, fun _ hmethod => ?_⟩
      exact absurd hnote.1 hmethod
  · rcases h.copies o ho with ho | rfl
    · exact ⟨_, copy_mem_recordsOf ho, SameWork.refl _⟩
    · exact ⟨_, hheld, sameWork_accepted _⟩

theorem shrinks_stopped (ref : String) (s : Db) : Shrinks s (stopped ref s) := by
  refine ⟨fun r' hr' => ?_, (Shrinks.refl s).copies, (Shrinks.refl s).recovery, le_rfl⟩
  rcases mem_rewriteRows.mp hr' with ⟨r, hr, hp, rfl⟩ | ⟨hr', -⟩
  · obtain ⟨hw, -⟩ := isCancelableByStop_iff.mp (Bool.and_eq_true _ _ ▸ hp).2
    refine ⟨r, hr, SameWork.refl _, fun _ hsup => ?_, nofun⟩
    rcases hw with hs | hs <;> exact absurd (hs.symm.trans hsup) (by decide)
  · exact shrinks_self hr'

theorem RetargetOf.shrinks {fromRef : String} {d : Destination} {moved : RetargetedMutations}
    (h : RetargetOf s fromRef d moved s') : Shrinks s s' := by
  refine ⟨fun r' hr' => ?_, fun o ho => ?_, fun c hc => ?_, h.drawn.ge⟩
  · rcases (h.rows.mem r').mp hr' with hr' | ⟨hr', -⟩
    · obtain ⟨n, r, hr, -, rfl⟩ := h.rows.source r' hr'
      exact ⟨r, hr, sameWork_moved _ _ _ _, fun hl => hl, fun hs _ => hs⟩
    · exact shrinks_self hr'
  · rcases (h.copies.mem o).mp ho with ho | ⟨ho, -⟩
    · obtain ⟨n, o₀, ho₀, -, rfl⟩ := h.copies.source o ho
      exact ⟨_, copy_mem_recordsOf ho₀, sameWork_moved _ _ _ _⟩
    · exact ⟨_, copy_mem_recordsOf ho, SameWork.refl _⟩
  · rcases (h.recoveries.mem c).mp hc with hc | ⟨hc, -⟩
    · obtain ⟨n, c₀, hc₀, -, rfl⟩ := h.recoveries.source c hc
      exact ⟨c₀, hc₀, sameWork_moved _ _ _ _⟩
    · exact ⟨c, hc, SameWork.refl _⟩

/-- A row rewritten over itself outside the superseded state. -/
theorem shrinks_rewrite {r' : MutationOutboxRecord} (hr : r ∈ s.outbox) (hw : Waiting r)
    (hsame : r'.toMutationRecord = r.toMutationRecord) (hlive : r'.state ≠ .superseded) :
    Shrinks s { s with outbox := put outboxKey r' s.outbox } := by
  refine shrinks_put hr (SameWork.of_eq hsame) (fun _ hsup => ?_) fun hsup => absurd hsup hlive
  rcases hw with hs | hs <;> exact absurd (hs.symm.trans hsup) (by decide)

theorem unmarkedRow_live (crossed : Bool) (hw : Waiting r) :
    (unmarkedRow crossed r).toMutationRecord = r.toMutationRecord ∧
      (unmarkedRow crossed r).state ≠ .superseded := by
  have hlive : r.state ≠ .superseded := by
    rcases hw with hs | hs <;> rw [hs] <;> decide
  unfold unmarkedRow drainedRow
  dsimp only
  repeat' split
  all_goals first | exact ⟨rfl, hlive⟩ | exact ⟨rfl, nofun⟩

theorem fencedRow_live (r : MutationOutboxRecord) (e : Nat) (uncertain : Bool) :
    (fencedRow r e uncertain).toMutationRecord = r.toMutationRecord ∧
      (fencedRow r e uncertain).state ≠ .superseded := by
  unfold fencedRow
  split <;> exact ⟨rfl, nofun⟩

theorem Rep.restoreStep (h : Rep supply s) (hinj : Function.Injective supply) (htidy : Tidy s)
    (hr : r ∈ s.outbox) (hparked : r.state = .blockedUnknown)
    {requeued : List (String × MutationOutboxRecord)} (hstep : RestoreStep supply r s requeued s') :
    Rep supply s' := by
  cases hstep with
  | canceled _ => exact h.shrink (shrinks_rewrite hr (Or.inr hparked) rfl nofun)
  | stamped _ => exact h.shrink (shrinks_rewrite hr (Or.inr hparked) rfl nofun)
  | outranked hnote =>
    refine h.shrink (shrinks_put hr (SameWork.refl _) (fun hlive => absurd rfl hlive) ?_)
    exact fun _ hmethod => absurd hnote hmethod
  | minted fresh hmint => exact h.minted hinj htidy hmint

theorem Rep.restores (h : Rep supply s) (hinj : Function.Injective supply) (htidy : Tidy s)
    {requeued : List (String × MutationOutboxRecord)}
    (hrestores : Restores supply s requeued s') : Rep supply s' := by
  induction hrestores with
  | nil s => exact h
  | cons r hr hparked hstep _ ih =>
    exact ih (h.restoreStep hinj htidy hr hparked hstep) (htidy.restoreStep hr hstep)

/-- Every call keeps the representation. -/
theorem Effect.rep (hinj : Function.Injective supply) (htidy : Tidy s) (h : Rep supply s)
    (heffect : Effect supply sweeps s op reply s') : Rep supply s' := by
  cases heffect with
  | idle _ => exact h
  | enqueued tab intent barrier hstate hrow hfree =>
    subst hrow
    refine h.insertOwn hinj hfree (wire_own rfl) ?_
    rcases hstate with rfl | rfl <;> exact nofun
  | interrupted tab intent hrow hfree =>
    subst hrow
    exact (h.shrink (shrinks_stopped _ s)).insertOwn hinj hfree (wire_own rfl) nofun
  | stopped ref ids => exact h.shrink (shrinks_stopped ref s)
  | discarded ref ids => exact h.shrink (shrinks_dropRows _ s)
  | discardedOfInstance ref instanceId ids => exact h.shrink (shrinks_dropRows _ s)
  | retried tab capture _ hmint => exact h.minted hinj htidy hmint
  | retargeted hmoved => exact h.shrink hmoved.shrinks
  | settledReceipt _ hsettle hsettling => exact h.shrink (hsettling.shrinks hsettle.held)
  | settledApplied hsettle hsettling => exact h.shrink (hsettling.shrinks hsettle.held)
  | swept ids _ =>
    unfold sweptDb
    split
    · exact h.shrink (shrinks_dropRecovery _ s)
    · exact h.shrink (shrinks_dropRows _ s)
  | marked hr _ hstate _ =>
    refine h.shrink (shrinks_rewrite hr (Or.inl hstate) rfl ?_)
    exact fun hsup => absurd (hstate.symm.trans hsup) (by decide)
  | fenced hr _ hstate _ _ =>
    exact h.shrink (shrinks_rewrite hr (Or.inl hstate) (fencedRow_live _ _ _).1
      (fencedRow_live _ _ _).2)
  | unmarked b hr _ hw =>
    exact h.shrink (shrinks_rewrite hr hw (unmarkedRow_live _ hw).1 (unmarkedRow_live _ hw).2)
  | blocked onlyAttempted b hr _ hstate =>
    exact h.shrink (shrinks_rewrite hr (Or.inl hstate) rfl nofun)
  | restored tab ref ids hrestores => exact h.restores hinj htidy hrestores
  | transferred kind reason uncertain hr _ hnocopy =>
    exact h.transferred hr (SameWork.refl _) hnocopy
  | coalesced kind reason uncertain _ _ _ _ _ =>
    rw [erase_row_eq_drop]
    exact h.shrink (shrinks_dropRows _ s)
  | edited expected barrier hr _ _ hnocopy =>
    exact h.transferred hr (SameWork.refl _) fun _ => hnocopy
  | @editedOver expected barrier r carrier hr _ hedit hcarrier hwire _ =>
    refine (h.shrink (shrinks_dropRecovery _ s)).transferred hr (SameWork.refl _)
      fun hnote c hc hcwire => ?_
    obtain ⟨hc, hne⟩ := mem_dropRecovery.mp hc
    have hmethod := h.methods _ (mem_workOf.mpr (Or.inr ⟨c, hc, rfl⟩)) _
      (mem_workOf.mpr (Or.inl ⟨r, hr, rfl⟩)) hcwire
    exact of_decide_eq_false hne
      (h.recoveries c hc carrier hcarrier (hmethod ▸ hnote) (hcwire.trans hwire.symm))
  | removed expected barrier _ _ _ =>
    exact h.shrink (((shrinks_dropRows _ s).trans (shrinks_dropRecovery _ _)).trans
      (shrinks_dropRows _ _))
  | @updated _ update c sources hc _ _ _ =>
    refine h.shrink (Shrinks.trans ?_ ((shrinks_dropRows _ _).trans (shrinks_dropRecovery _ _)))
    refine ⟨(Shrinks.refl s).rows, (Shrinks.refl s).copies, fun x hx => ?_, le_rfl⟩
    rcases mem_of_mem_put hx with rfl | hx
    · exact ⟨c, hc, sameWork_updated update c⟩
    · exact ⟨x, hx, SameWork.refl _⟩
  | preserved tab base draft hc hfree =>
    subst hc
    exact h.insertRecovery hinj hfree (wire_own rfl)
  | discardedRecovery shouldDiscard expectedRevision _ _ =>
    exact h.shrink ((shrinks_dropRows _ s).trans (shrinks_dropRecovery _ _))
  | resent tab ids hresend => exact h.resent hinj htidy hresend

theorem Rep.withDrawn (h : Rep supply s) {n : Nat} (hle : s.drawn ≤ n) :
    Rep supply { s with drawn := n } :=
  h.shrink ⟨(Shrinks.refl s).rows, (Shrinks.refl s).copies, (Shrinks.refl s).recovery, hle⟩

theorem Rep.event (event : Event) (hinj : Function.Injective supply) (htidy : Tidy event.before.db)
    (h : Rep supply event.before.db) : Rep supply (event.after supply).db := by
  rcases event.outcome supply htidy with ⟨reply, -, heffect⟩ | ⟨e, n, -, hle, -, hafter⟩
  · exact heffect.rep hinj htidy h
  · rw [hafter]
    exact h.withDrawn hle

end Step

/-! ## Whole runs -/

section Runs

variable (supply : Nat → String)

theorem rep_empty : Rep supply {} := by
  refine ⟨?_, ?_, ?_, ?_, ?_, ?_⟩ <;> intro _ h <;> exact absurd h not_mem_nil

theorem rep_run (hinj : Function.Injective supply) (steps : List Step) :
    Rep supply (run supply {} steps).db := by
  have hboth := run_induction supply (P := fun _ w => Tidy w.db ∧ Rep supply w.db)
    ⟨tidy_empty, rep_empty supply⟩
    (fun _ w step h => ⟨Tidy.event supply ⟨w, step⟩ h.1, Rep.event ⟨w, step⟩ hinj h.1 h.2⟩) steps
  exact hboth.2

/-- Keys, wires, slots and bounds hold in every state a run reaches, and the unique index never
    refuses a write. -/
theorem representation (hinj : Function.Injective supply) (steps : List Step) :
    -- no key in both stores
    (∀ r ∈ (run supply {} steps).db.outbox, ∀ c ∈ (run supply {} steps).db.recovery,
      r.clientMutationId ≠ c.clientMutationId) ∧
    -- one row on a wire that is not superseded
    (∀ r₁ ∈ (run supply {} steps).db.outbox, ∀ r₂ ∈ (run supply {} steps).db.outbox,
      r₁.state ≠ .superseded → r₂.state ≠ .superseded →
      effectiveWireId r₁.toMutationRecord = effectiveWireId r₂.toMutationRecord → r₁ = r₂) ∧
    -- off the note method, one recovery row and one superseded row on a wire
    (∀ c₁ ∈ (run supply {} steps).db.recovery, ∀ c₂ ∈ (run supply {} steps).db.recovery,
      c₁.method ≠ humanNoteMethod → c₂.method ≠ humanNoteMethod →
      effectiveWireId c₁.toMutationRecord = effectiveWireId c₂.toMutationRecord → c₁ = c₂) ∧
    (∀ r₁ ∈ (run supply {} steps).db.outbox, ∀ r₂ ∈ (run supply {} steps).db.outbox,
      r₁.method ≠ humanNoteMethod → r₂.method ≠ humanNoteMethod →
      r₁.state = .superseded → r₂.state = .superseded →
      effectiveWireId r₁.toMutationRecord = effectiveWireId r₂.toMutationRecord → r₁ = r₂) ∧
    -- one record in a slot of the unique index
    (∀ r₁ ∈ (run supply {} steps).db.outbox, ∀ r₂ ∈ (run supply {} steps).db.outbox,
      r₁.targetRef = r₂.targetRef → r₁.intentSequence = r₂.intentSequence → r₁ = r₂) ∧
    (∀ o₁ ∈ (run supply {} steps).db.optimistic, ∀ o₂ ∈ (run supply {} steps).db.optimistic,
      o₁.targetRef = o₂.targetRef → o₁.intentSequence = o₂.intentSequence → o₁ = o₂) ∧
    (∀ op fault, fault ≠ some .constraint →
      (Event.result supply ⟨run supply {} steps, ⟨op, fault⟩⟩).1 ≠ .error .constraint) ∧
    -- every stored sequence is within the ref's counter
    (∀ a ∈ recordsOf (run supply {} steps).db.toStores,
      a.intentSequence ≤ lastSequenceOf (run supply {} steps).db.sequences a.targetRef) := by
  have htidy := tidy_run supply steps
  have hrep := rep_run supply hinj steps
  refine ⟨htidy.disjoint, ?_, ?_, ?_, ?_, ?_, ?_, htidy.bounded⟩
  · intro r₁ hr₁ r₂ hr₂ hlive₁ hlive₂ hwire
    exact htidy.outboxKeys.eq_of_key hr₁ hr₂ (hrep.live r₁ hr₁ r₂ hr₂ hlive₁ hlive₂ hwire)
  · intro c₁ hc₁ c₂ hc₂ hnote _ hwire
    exact htidy.recoveryKeys.eq_of_key hc₁ hc₂ (hrep.recoveries c₁ hc₁ c₂ hc₂ hnote hwire)
  · intro r₁ hr₁ r₂ hr₂ hnote _ hsup₁ hsup₂ hwire
    exact htidy.outboxKeys.eq_of_key hr₁ hr₂
      (hrep.superseded r₁ hr₁ r₂ hr₂ hnote hsup₁ hsup₂ hwire)
  · intro r₁ hr₁ r₂ hr₂ href hsequence
    exact htidy.outboxKeys.eq_of_key hr₁ hr₂
      (htidy.slots _ (row_mem_recordsOf hr₁) _ (row_mem_recordsOf hr₂) href hsequence)
  · intro o₁ ho₁ o₂ ho₂ href hsequence
    exact htidy.optimisticKeys.eq_of_key ho₁ ho₂
      (htidy.slots _ (copy_mem_recordsOf ho₁) _ (copy_mem_recordsOf ho₂) href hsequence)
  · intro op fault hfault herror
    rcases Event.outcome supply ⟨run supply {} steps, ⟨op, fault⟩⟩ htidy
      with ⟨reply, hok, -⟩ | ⟨e, n, he, -, hreason, -⟩
    · rw [herror] at hok
      exact nomatch hok
    · rw [herror] at he
      obtain rfl := Except.error.inj he
      rcases hreason with hne | hinjected
      · exact hne rfl
      · exact hfault hinjected

end Runs

/-- A message is sent, its outcome lost, proven absent and minted again. -/
def sendLoseRestore : List Step :=
  [⟨.enqueueIntent oneTab (sendTo "a") none, none⟩, ⟨.markAttempted "i", none⟩,
    ⟨.markUnknown "i" true, none⟩, ⟨.restoreProvenAbsent oneTab "a" [], none⟩]

theorem representation_sendLoseRestore :
    ((run tallyIds {} sendLoseRestore).db.outbox.map (·.state) = [.superseded, .submitting]) ∧
    ∀ a ∈ recordsOf (run tallyIds {} sendLoseRestore).db.toStores,
      a.intentSequence ≤ lastSequenceOf (run tallyIds {} sendLoseRestore).db.sequences
        a.targetRef :=
  ⟨by decide,
    (representation tallyIds tallyIds_injective sendLoseRestore).2.2.2.2.2.2.2⟩

end Evener.Outbox
