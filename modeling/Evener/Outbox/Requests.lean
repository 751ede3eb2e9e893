/-
  What each request of a transaction does to a tidy database, which refuses no write: loops of
  deletions are filters, loops of rewrites are maps.
-/
import Evener.Outbox.Tidy

namespace Evener.Outbox

open Evener.Lib JsValue
open List hiding lookup

variable {s : Db} {E : OutboxError → Db → Prop}

theorem mem_inKeyOrder {ν : Type} {key : ν → String} {l : List ν} {v : ν} :
    v ∈ inKeyOrder key l ↔ v ∈ l := mem_insertionSort _

/-! ## Reads and unconditional writes -/

variable {Q : Unit → Db → Prop}

section Reads

@[simp] theorem wp_getOutbox {Q : Option MutationOutboxRecord → Db → Prop} (id : String) :
    Tx.wp (getOutbox id) s Q E ↔ Q (lookup outboxKey id s.outbox) s := Iff.rfl

@[simp] theorem wp_getOptimistic {Q : Option MutationOptimisticRecord → Db → Prop} (id : String) :
    Tx.wp (getOptimistic id) s Q E ↔ Q (lookup optimisticKey id s.optimistic) s := Iff.rfl

@[simp] theorem wp_getRecovery {Q : Option MutationRecoveryRecord → Db → Prop} (id : String) :
    Tx.wp (getRecovery id) s Q E ↔ Q (lookup recoveryKey id s.recovery) s := Iff.rfl

@[simp] theorem wp_getAllOutbox {Q : List MutationOutboxRecord → Db → Prop} :
    Tx.wp getAllOutbox s Q E ↔ Q (inKeyOrder outboxKey s.outbox) s := Iff.rfl

@[simp] theorem wp_getAllOptimistic {Q : List MutationOptimisticRecord → Db → Prop} :
    Tx.wp getAllOptimistic s Q E ↔ Q (inKeyOrder optimisticKey s.optimistic) s := Iff.rfl

@[simp] theorem wp_getAllRecovery {Q : List MutationRecoveryRecord → Db → Prop} :
    Tx.wp getAllRecovery s Q E ↔ Q (inKeyOrder recoveryKey s.recovery) s := Iff.rfl

@[simp] theorem wp_stopEpochOf {Q : Nat → Db → Prop} (ref : String) :
    Tx.wp (stopEpochOf ref) s Q E ↔ Q (epochOf s.sequences ref) s := Iff.rfl

@[simp] theorem wp_fenceCrossedSinceEnqueue {Q : Bool → Db → Prop} (r : MutationOutboxRecord) :
    Tx.wp (fenceCrossedSinceEnqueue r) s Q E ↔
      Q (fenceCrossed r (epochOf s.sequences r.targetRef) (displayedEpochOf s.sequences r)) s :=
  Iff.rfl

@[simp] theorem wp_allocateSequence {Q : Nat → Db → Prop} (ref : String) :
    Tx.wp (allocateSequence ref) s Q E ↔ Q (lastSequenceOf s.sequences ref + 1)
      { s with sequences :=
        withLastSequence ref (lastSequenceOf s.sequences ref + 1) s.sequences } := Iff.rfl

@[simp] theorem wp_createMutationId {Q : String → Db → Prop} (supply : Nat → String) :
    Tx.wp (createMutationId supply) s Q E ↔ Q (supply s.drawn) { s with drawn := s.drawn + 1 } :=
  Iff.rfl

@[simp] theorem wp_bumpStopEpoch (ref : String) :
    Tx.wp (bumpStopEpoch ref) s Q E ↔ Q () { s with sequences := withStopBump ref s.sequences } :=
  Iff.rfl

@[simp] theorem wp_putRecovery (c : MutationRecoveryRecord) :
    Tx.wp (putRecovery c) s Q E ↔ Q () { s with recovery := put recoveryKey c s.recovery } :=
  Iff.rfl

end Reads

/-! ## Writes under the unique index -/

theorem indexTaken_eq_false {ν : Type} {toRecord : ν → MutationRecord} {a : MutationRecord}
    {l : List ν} (h : ∀ v ∈ l, (toRecord v).targetRef = a.targetRef →
      (toRecord v).intentSequence = a.intentSequence →
      (toRecord v).clientMutationId = a.clientMutationId) : indexTaken toRecord a l = false := by
  unfold indexTaken
  rw [any_eq_false]
  intro v hv hclash
  simp only [ne_eq, decide_not, Bool.and_eq_true, Bool.not_eq_eq_eq_not, Bool.not_true,
    decide_eq_false_iff_not, decide_eq_true_eq] at hclash
  exact hclash.1.1 (h v hv hclash.1.2 hclash.2)

theorem wp_putOutbox {r : MutationOutboxRecord} (hfits : Fits s r.toMutationRecord)
    (hQ : Q () { s with outbox := put outboxKey r s.outbox }) : Tx.wp (putOutbox r) s Q E := by
  unfold putOutbox
  rw [Tx.wp_bind, Tx.wp_read, if_neg]
  · exact hQ
  · rw [indexTaken_eq_false fun v hv => hfits.1 _ (row_mem_recordsOf hv)]
    exact Bool.false_ne_true

theorem wp_putOptimistic {o : MutationOptimisticRecord} (hfits : Fits s o.toMutationRecord)
    (hQ : Q () { s with optimistic := put optimisticKey o s.optimistic }) :
    Tx.wp (putOptimistic o) s Q E := by
  unfold putOptimistic
  rw [Tx.wp_bind, Tx.wp_read, if_neg]
  · exact hQ
  · rw [indexTaken_eq_false fun v hv => hfits.1 _ (copy_mem_recordsOf hv)]
    exact Bool.false_ne_true

theorem fits_of_sameSlot {a b : MutationRecord} (h : Fits s b) (hslot : SameSlot a b) :
    Fits s a := by
  refine ⟨fun x hx href hseq => ?_, ?_⟩
  · rw [hslot.key]
    exact h.1 x hx (href.trans hslot.ref) (hseq.trans hslot.sequence)
  · rw [hslot.sequence, hslot.ref]
    exact h.2

/-- A row rewritten in its slot. -/
theorem wp_rewriteRow (h : Tidy s) {r : MutationOutboxRecord} (r' : MutationOutboxRecord)
    (hr : r ∈ s.outbox) (hslot : SameSlot r'.toMutationRecord r.toMutationRecord)
    (hQ : Q () { s with outbox := put outboxKey r' s.outbox }) : Tx.wp (putOutbox r') s Q E :=
  wp_putOutbox (fits_of_sameSlot (h.fits (row_mem_recordsOf hr)) hslot) hQ

theorem keyFree_of_lookup {id : String} (hout : lookup outboxKey id s.outbox = none)
    (hopt : lookup optimisticKey id s.optimistic = none)
    (hrec : lookup recoveryKey id s.recovery = none) : KeyFree s.toStores id := by
  intro a ha
  rcases mem_recordsOf.mp ha with ⟨r, hr, rfl⟩ | ⟨o, ho, rfl⟩ | ⟨c, hc, rfl⟩
  · exact lookup_eq_none.mp hout r hr
  · exact lookup_eq_none.mp hopt o ho
  · exact lookup_eq_none.mp hrec c hc

theorem wp_assertMutationIdAvailable (id : String) (hfree : KeyFree s.toStores id → Q () s)
    (htaken : E (.idActive id) s) : Tx.wp (assertMutationIdAvailable id) s Q E := by
  unfold assertMutationIdAvailable
  simp only [Tx.wp_bind, wp_getOutbox, wp_getOptimistic, wp_getRecovery]
  split
  · exact htaken
  · next hnone =>
    refine hfree ?_
    simp only [Bool.or_eq_true, Option.isSome_iff_ne_none, ne_eq, not_or, not_not] at hnone
    exact keyFree_of_lookup hnone.1.1 hnone.1.2 hnone.2

/-- The end of every insertion: the sequence and the id are drawn, the id is free. -/
theorem wp_addOutbox (h : Tidy s) {row : MutationOutboxRecord}
    (hnew : NewSlot s row.toMutationRecord) (hQ : Q () (insertRow s row)) :
    Tx.wp (addOutbox row)
      { s with
        sequences := withLastSequence row.targetRef row.intentSequence s.sequences
        drawn := s.drawn + 1 } Q E := by
  have hne : ∀ r ∈ s.outbox, outboxKey r ≠ outboxKey row :=
    fun r hr => hnew.free _ (row_mem_recordsOf hr)
  unfold addOutbox
  rw [Tx.wp_bind, wp_getOutbox]
  have hnone : lookup outboxKey row.clientMutationId s.outbox = none := lookup_eq_none.mpr hne
  simp only [hnone]
  refine wp_putOutbox ⟨fun b hb href hseq => ?_, ?_⟩ ?_
  · exact h.slots_insert hnew (Or.inr hb) (Or.inl rfl) href hseq
  · exact h.bounded_insert hnew (Or.inl rfl)
  · show Q () { s with
      outbox := put outboxKey row s.outbox
      sequences := withLastSequence row.targetRef row.intentSequence s.sequences
      drawn := s.drawn + 1 }
    rw [put_eq_append hne]
    exact hQ

/-! ## Loops -/

theorem wp_each_deleteOutbox (rows : List MutationOutboxRecord)
    (hQ : Q () { s with outbox := s.outbox.filter fun r => outboxKey r ∉ rows.map outboxKey }) :
    Tx.wp (Tx.each (fun r => deleteOutbox r.clientMutationId) rows) s Q E := by
  refine Tx.wp_each_write (fun (r : MutationOutboxRecord) (s : Db) =>
    { s with outbox := erase outboxKey r.clientMutationId s.outbox }) rows ?_
  have hfold : ∀ (rows : List MutationOutboxRecord) (s : Db),
      rows.foldl (fun (s : Db) (r : MutationOutboxRecord) =>
        { s with outbox := erase outboxKey r.clientMutationId s.outbox }) s =
      { s with outbox := (rows.map outboxKey).foldl (fun l k => erase outboxKey k l) s.outbox } := by
    intro rows
    induction rows with
    | nil => intro s; rfl
    | cons r rows ih => intro s; rw [foldl_cons, ih]; rfl
  rw [hfold, foldl_erase]
  exact hQ

theorem wp_each_deleteOptimistic (rows : List MutationOptimisticRecord)
    (hQ : Q () { s with optimistic := s.optimistic.filter fun o => optimisticKey o ∉ rows.map optimisticKey }) :
    Tx.wp (Tx.each (fun o => deleteOptimistic o.clientMutationId) rows) s Q E := by
  refine Tx.wp_each_write (fun (o : MutationOptimisticRecord) (s : Db) =>
    { s with optimistic := erase optimisticKey o.clientMutationId s.optimistic }) rows ?_
  have hfold : ∀ (rows : List MutationOptimisticRecord) (s : Db),
      rows.foldl (fun (s : Db) (o : MutationOptimisticRecord) =>
        { s with optimistic := erase optimisticKey o.clientMutationId s.optimistic }) s =
      { s with optimistic :=
        (rows.map optimisticKey).foldl (fun l k => erase optimisticKey k l) s.optimistic } := by
    intro rows
    induction rows with
    | nil => intro s; rfl
    | cons o rows ih => intro s; rw [foldl_cons, ih]; rfl
  rw [hfold, foldl_erase]
  exact hQ

theorem wp_each_deleteRecovery (ids : List String)
    (hQ : Q () { s with recovery := s.recovery.filter fun c => recoveryKey c ∉ ids }) :
    Tx.wp (Tx.each deleteRecovery ids) s Q E := by
  refine Tx.wp_each_write (fun (id : String) (s : Db) =>
    { s with recovery := erase recoveryKey id s.recovery }) ids ?_
  have hfold : ∀ (ids : List String) (s : Db),
      ids.foldl (fun (s : Db) (id : String) =>
        { s with recovery := erase recoveryKey id s.recovery }) s =
      { s with recovery := ids.foldl (fun l k => erase recoveryKey k l) s.recovery } := by
    intro ids
    induction ids with
    | nil => intro s; rfl
    | cons id ids ih => intro s; rw [foldl_cons, ih]; rfl
  rw [hfold, foldl_erase]
  exact hQ

theorem each_map {α β σ ε : Type} (f : β → Tx σ ε Unit) (g : α → β) (l : List α) :
    Tx.each (fun a => f (g a)) l = Tx.each f (l.map g) := by
  induction l with
  | nil => rfl
  | cons a l ih => rw [map_cons, Tx.each, Tx.each, ih]

/-- A loop that rewrites some rows of the outbox in their slots. -/
theorem wp_each_rewrite (h : Tidy s) {f : MutationOutboxRecord → MutationOutboxRecord}
    (hf : ∀ r, SameSlot (f r).toMutationRecord r.toMutationRecord)
    {rows : List MutationOutboxRecord} (hrows : ∀ r ∈ rows, r ∈ s.outbox)
    (hnodup : KeysNodup outboxKey rows)
    (hQ : Q () { s with outbox := s.outbox.map fun r => if outboxKey r ∈ rows.map outboxKey then f r else r }) :
    Tx.wp (Tx.each (fun r => putOutbox (f r)) rows) s Q E := by
  induction rows generalizing s with
  | nil => simpa [Tx.each] using hQ
  | cons r rows ih =>
    obtain ⟨hne, hnodup'⟩ := keysNodup_cons.mp hnodup
    have hr := hrows r mem_cons_self
    rw [Tx.each, Tx.wp_bind]
    refine wp_rewriteRow h _ hr (hf r) ?_
    refine ih (h.putOutbox hr (hf r)) ?_ hnodup' ?_
    · intro r' hr'
      refine (mem_put h.outboxKeys).mpr (Or.inr ⟨hrows r' (mem_cons_of_mem _ hr'), ?_⟩)
      intro hkey
      exact hne r' hr' (hkey.trans (hf r).key)
    · -- the row just written is not rewritten again, and every other row is untouched so far
      have hmem : outboxKey (f r) ∈ s.outbox.map outboxKey :=
        mem_map.mpr ⟨r, hr, (hf r).key.symm⟩
      have hnot : outboxKey (f r) ∉ rows.map outboxKey := by
        intro hin
        obtain ⟨r', hr', hkey⟩ := mem_map.mp hin
        exact hne r' hr' (hkey.trans (hf r).key)
      have hmap : (put outboxKey (f r) s.outbox).map
          (fun x => if outboxKey x ∈ rows.map outboxKey then f x else x) =
          s.outbox.map fun x => if outboxKey x ∈ (r :: rows).map outboxKey then f x else x := by
        rw [put_eq_map h.outboxKeys hmem, map_map]
        refine map_congr_left fun x hx => ?_
        have hkey : outboxKey (f r) = outboxKey r := (hf r).key
        by_cases hxr : outboxKey x = outboxKey (f r)
        · have hxeq : x = r := h.outboxKeys.eq_of_key hx hr (hxr.trans hkey)
          subst hxeq
          have hin : outboxKey x ∈ (x :: rows).map outboxKey := by simp
          simp only [Function.comp_apply, if_pos hxr, if_neg hnot, if_pos hin]
        · have hiff : outboxKey x ∈ (r :: rows).map outboxKey ↔ outboxKey x ∈ rows.map outboxKey := by
            rw [map_cons, mem_cons, hkey] at *
            exact or_iff_right hxr
          simp only [Function.comp_apply, if_neg hxr, hiff]
      rw [← hmap] at hQ
      exact hQ

end Evener.Outbox
