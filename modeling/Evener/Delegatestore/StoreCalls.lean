/-
  What each call of the delegate store does to a recoverable volume, whichever file system call
  in it fails.
-/
import Evener.Delegatestore.Log

namespace Evener.Delegatestore

open Evener.Lib List Tx

def Store.usable (store : Store) : Bool := !store.closed && store.unusable.isNone

/-! ## File system calls -/

variable {E : Failure → World → Prop} {format : String} {Q : Unit → World → Prop}

section Calls

variable (disk : Disk) {w : World}

theorem wp_nextCall {Q : Nat → World → Prop} (hQ : ∀ n, Q n { w with calls := w.calls + 1 }) :
    Tx.wp nextCall w Q E := hQ _

theorem wp_outcome {n : Nat} (hQ : Q () w) (hE : ∀ e, E e w) :
    Tx.wp (outcome disk n format) w Q E := by
  unfold outcome
  split
  · exact hE _
  · exact hQ

theorem wp_call (hQ : ∀ n, Q () { w with calls := n }) (hE : ∀ e n, E e { w with calls := n }) :
    Tx.wp (call disk format) w Q E := by
  unfold call
  rw [wp_bind]
  exact wp_nextCall fun n => wp_outcome disk (hQ _) fun e => hE e _

theorem wp_writeFile {data : Bytes}
    (hQ : ∀ n, Q () { w with volume := ⟨w.volume.file ++ data, w.volume.file, data⟩, calls := n })
    (hE : ∀ e k n, E e { w with volume := ⟨w.volume.file ++ data.take k, w.volume.file, data.take k⟩, calls := n }) :
    Tx.wp (writeFile disk format data) w Q E := by
  unfold writeFile
  rw [wp_bind]
  refine wp_nextCall fun n => ?_
  rw [wp_bind, wp_write, wp_bind]
  refine wp_outcome disk ?_ fun e => hE e _ _
  rw [wp_ite]
  refine ⟨fun _ => hE _ _ _, fun hfull => ?_⟩
  have hwhole : data.take (disk.taken n) = data := by
    refine take_of_length_le ?_
    rw [length_take] at hfull
    omega
  rw [wp_pure, hwhole]
  exact hQ _

theorem wp_syncFile
    (hQ : ∀ n, Q () { w with volume := ⟨w.volume.file, w.volume.file, []⟩, calls := n })
    (hE : ∀ e n, E e { w with calls := n }) : Tx.wp (syncFile disk format) w Q E := by
  unfold syncFile
  rw [wp_bind]
  refine wp_nextCall fun n => ?_
  rw [wp_bind]
  exact wp_outcome disk (hQ _) fun e => hE e _

theorem wp_truncateFile {offset : Nat}
    (hQ : ∀ n, Q () { w with volume := { w.volume with file := w.volume.file.take offset }, calls := n })
    (hE : ∀ e n, E e { w with calls := n }) : Tx.wp (truncateFile disk format offset) w Q E := by
  unfold truncateFile
  rw [wp_bind]
  refine wp_nextCall fun n => ?_
  rw [wp_bind]
  exact wp_outcome disk (hQ _) fun e => hE e _

theorem wp_check {α : Type} {x : Except Failure α} {Q : α → World → Prop}
    (hQ : ∀ a, x = .ok a → Q a w) (hE : ∀ e, E e w) : Tx.wp (check x) w Q E := by
  unfold check
  cases x with
  | ok a => exact hQ a rfl
  | error e => exact hE e

end Calls

/-! ## Calls of the store -/

section Specs

variable (disk : Disk) {codec : Codec} {json : Json} {certain doubtful journal : List Event}
  {w : World}

/-- The header of an empty volume. -/
theorem writeVersionHeader_spec (hcodec : codec.Faithful) (hempty : w.volume.file = [])
    (hsafe : Safe codec json [] [] w.volume) :
    Tx.wp (writeVersionHeader disk codec) w
      (fun _ w' => w'.store = w.store ∧ Safe codec json [] [] w'.volume ∧
        Holds codec json w'.volume.file [])
      (fun _ w' => Safe codec json [] [] w'.volume) := by
  unfold writeVersionHeader
  rw [wp_bind]
  refine wp_check (fun header hheader => ?_) fun _ => hsafe
  have hheader := wrapping_eq_ok.mp hheader
  have htaken : ∀ k, Recoverable codec json [] [] ((header ++ [newline]).take k) :=
    recoverable_header hcodec hheader
  have hwhole : Recoverable codec json [] [] (header ++ [newline]) :=
    .of_holds (holds_header hcodec hheader) (Or.inl rfl)
  rw [wp_bind]
  refine wp_writeFile disk (fun n => ?_) fun e k n => ?_
  · rw [hempty, nil_append]
    refine wp_syncFile disk (fun n => ⟨rfl, safe_synced hwhole, holds_header hcodec hheader⟩)
      fun e n => ⟨hwhole, fun k => htaken k⟩
  · rw [hempty, nil_append]
    refine ⟨htaken k, fun m => ?_⟩
    rw [nil_append, take_take]
    exact htaken _

/-- The last calls of `recoverLog`. -/
def resumeCounter (events : List Event) : StoreTx Unit := do
  call disk "delegatestore: seek end: %w"
  match events.getLast? with
  | some event => modifyStore fun s => { s with seq := event.seq }
  | none => return ()

/-- The recovery of a log with a tail. -/
theorem recoverLog_spec {committed tail : Bytes} {torn : Bool} (hstore : w.store = {})
    (hsafe : Safe codec json certain doubtful w.volume) (hfile : w.volume.file = committed ++ tail)
    (htorn : torn = false → tail = []) (hholds : Holds codec json committed journal)
    (hpossible : Possible certain doubtful journal) :
    Tx.wp (recoverLog disk codec json committed torn) w
      (fun _ w' => Safe codec json certain doubtful w'.volume ∧
        Holds codec json w'.volume.file journal ∧ w'.store = { seq := journal.length })
      (fun _ w' => Safe codec json certain doubtful w'.volume) := by
  obtain ⟨state, hfold⟩ := hholds.folded
  have hreads : Recoverable codec json certain doubtful committed := .of_holds hholds hpossible
  -- the counter, once the file is the log
  have hcounter : ∀ w' : World, w'.store = {} → w'.volume.file = committed →
      Safe codec json certain doubtful w'.volume →
      Tx.wp (resumeCounter disk journal) w'
        (fun _ w' => Safe codec json certain doubtful w'.volume ∧
          Holds codec json w'.volume.file journal ∧ w'.store = { seq := journal.length })
        (fun _ w' => Safe codec json certain doubtful w'.volume) := by
    intro w' hstore' hfile' hsafe'
    unfold resumeCounter
    rw [wp_bind]
    refine wp_call disk (fun n => ?_) fun e n => hsafe'
    have hholds' : Holds codec json w'.volume.file journal := by rwa [hfile']
    cases hlast : journal.getLast? with
    | some event =>
      refine ⟨hsafe', hholds', ?_⟩
      show { w'.store with seq := event.seq } = _
      rw [hstore', fold_getLast_seq hfold hlast]
    | none =>
      refine ⟨hsafe', hholds', ?_⟩
      rw [getLast?_eq_none_iff.mp hlast]
      exact hstore'
  unfold recoverLog
  rw [wp_bind]
  refine wp_check (fun events hevents => ?_) fun _ => hsafe
  rw [hholds.decoded] at hevents
  cases hevents
  rw [wp_bind]
  refine wp_check (fun _ _ => ?_) fun _ => hsafe
  cases torn with
  | false =>
    rw [htorn rfl, append_nil] at hfile
    exact hcounter w hstore hfile hsafe
  | true =>
    rw [if_pos rfl, wp_bind]
    have hcut : w.volume.file.take committed.length = committed := by
      rw [hfile, take_left]
    refine wp_truncateFile disk (fun n => ?_) fun e n => hsafe
    rw [hcut, wp_bind]
    refine wp_syncFile disk (fun n => ?_) fun e n => ⟨hreads, hsafe.crash⟩
    exact hcounter _ hstore rfl (safe_synced hreads)

/-- An open finds a possible log, or leaves the volume as recoverable as it was. -/
theorem openStore_spec (hcodec : codec.Faithful) (hstore : w.store = {})
    (hsafe : Safe codec json certain doubtful w.volume) :
    Tx.wp (openStore disk codec json) w
      (fun _ w' => Safe codec json certain doubtful w'.volume ∧
        ∃ journal, Holds codec json w'.volume.file journal ∧ Possible certain doubtful journal ∧
          w'.store = { seq := journal.length })
      (fun _ w' => Safe codec json certain doubtful w'.volume) := by
  have hheader : ∀ w' : World, w'.store = {} → w'.volume.file = [] → certain = [] → doubtful = [] →
      Safe codec json certain doubtful w'.volume →
      Tx.wp (writeVersionHeader disk codec) w'
        (fun _ w' => Safe codec json certain doubtful w'.volume ∧
          ∃ journal, Holds codec json w'.volume.file journal ∧ Possible certain doubtful journal ∧
            w'.store = { seq := journal.length })
        (fun _ w' => Safe codec json certain doubtful w'.volume) := by
    rintro w' hstore' hempty rfl rfl hsafe'
    refine wp_mono (writeVersionHeader_spec disk hcodec hempty hsafe') ?_ fun _ _ h => h
    rintro _ w'' ⟨hsame, hsafe'', hholds⟩
    exact ⟨hsafe'', [], hholds, Or.inl rfl, hsame.trans hstore'⟩
  unfold openStore initializeOrRecover
  rw [wp_bind]
  refine wp_call disk (fun _ => ?_) fun _ _ => hsafe
  rw [wp_bind]
  refine wp_call disk (fun _ => ?_) fun _ _ => hsafe
  rw [wp_bind]
  refine wp_call disk (fun _ => ?_) fun _ _ => hsafe
  rw [wp_bind, wp_read, wp_ite]
  refine ⟨fun hempty => ?_, fun _ => ?_⟩
  · have hempty : w.volume.file = [] := hempty
    have hnone := hsafe.file.split
    rw [hempty] at hnone
    rcases hnone with ⟨_, _, hcertain, hdoubtful⟩ | ⟨hlines, _⟩
    · exact hheader _ hstore hempty hcertain hdoubtful hsafe
    · exact absurd rfl hlines
  · rw [wp_bind]
    refine wp_call disk (fun _ => ?_) fun _ _ => hsafe
    rw [wp_bind, wp_read, wp_ite]
    refine ⟨fun _ => ?_, fun hended => ?_⟩
    · rcases hsafe.file.split with ⟨hlines, hnone, hcertain, hdoubtful⟩ |
        ⟨hlines, htail, journal, hholds, hpossible⟩
      · rw [hlines]
        rw [wp_bind]
        refine wp_truncateFile disk (fun n => ?_) fun e n => hsafe
        refine hheader _ hstore (take_zero (l := w.volume.file)) hcertain hdoubtful ⟨?_, hsafe.crash⟩
        exact Or.inl ⟨not_mem_nil, hcertain, hdoubtful⟩
      · have hjoin := join_splitLines w.volume.file
        cases hcut : (splitLines w.volume.file).1 with
        | nil => exact absurd hcut hlines
        | cons line lines =>
          rw [hcut] at hholds hjoin
          refine wp_mono (recoverLog_spec disk hstore hsafe hjoin.symm nofun hholds hpossible) ?_
            fun _ _ h => h
          exact fun _ w' h => ⟨h.1, journal, h.2.1, hpossible, h.2.2⟩
    · have hended : w.volume.file.getLast? = some newline := not_not.mp hended
      rcases hsafe.file.split with ⟨hlines, _⟩ | ⟨_, _, journal, hholds, hpossible⟩
      · obtain ⟨_, _, hne⟩ := splitLines_base hended (not_mem_nil (a := newline))
        exact absurd hlines hne
      · obtain ⟨_, hjoin, _⟩ := splitLines_base hended (not_mem_nil (a := newline))
        rw [hjoin] at hholds
        refine wp_mono (recoverLog_spec disk hstore hsafe (append_nil _).symm (fun _ => rfl)
          hholds hpossible) ?_ fun _ _ h => h
        exact fun _ w' h => ⟨h.1, journal, h.2.1, hpossible, h.2.2⟩

/-- A rollback cuts the record off, or gives the store up. -/
theorem rollbackLocked_spec {α : Type} {base record : Bytes} {err : Failure} {Q : α → World → Prop}
    (hvolume : w.volume = ⟨base ++ record, base, record⟩) :
    Tx.wp (rollbackLocked disk base.length err : StoreTx α) w Q
      (fun _ w' => (w'.store = w.store ∧ w'.volume = ⟨base, base, []⟩) ∨
        (w'.store.unusable.isSome = true ∧ w'.volume.settled = base ∧ w'.volume.loose = record ∧
          (w'.volume.file = base ∨ w'.volume.file = base ++ record))) := by
  have hcut : w.volume.file.take base.length = base := by
    rw [hvolume]
    exact take_left
  unfold rollbackLocked
  rw [wp_bind, wp_attempt, wp_bind]
  refine wp_truncateFile disk (fun n => ?_) fun e n => ?_
  · rw [hcut, wp_bind]
    refine wp_call disk (fun n => ?_) fun e n => ?_
    · refine wp_syncFile disk (fun n => Or.inl ⟨rfl, rfl⟩) fun e n => Or.inr ⟨rfl, ?_, ?_, Or.inl rfl⟩
      · exact congrArg Volume.settled hvolume
      · exact congrArg Volume.loose hvolume
    · refine Or.inr ⟨rfl, ?_, ?_, Or.inl rfl⟩
      · exact congrArg Volume.settled hvolume
      · exact congrArg Volume.loose hvolume
  · refine Or.inr ⟨rfl, ?_, ?_, Or.inr ?_⟩
    · exact congrArg Volume.settled hvolume
    · exact congrArg Volume.loose hvolume
    · exact congrArg Volume.file hvolume

/-- A failed append leaves no trace, or the store is given up. -/
def NotAppended (record : Bytes) (w w' : World) : Prop :=
  (w'.store = w.store ∧
    (w'.volume = w.volume ∨ w'.volume = ⟨w.volume.file, w.volume.file, []⟩)) ∨
  (w'.store.unusable.isSome = true ∧ w'.volume.settled = w.volume.file ∧
    ∃ k, w'.volume.loose = record.take k ∧
      (w'.volume.file = w.volume.file ∨ w'.volume.file = w.volume.file ++ record.take k))

/-- An append of a record that returns has synced it. -/
theorem appendRecord_spec (record : Bytes) :
    Tx.wp (appendRecord disk record) w
      (fun _ w' => w'.store = w.store ∧
        w'.volume = ⟨w.volume.file ++ record, w.volume.file ++ record, []⟩)
      (fun _ w' => NotAppended record w w') := by
  unfold appendRecord
  rw [wp_bind]
  refine wp_call disk (fun _ => ?_) fun _ _ => Or.inl ⟨rfl, Or.inl rfl⟩
  rw [wp_bind, wp_read, wp_bind, wp_attempt]
  have hrolled : ∀ (err : Failure) (k : Nat) (w₁ : World), w₁.store = w.store →
      w₁.volume = ⟨w.volume.file ++ record.take k, w.volume.file, record.take k⟩ →
      Tx.wp (rollbackLocked disk w.volume.file.length err : StoreTx Unit) w₁
        (fun _ w' => w'.store = w.store ∧
          w'.volume = ⟨w.volume.file ++ record, w.volume.file ++ record, []⟩)
        (fun _ w' => NotAppended record w w') := by
    intro err k w₁ hstore hvolume
    refine wp_mono (rollbackLocked_spec disk hvolume) (fun _ _ h => h) ?_
    rintro e w' (⟨hsame, hback⟩ | ⟨hunusable, hsettled, hloose, hfile⟩)
    · exact Or.inl ⟨hsame.trans hstore, Or.inr hback⟩
    · exact Or.inr ⟨hunusable, hsettled, k, hloose, hfile⟩
  refine wp_writeFile disk (fun n => ?_) fun e k n => ?_
  · rw [wp_bind, wp_attempt]
    refine wp_syncFile disk (fun n => ⟨rfl, rfl⟩) fun e n => ?_
    refine hrolled e record.length _ rfl ?_
    rw [take_length]
  · exact hrolled e k _ rfl rfl

theorem ensureUsableLocked_spec :
    Tx.wp ensureUsableLocked w (fun _ w' => w' = w ∧ w.store.usable = true)
      (fun _ w' => w' = w) := by
  unfold ensureUsableLocked
  rw [wp_bind, wp_read, wp_ite]
  refine ⟨fun _ => rfl, fun hclosed => ?_⟩
  cases hunusable : w.store.unusable with
  | some err => exact rfl
  | none => exact ⟨rfl, by simp [Store.usable, hclosed, hunusable]⟩

/-- An append by a store over the log of `journal`. -/
theorem appendBatch_spec (hcodec : codec.Faithful) {state : State}
    (hholds : Holds codec json w.volume.file journal) (hfold : fold json journal = .ok state)
    (hseq : w.store.seq = journal.length) (events : List Event) :
    Tx.wp (appendBatch disk codec json state events) w
      (fun appended w' => w'.store = { w.store with seq := (journal ++ appended.1).length } ∧
        Holds codec json w'.volume.file (journal ++ appended.1) ∧
        fold json (journal ++ appended.1) = .ok appended.2 ∧
        ((appended.1 = [] ∧ w'.volume = w.volume) ∨
          w'.volume = ⟨w'.volume.file, w'.volume.file, []⟩))
      (fun _ w' => (w'.store = w.store ∧
          (w'.volume = w.volume ∨ w'.volume = ⟨w.volume.file, w.volume.file, []⟩)) ∨
        (w'.store.unusable.isSome = true ∧ assign w.store.seq events ≠ [] ∧
          Safe codec json journal (assign w.store.seq events) w'.volume)) := by
  unfold appendBatch
  rw [wp_bind]
  refine wp_mono (ensureUsableLocked_spec (w := w)) ?_ ?_
  rotate_left
  · rintro _ _ rfl
    exact Or.inl ⟨rfl, Or.inl rfl⟩
  rintro _ _ ⟨rfl, _⟩
  rw [wp_ite]
  refine ⟨fun _ => ?_, fun hne => ?_⟩
  · rw [wp_pure, cloneState_eq hfold]
    rw [append_nil]
    exact ⟨by rw [← hseq], hholds, hfold, Or.inl ⟨rfl, rfl⟩⟩
  · rw [wp_bind, wp_read, wp_bind]
    refine wp_check (fun prepared hprepared => ?_) fun _ => Or.inl ⟨rfl, Or.inl rfl⟩
    obtain ⟨assigned, accepted, record⟩ := prepared
    rw [hseq] at hprepared
    obtain ⟨rfl, haccepted, line, rfl, hdecode, hline⟩ := prepare_ok hcodec hfold hprepared
    have hbatch := @assign_ne_nil journal.length _ hne
    have hwhole := hholds.append hline hdecode hbatch ⟨accepted, haccepted⟩
    have htorn := recoverable_record hholds hdecode hline hbatch ⟨accepted, haccepted⟩
    rw [wp_bind]
    refine wp_mono (appendRecord_spec disk (line ++ [newline])) ?_ ?_
    · rintro _ w' ⟨hstore, hvolume⟩
      refine ⟨?_, ?_, haccepted, Or.inr ?_⟩
      · simp only [hstore, hseq, length_append]
      · show Holds codec json w'.volume.file _
        rw [hvolume]
        exact hwhole
      · show w'.volume = ⟨w'.volume.file, w'.volume.file, []⟩
        rw [hvolume]
    · rintro e w' (hsame | ⟨hunusable, hsettled, k, hloose, hfile⟩)
      · exact Or.inl hsame
      · rw [hseq]
        refine Or.inr ⟨hunusable, hbatch, ?_, fun n => ?_⟩
        · rcases hfile with hfile | hfile
          · rw [hfile]
            exact .of_holds hholds (Or.inl rfl)
          · rw [hfile]
            exact htorn k
        · rw [hsettled, hloose, take_take]
          exact htorn _

/-- A store that is closed or given up refuses an append. -/
theorem appendBatch_refused {state : State} (husable : w.store.usable = false) (events : List Event) :
    Tx.wp (appendBatch disk codec json state events) w (fun _ _ => False) (fun _ w' => w' = w) := by
  unfold appendBatch
  rw [wp_bind]
  refine wp_mono ensureUsableLocked_spec (fun _ w' h => ?_) fun _ w' h => h
  rw [husable] at h
  exact absurd h.2 Bool.false_ne_true

end Specs

end Evener.Delegatestore
