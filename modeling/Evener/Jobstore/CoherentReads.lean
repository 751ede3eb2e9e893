/-
  Reads and loads of a job store keep it coherent.
-/
import Evener.Jobstore.Coherent

namespace Evener.Jobstore

open Evener.Lib List Tx Option

variable {events : List Event} {α : Type}

/-! ## Reads -/

section Reads

variable (disk : Disk) (codec : Codec) {seen : List (Nat × Int)} {w : World}

/-- What the repair of the trailing line may do to the world: nothing, or drop the cursor. -/
def Repaired (w w' : World) : Prop := Dropped w' ∨ (w'.store = w.store ∧ w'.file = w.file)

theorem Repaired.calls {w' : World} (h : Repaired w w') (n : Nat) :
    Repaired w { w' with calls := n } :=
  h.imp (fun hoff => hoff.of_store rfl) fun hsame => hsame

theorem finishTrailing_spec :
    Tx.wp (finishTrailingJSONLineLocked disk) w
      (fun _ w' => Dropped w' ∧ (splitLines w'.file.bytes).2 = []) (fun _ w' => Dropped w') := by
  have hdropped := dropped_invalidateCursor w
  unfold finishTrailingJSONLineLocked modifyStore
  rw [wp_bind, wp_write, wp_bind]
  refine wp_seekEnd disk (fun n => ?_) fun e n => hdropped.of_store rfl
  rw [wp_bind]
  refine wp_mono (wp_writeLineLocked disk _) (fun _ w' hw' => ?_)
    fun _ w' hw' => hdropped.of_store hw'
  refine wp_syncLocked disk (fun n => ⟨hdropped.of_store hw'.1, ?_⟩)
    fun e n => hdropped.of_store hw'.1
  show (splitLines w'.file.bytes).2 = []
  rw [hw'.2, splitLines_newline]

theorem take_complete (raw : Bytes) :
    raw.take (raw.length - (splitLines raw).2.length) = joinLines (splitLines raw).1 := by
  have hjoin := join_splitLines raw
  have hlength := congrArg List.length hjoin
  rw [length_append] at hlength
  calc raw.take (raw.length - (splitLines raw).2.length)
      = (joinLines (splitLines raw).1 ++ (splitLines raw).2).take
          (joinLines (splitLines raw).1).length := by
        rw [hjoin]
        congr 1
        omega
    _ = joinLines (splitLines raw).1 := take_left

theorem recoverTrailingJSONLine_spec :
    Tx.wp (recoverTrailingJSONLineLocked disk codec (splitLines w.file.bytes).2
        (w.file.bytes.length - (splitLines w.file.bytes).2.length)) w
      (fun _ w' => Repaired w w' ∧ QuietTail codec (splitLines w'.file.bytes).2)
      (fun _ w' => Repaired w w') := by
  have hdropped := dropped_invalidateCursor w
  unfold recoverTrailingJSONLineLocked
  cases hunmarshal : codec.unmarshal (splitLines w.file.bytes).2 with
  | ok e =>
    exact wp_mono (finishTrailing_spec disk) (fun _ w' hw' => ⟨Or.inl hw'.1, Or.inl hw'.2⟩)
      fun _ w' hw' => Or.inl hw'
  | error err =>
    rw [wp_ite]
    refine ⟨fun _ => ?_, fun _ => ⟨Or.inr ⟨rfl, rfl⟩, Or.inr ⟨err, hunmarshal⟩⟩⟩
    unfold modifyStore
    rw [wp_bind, wp_write, wp_bind]
    refine wp_truncate disk (fun m n => ?_) fun e n => Or.inl (hdropped.of_store rfl)
    rw [wp_bind]
    refine wp_seekEnd disk (fun n => ?_) fun e n => Or.inl (hdropped.of_store rfl)
    refine wp_syncLocked disk (fun n => ⟨Or.inl (hdropped.of_store rfl), Or.inl ?_⟩)
      fun e n => Or.inl (hdropped.of_store rfl)
    show (splitLines (w.file.bytes.take _)).2 = []
    rw [take_complete, splitLines_complete]

theorem recoverTrailingPartialLine_spec :
    Tx.wp (recoverTrailingPartialLineLocked disk codec) w
      (fun _ w' => Repaired w w' ∧ QuietTail codec (splitLines w'.file.bytes).2)
      (fun _ w' => Repaired w w') := by
  have hsame : ∀ n, Repaired w { w with calls := n } := fun n => Or.inr ⟨rfl, rfl⟩
  unfold recoverTrailingPartialLineLocked
  rw [wp_bind]
  refine wp_stat disk (fun n => ?_) fun e n => hsame n
  rw [wp_ite]
  refine ⟨fun hempty => ⟨hsame n, Or.inl ?_⟩, fun _ => ?_⟩
  · show (splitLines w.file.bytes).2 = []
    rw [List.isEmpty_iff.mp hempty]
    rfl
  rw [wp_bind]
  refine wp_call disk (fun n => ?_) fun n => hsame n
  refine wp_closing disk ?_ (fun _ w' n hw' => ⟨hw'.1.calls n, hw'.2⟩)
    (fun _ w' _ n hw' => hw'.1.calls n) fun _ w' n hw' => hw'.calls n
  rw [wp_bind]
  refine wp_call disk (fun n => ?_) fun n => hsame n
  rw [wp_bind]
  refine wp_call disk (fun n => ?_) fun n => hsame n
  rw [wp_ite]
  refine ⟨fun hlast => ⟨hsame n, Or.inl (tail_of_getLast hlast)⟩, fun _ => ?_⟩
  rw [wp_bind]
  refine wp_call disk (fun n => ?_) fun n => hsame n
  rw [wp_bind, wp_read]
  exact recoverTrailingJSONLine_spec disk codec

/-- The scan of whole lines adds their events and moves the offset past them. -/
theorem scanLines_spec (lines : List Bytes) :
    Tx.wp (Tx.each (scanLine codec) lines) w (fun _ w' =>
        w'.file = w.file ∧ ∃ events, decodeLines codec lines = some events ∧
          w'.store.cursor.events = w.store.cursor.events ++ events ∧
          w'.store.cursor.offset = w.store.cursor.offset + (joinLines lines).length)
      (fun _ _ => True) := by
  induction lines generalizing w with
  | nil => exact ⟨rfl, [], rfl, (append_nil _).symm, rfl⟩
  | cons line lines ih =>
    unfold Tx.each scanLine
    rw [wp_bind, wp_bind, wp_read, wp_ite]
    refine ⟨fun _ => trivial, fun hlen => ?_⟩
    cases hline : decodeLine codec line with
    | error err => exact trivial
    | ok first =>
      unfold modifyStore
      rw [wp_write]
      refine wp_mono ih (fun _ w' hw' => ?_) fun _ _ htrue => htrue
      obtain ⟨hfile, events, hdecode, hevents, hoffset⟩ := hw'
      refine ⟨hfile, first ++ events, ?_, ?_, ?_⟩
      · rw [decodeLines, if_neg hlen, hline, hdecode]
        rfl
      · rw [hevents, ← append_assoc]
      · rw [hoffset]
        simp only [joinLines, map_cons, flatten_cons, length_append,
          length_cons, length_nil]
        omega

/-- A cursor moved past the complete lines after it. -/
theorem Describes.scanned {bytes : Bytes} {c c' : FileCursor} (h : Describes codec bytes c)
    (hdecode : decodeLines codec (splitLines (bytes.drop c.offset)).1 = some events)
    (hevents : c'.events = c.events ++ events)
    (hoffset : c'.offset = c.offset + (joinLines (splitLines (bytes.drop c.offset)).1).length) :
    Describes codec bytes c' ∧ decodeFile codec bytes = some c'.events := by
  have hjoin := join_splitLines (bytes.drop c.offset)
  have hsplit := splitLines_append h.ended (bytes.drop c.offset)
  rw [take_append_drop] at hsplit
  have hpart : (bytes.drop c.offset).take
      (joinLines (splitLines (bytes.drop c.offset)).1).length =
      joinLines (splitLines (bytes.drop c.offset)).1 := by
    have := congrArg (List.take (joinLines (splitLines (bytes.drop c.offset)).1).length) hjoin
    rw [take_left] at this
    exact this.symm
  have hread : splitLines (bytes.take c'.offset) =
      ((splitLines (bytes.take c.offset)).1 ++ (splitLines (bytes.drop c.offset)).1, []) := by
    rw [hoffset, take_add, hpart, splitLines_append h.ended, splitLines_complete]
  refine ⟨⟨?_, ?_, ?_⟩, ?_⟩
  · have hlength := congrArg List.length hjoin
    rw [length_append, length_drop] at hlength
    have := h.within
    omega
  · rw [hread]
  · rw [hread, hevents]
    exact decodeLines_append codec h.decoded hdecode
  · unfold decodeFile
    rw [hsplit, hevents]
    exact decodeLines_append codec h.decoded hdecode

/-- What a scan that goes through leaves: no event outside the cursor, which is over all complete
    lines. -/
def Scanned (w : World) (tail : List Event) (w' : World) : Prop :=
  tail = [] ∧ w'.file = w.file ∧ Describes codec w'.file.bytes w'.store.cursor ∧
    decodeFile codec w'.file.bytes = some w'.store.cursor.events

theorem scanTail_spec (hspace : AllowsCarriageReturn codec) {tail : Bytes}
    (hquiet : QuietTail codec tail) :
    Tx.wp (scanTail codec tail) w (fun events w' => events = [] ∧ w' = w) (fun _ _ => True) := by
  unfold scanTail
  rw [wp_bind, wp_read, wp_ite]
  refine ⟨fun _ => trivial, fun _ => ?_⟩
  cases hdecode : decodeLine codec tail with
  | error err => exact trivial
  | ok events => exact ⟨hquiet.decode hspace hdecode, rfl⟩

theorem advanceCursor_spec (hspace : AllowsCarriageReturn codec)
    (hquiet : QuietTail codec (splitLines w.file.bytes).2)
    (h : Describes codec w.file.bytes w.store.cursor) :
    Tx.wp (advanceCursorLocked disk codec) w (Scanned codec w) (fun _ _ => True) := by
  have hsplit := splitLines_append h.ended (w.file.bytes.drop w.store.cursor.offset)
  rw [take_append_drop] at hsplit
  rw [hsplit] at hquiet
  have hscan : ∀ n, Tx.wp (do
      Tx.each (scanLine codec) (splitLines (w.file.bytes.drop w.store.cursor.offset)).1
      let events ← scanTail codec (splitLines (w.file.bytes.drop w.store.cursor.offset)).2
      call disk "scan"
      return events) { w with calls := n } (Scanned codec w) (fun _ _ => True) := by
    intro n
    rw [wp_bind]
    refine wp_mono (scanLines_spec codec _) (fun _ w' hw' => ?_) fun _ _ htrue => htrue
    obtain ⟨hfile, events, hdecode, hevents, hoffset⟩ := hw'
    rw [wp_bind]
    refine wp_mono (scanTail_spec codec hspace hquiet) (fun tail w'' hw'' => ?_)
      fun _ _ htrue => htrue
    obtain ⟨rfl, rfl⟩ := hw''
    rw [wp_bind]
    refine wp_call disk (fun n => ?_) fun n => trivial
    obtain ⟨hdescribes, hdecoded⟩ := h.scanned codec hdecode hevents hoffset
    refine ⟨rfl, hfile, ?_, ?_⟩
    · show Describes codec w''.file.bytes w''.store.cursor
      rw [hfile]
      exact hdescribes
    · show decodeFile codec w''.file.bytes = some w''.store.cursor.events
      rw [hfile]
      exact hdecoded
  unfold advanceCursorLocked
  rw [wp_bind]
  refine wp_call disk (fun n => ?_) fun n => trivial
  refine wp_closing disk ?_ (fun _ w' n hw' => hw') (fun _ _ _ _ _ => trivial)
    fun _ _ _ _ => trivial
  rw [wp_bind, wp_read]
  rw [wp_ite]
  refine ⟨fun _ => ?_, fun _ => hscan n⟩
  rw [wp_bind]
  exact wp_call disk (fun n => hscan n) fun n => trivial

/-- What a load that goes through leaves. -/
def Loaded (seen : List (Nat × Int)) (events : List Event) (w : World) : Prop :=
  KeepsCoherent codec seen w ∧ decodeFile codec w.file.bytes = some events

theorem rescan_spec (hspace : AllowsCarriageReturn codec)
    (hquiet : QuietTail codec (splitLines w.file.bytes).2)
    (h : Describes codec w.file.bytes w.store.cursor) :
    Tx.wp (rescanLocked disk codec) w (fun tail w' => Scanned codec w tail w' ∧
        FoldsDescribe w'.store.folds w'.store.cursor.events) (fun _ w' => Dropped w') := by
  unfold rescanLocked modifyStore
  rw [wp_bind, wp_attempt]
  refine wp_mono (advanceCursor_spec disk codec hspace hquiet h) (fun tail w' hw' => ?_)
    fun e w' _ => dropped_resetCursor w'
  exact ⟨hw', foldsDescribe_none _ _⟩

theorem readCursor_spec (hspace : AllowsCarriageReturn codec) (trusted : Bool)
    (hquiet : QuietTail codec (splitLines w.file.bytes).2)
    (h : Describes codec w.file.bytes w.store.cursor)
    (hfolds : FoldsDescribe w.store.folds w.store.cursor.events) :
    Tx.wp (readCursorLocked disk codec w.file trusted) w (fun events w' =>
        Loaded codec seen events w' ∧ w'.store.cursor.events = events)
      (fun _ w' => KeepsCoherent codec seen w') := by
  -- the stamp of the stat is recorded over a cursor that describes the file
  have hnote : ∀ w' : World, w'.file = w.file → Describes codec w'.file.bytes w'.store.cursor →
      FoldsDescribe w'.store.folds w'.store.cursor.events →
      decodeFile codec w'.file.bytes = some w'.store.cursor.events →
      Loaded codec seen w'.store.cursor.events
        { w' with store := w'.store.noteRead w.file } := by
    intro w' hfile hdescribes hfolds hdecoded
    refine ⟨⟨hfolds, fun _ => ?_, fun _ _ => ?_⟩, hdecoded⟩
    · rw [← hfile]
      exact mem_cons_self
    · exact ⟨hdescribes.within, hdescribes.ended, hdescribes.decoded⟩
  unfold readCursorLocked modifyStore
  rw [wp_bind, wp_read]
  rw [wp_ite]
  refine ⟨fun _ => ?_, fun hread => ?_⟩
  · rw [wp_bind]
    refine wp_mono (rescan_spec disk codec hspace hquiet h) (fun tail w' hw' => ?_)
      fun _ w' hw' => hw'.coherent
    obtain ⟨⟨rfl, hfile, hdescribes, hdecoded⟩, hfolds'⟩ := hw'
    have hloaded := hnote w' hfile hdescribes hfolds' hdecoded
    rw [wp_bind, wp_write, wp_bind, wp_read, wp_pure, append_nil]
    exact ⟨hloaded, rfl⟩
  · have hoffset : w.file.bytes.length = w.store.cursor.offset := by
      simp only [Bool.or_eq_true, Bool.not_eq_eq_eq_not, Bool.not_true, decide_eq_true_eq, not_or,
        Bool.not_eq_false, ne_eq, not_not] at hread
      exact hread.2
    have hdecoded : decodeFile codec w.file.bytes = some w.store.cursor.events := by
      have := h.decoded
      rw [← hoffset, take_length] at this
      exact this
    have hloaded := hnote w rfl h hfolds hdecoded
    rw [wp_bind, wp_pure, wp_bind, wp_write, wp_bind, wp_read, wp_pure,
      append_nil]
    exact ⟨hloaded, rfl⟩

theorem Repaired.coherent {w' : World} (h : Coherent codec seen w) (hrepaired : Repaired w w') :
    Coherent codec seen w' := by
  rcases hrepaired with hoff | ⟨hstore, hfile⟩
  · exact hoff.coherent
  · exact h.of_same hstore hfile

theorem readAll_spec (hspace : AllowsCarriageReturn codec) (h : Coherent codec seen w) :
    Tx.wp (readAllLocked disk codec) w (fun events w' => Loaded codec seen events w' ∧
        w'.store.cursor.events = events) (fun _ w' => KeepsCoherent codec seen w') := by
  unfold readAllLocked
  rw [wp_bind]
  refine wp_mono (recoverTrailingPartialLine_spec disk codec) (fun _ w₁ hw₁ => ?_)
    fun _ w₁ hw₁ => (Repaired.coherent codec h hw₁).mono _
  obtain ⟨hrepaired, hquiet⟩ := hw₁
  have h₁ := Repaired.coherent codec h hrepaired
  rw [wp_bind, wp_attempt]
  refine wp_stat disk (fun n => ?_) fun e n => ?_
  · dsimp only
    rw [wp_bind, wp_read, wp_ite]
    refine ⟨fun htrusted => ?_, fun _ => ?_⟩
    · unfold cursorTrustedLocked at htrusted
      simp only [Bool.and_eq_true, decide_eq_true_eq] at htrusted
      have hdescribes := h₁.describes htrusted.1.1.1 (Prod.ext htrusted.1.2 htrusted.2)
      exact readCursor_spec (w := { w₁ with calls := n }) disk codec hspace true hquiet hdescribes
        h₁.folds
    · unfold modifyStore
      rw [wp_bind, wp_write]
      exact readCursor_spec disk codec hspace false hquiet (describes_start _ _)
        (foldsDescribe_none _ _)
  · unfold modifyStore
    rw [wp_bind, wp_write]
    exact (dropped_resetCursor _).coherent

/-! ## Loads -/

/-- A slot of the cache, as the invariant speaks of it. -/
structure SlotSound {α : Type} (slot : FoldSlot α) : Prop where
  get : ∀ {folds : FoldCache} {events : List Event} {folded : α}, FoldsDescribe folds events →
    slot.get folds = some folded → folded = slot.fold events
  set : ∀ {folds : FoldCache} {events : List Event} (gen : Nat), FoldsDescribe folds events →
    FoldsDescribe (slot.set (slot.fold events) { folds with gen := gen }) events

theorem jobsSlot_sound : SlotSound jobsSlot :=
  ⟨fun h => h.jobs _, fun _ h => ⟨fun _ heq => (some.inj heq).symm, h.ordered, h.watches,
    h.sends⟩⟩

theorem orderedSlot_sound : SlotSound orderedSlot :=
  ⟨fun h => h.ordered _, fun _ h => ⟨h.jobs, fun _ heq => (some.inj heq).symm, h.watches,
    h.sends⟩⟩

theorem watchesSlot_sound : SlotSound watchesSlot :=
  ⟨fun h => h.watches _, fun _ h => ⟨h.jobs, h.ordered, fun _ heq => (some.inj heq).symm,
    h.sends⟩⟩

theorem sendsSlot_sound : SlotSound sendsSlot :=
  ⟨fun h => h.sends _, fun _ h => ⟨h.jobs, h.ordered, h.watches,
    fun _ heq => (some.inj heq).symm⟩⟩

/-- A current fold: the file is the one the cursor has read to its end. -/
theorem foldCurrent_spec (h : Coherent codec seen w) :
    Tx.wp (foldCurrentLocked disk) w (fun current w' => w'.store = w.store ∧ w'.file = w.file ∧
        (current = true → decodeFile codec w.file.bytes = some w.store.cursor.events))
      (fun _ w' => w'.store = w.store ∧ w'.file = w.file) := by
  unfold foldCurrentLocked
  rw [wp_bind, wp_read, wp_ite]
  refine ⟨fun _ => ⟨rfl, rfl, nofun⟩, fun _ => ?_⟩
  rw [wp_bind]
  refine wp_stat disk (fun n => ⟨rfl, rfl, fun hcurrent => ?_⟩) fun e n => ⟨rfl, rfl⟩
  unfold cursorTrustedLocked at hcurrent
  simp only [Bool.and_eq_true, decide_eq_true_eq] at hcurrent
  obtain ⟨⟨⟨⟨hvalid, -⟩, hsize⟩, hmod⟩, hoffset⟩ := hcurrent
  have hdecoded := (h.describes hvalid (Prod.ext hsize hmod)).decoded
  rw [← hoffset, take_length] at hdecoded
  exact hdecoded

theorem loadFold_spec (hspace : AllowsCarriageReturn codec) {slot : FoldSlot α}
    (hslot : SlotSound slot) (h : Coherent codec seen w) :
    Tx.wp (loadFold disk codec slot) w (fun folded w' => KeepsCoherent codec seen w' ∧
        ∃ events, decodeFile codec w'.file.bytes = some events ∧ folded = slot.fold events)
      (fun _ w' => KeepsCoherent codec seen w') := by
  -- a fold that is not served from the cache
  have hfresh : ∀ w' : World, w'.store = w.store → w'.file = w.file →
      Tx.wp (do
        let folded := slot.fold (← readAllLocked disk codec)
        modifyStore fun s => { s with folds := slot.set folded { s.folds with gen := s.foldGen } }
        return folded) w' (fun folded w' => KeepsCoherent codec seen w' ∧
          ∃ events, decodeFile codec w'.file.bytes = some events ∧ folded = slot.fold events)
        (fun _ w' => KeepsCoherent codec seen w') := by
    intro w' hstore hfile
    rw [wp_bind]
    refine wp_mono (readAll_spec disk codec hspace (h.of_same hstore hfile))
      (fun events w₁ hw₁ => ?_) fun _ _ hkeeps => hkeeps
    obtain ⟨⟨hkeeps, hdecoded⟩, rfl⟩ := hw₁
    exact ⟨⟨hslot.set _ hkeeps.folds, hkeeps.seen, hkeeps.describes⟩, _, hdecoded, rfl⟩
  unfold loadFold
  rw [wp_bind]
  refine ensureOpen_spec ?_ fun _ => h.mono _
  rw [wp_bind, wp_read]
  dsimp only
  split
  · exact hfresh w rfl rfl
  · next folded hget =>
    rw [wp_ite]
    refine ⟨fun _ => hfresh w rfl rfl, fun _ => ?_⟩
    rw [wp_bind]
    refine wp_mono (foldCurrent_spec disk codec h) (fun current w' hw' => ?_) fun _ w' hw' =>
      (h.of_same hw'.1 hw'.2).mono _
    obtain ⟨hstore, hfile, hdecoded⟩ := hw'
    rw [wp_ite]
    refine ⟨fun hcurrent => ⟨(h.of_same hstore hfile).mono _, _, ?_, hslot.get h.folds hget⟩,
      fun _ => hfresh w' hstore hfile⟩
    rw [hfile]
    exact hdecoded hcurrent

end Reads

end Evener.Jobstore
