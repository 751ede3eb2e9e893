/-
  An append to the job journal is all or nothing.

  `Undone` says what a failed call leaves: the bytes as they were, or a store marked unusable over
  a part of the lines it has encoded.
-/
import Evener.Jobstore.Coherence

namespace Evener.Jobstore

open Evener.Lib List Tx Option

variable (disk : Disk) (codec : Codec)

/-- The lines of some events, numbered from the one after `seq`. -/
def encodeFrom : Int → List Event → Option Bytes
  | _, [] => some []
  | seq, e :: events => do
    let b ← codec.marshal { e with seq := seq + 1 }
    let rest ← encodeFrom (seq + 1) events
    return b ++ [newline] ++ rest

/-- The lines of the first few of some events, and a part of the next: what a write of them that
    stops anywhere leaves in the file. -/
def PartOf (seq : Int) (events : List Event) (part : Bytes) : Prop :=
  ∃ done rest text, events = done ++ rest ∧ encodeFrom codec seq done = some text ∧ part <+: text

variable {codec}

variable {events : List Event} {e : Event} {b text part base : Bytes} {seq start : Int} {w' : World}

theorem encodeFrom_cons {rest : Bytes} (hb : codec.marshal { e with seq := seq + 1 } = some b)
    (hrest : encodeFrom codec (seq + 1) events = some rest) :
    encodeFrom codec seq (e :: events) = some (b ++ [newline] ++ rest) := by
  rw [encodeFrom, hb, hrest]
  rfl

theorem encodeFrom_cons_some (h : encodeFrom codec seq (e :: events) = some text) :
    ∃ b, codec.marshal { e with seq := seq + 1 } = some b ∧
      ∃ rest, encodeFrom codec (seq + 1) events = some rest ∧ text = b ++ [newline] ++ rest := by
  rw [encodeFrom] at h
  obtain ⟨b, hb, h⟩ := bind_eq_some_iff.mp h
  obtain ⟨rest, hrest, h⟩ := bind_eq_some_iff.mp h
  exact ⟨b, hb, rest, hrest, (some.inj h).symm⟩

theorem PartOf.nil (seq : Int) (events : List Event) : PartOf codec seq events [] :=
  ⟨[], events, [], rfl, rfl, prefix_rfl⟩

theorem PartOf.whole (h : encodeFrom codec seq events = some text) :
    PartOf codec seq events text :=
  ⟨events, [], text, (append_nil events).symm, h, prefix_rfl⟩

/-- A part of the first line. -/
theorem PartOf.first (hb : codec.marshal { e with seq := seq + 1 } = some b)
    (hpart : part <+: b ++ [newline]) : PartOf codec seq (e :: events) part := by
  refine ⟨[e], events, b ++ [newline] ++ [], rfl, encodeFrom_cons hb rfl, ?_⟩
  rw [append_nil]
  exact hpart

/-- A part that begins after the first line. -/
theorem PartOf.cons (hb : codec.marshal { e with seq := seq + 1 } = some b)
    (h : PartOf codec (seq + 1) events part) :
    PartOf codec seq (e :: events) (b ++ [newline] ++ part) := by
  obtain ⟨done, rest, text, hevents, htext, hpart⟩ := h
  refine ⟨e :: done, rest, b ++ [newline] ++ text, ?_, encodeFrom_cons hb htext, ?_⟩
  · rw [hevents, cons_append]
  · exact (prefix_append_right_inj _).mpr hpart

/-! ## What calls of the file system leave alone -/

/-- The store's numbering and its two locks are as they were. -/
structure Same (w w' : World) : Prop where
  seq : w'.store.seq = w.store.seq
  closed : w'.store.closed = w.store.closed
  unusable : w'.store.unusable = w.store.unusable

theorem Same.rfl' (w : World) : Same w w := ⟨rfl, rfl, rfl⟩

theorem Same.of_store {w : World} (h : w'.store = w.store) : Same w w' := by
  refine ⟨?_, ?_, ?_⟩ <;> rw [h]

/-- The world differs from `w` in the cursor, the folds and the number of calls at most. -/
structure Untouched (w w' : World) : Prop extends Same w w' where
  bytes : w'.file.bytes = w.file.bytes

theorem Untouched.rfl' (w : World) : Untouched w w := ⟨Same.rfl' w, rfl⟩

variable {w : World}

theorem keeps_call (operation : String) : Tx.Keeps (Untouched w) (call disk operation) :=
  fun _ h => wp_call disk (fun _ => ⟨⟨h.seq, h.closed, h.unusable⟩, h.bytes⟩)
    fun _ => ⟨⟨h.seq, h.closed, h.unusable⟩, h.bytes⟩

theorem keeps_stat : Tx.Keeps (Untouched w) (stat disk) :=
  (keeps_call disk "stat").bind fun _ => keeps_read.bind fun _ => keeps_pure _

theorem keeps_modifyStore {f : Store → Store} (hseq : ∀ s, (f s).seq = s.seq)
    (hclosed : ∀ s, (f s).closed = s.closed) (hunusable : ∀ s, (f s).unusable = s.unusable) :
    Tx.Keeps (Untouched w) (modifyStore f) :=
  keeps_write fun s h =>
    ⟨⟨(hseq s.store).trans h.seq, (hclosed s.store).trans h.closed,
      (hunusable s.store).trans h.unusable⟩, h.bytes⟩

theorem keeps_invalidateCursor : Tx.Keeps (Untouched w) (modifyStore Store.invalidateCursor) :=
  keeps_modifyStore (fun _ => rfl) (fun _ => rfl) fun _ => rfl

theorem keeps_resetCursor : Tx.Keeps (Untouched w) (modifyStore Store.resetCursor) :=
  keeps_modifyStore (fun _ => rfl) (fun _ => rfl) fun _ => rfl

theorem keeps_nextGen : Tx.Keeps (Untouched w) (modifyStore Store.nextGen) :=
  keeps_modifyStore (fun _ => rfl) (fun _ => rfl) fun _ => rfl

theorem keeps_verifyCursor : Tx.Keeps (Untouched w) (verifyCursorBeforeAppendLocked disk) := by
  refine keeps_read.bind fun _ => keeps_ite (fun _ => ?_) fun _ => keeps_pure ()
  refine (keeps_stat disk).attempt.bind fun result => ?_
  cases result with
  | error e => exact keeps_invalidateCursor
  | ok info => exact keeps_ite (fun _ => keeps_pure ()) fun _ => keeps_invalidateCursor

theorem untouched_noteAppended (s : Store) (file info : File) (n startOffset endOffset : Nat) :
    Untouched (World.mk file s n)
      (World.mk file (s.nextGen.noteAppended startOffset endOffset info) n) := by
  unfold Store.noteAppended
  split
  · exact ⟨⟨rfl, rfl, rfl⟩, rfl⟩
  · split <;> exact ⟨⟨rfl, rfl, rfl⟩, rfl⟩

/-- Accounting for an append cannot fail. -/
theorem noteAppended_untouched (startOffset endOffset : Nat) :
    Tx.wp (noteAppendedLocked disk startOffset endOffset) w (fun _ w' => Untouched w w')
      (fun _ _ => False) := by
  unfold noteAppendedLocked modifyStore
  rw [wp_bind, wp_write, wp_bind, wp_read, wp_ite]
  refine ⟨fun _ => ⟨⟨rfl, rfl, rfl⟩, rfl⟩, fun _ => ?_⟩
  rw [wp_ite]
  refine ⟨fun _ => ⟨⟨rfl, rfl, rfl⟩, rfl⟩, fun _ => ?_⟩
  rw [wp_bind, wp_attempt]
  refine wp_stat disk (fun n => ?_) fun e n => ⟨⟨rfl, rfl, rfl⟩, rfl⟩
  have h := untouched_noteAppended w.store w.file w.file n startOffset endOffset
  exact ⟨⟨h.seq, h.closed, h.unusable⟩, h.bytes⟩

/-! ## Writes and their rollback -/

/-- The write loop appends the whole line, or fails after a part of it. -/
theorem writeLoop_part (fuel : Nat) (line : Bytes) (hfuel : line.length ≤ fuel) :
    Tx.wp (writeLoop disk fuel line) w
      (fun _ w' => w'.store = w.store ∧ w'.file.bytes = w.file.bytes ++ line)
      (fun _ w' => w'.store = w.store ∧ ∃ part, part <+: line ∧
        w'.file.bytes = w.file.bytes ++ part) := by
  induction fuel generalizing line w with
  | zero =>
    obtain rfl : line = [] := length_eq_zero_iff.mp (Nat.le_zero.mp hfuel)
    exact ⟨rfl, (append_nil _).symm⟩
  | succ fuel ih =>
    unfold writeLoop
    rw [wp_ite]
    refine ⟨fun hempty => ⟨rfl, ?_⟩, fun hline => ?_⟩
    · rw [List.isEmpty_iff.mp hempty, append_nil]
    · rw [wp_bind]
      refine wp_nextCall ?_
      rw [wp_bind, wp_write, wp_ite]
      refine ⟨fun _ => ⟨rfl, _, take_prefix _ _, rfl⟩, fun _ => ?_⟩
      rw [wp_ite]
      refine ⟨fun _ => ⟨rfl, _, take_prefix _ _, rfl⟩, fun htaken => ?_⟩
      refine wp_mono (ih _ ?_) (fun _ w' hw' => ⟨hw'.1, ?_⟩) fun _ w' hw' => ⟨hw'.1, ?_⟩
      · rw [length_drop]
        omega
      · rw [hw'.2, append_assoc, take_append_drop]
      · -- what the call took, then what the rest of the loop wrote
        obtain ⟨part, hpart, hbytes⟩ := hw'.2
        refine ⟨_, ?_, hbytes.trans (append_assoc _ _ _)⟩
        have hline := (prefix_append_right_inj
          (line.take (min (disk.taken w.calls) line.length))).mpr hpart
        rw [take_append_drop] at hline
        exact hline

/-- What a failed append of `events` to `base` leaves in a store numbered up to `start`. -/
structure Undone (base : Bytes) (start : Int) (events : List Event) (w w' : World) : Prop where
  seq : w'.store.seq = w.store.seq
  closed : w'.store.closed = w.store.closed
  bytes : (w'.file.bytes = base ∧ w'.store.unusable = w.store.unusable) ∨
    (w'.store.unusable = true ∧ ∃ part, PartOf codec start events part ∧
      w'.file.bytes = base ++ part)

theorem rollbackAppend_undoes (hbytes : w.file.bytes = base ++ part) :
    Tx.wp (rollbackAppendLocked disk base.length) w
      (fun _ w' => Same w w' ∧ w'.file.bytes = base)
      (fun _ w' => Same w w' ∧ (w'.file.bytes = base ∨ w'.file.bytes = base ++ part)) := by
  have hsame : ∀ (file : File) (n : Nat),
      Same w { file := file, store := w.store.invalidateCursor, calls := n } :=
    fun _ _ => ⟨rfl, rfl, rfl⟩
  have htake : w.file.bytes.take base.length = base := by rw [hbytes, take_left]
  unfold rollbackAppendLocked modifyStore
  rw [wp_bind, wp_write, wp_bind, wp_attempt]
  refine wp_truncate disk (fun m n => ?_) fun e n => ?_
  · rw [wp_bind, wp_attempt]
    refine wp_seekEnd disk (fun n => ?_) fun e n => ⟨hsame _ n, Or.inl htake⟩
    exact wp_syncLocked disk (fun n => ⟨hsame _ n, htake⟩) fun e n => ⟨hsame _ n, Or.inl htake⟩
  · rw [wp_bind, wp_attempt]
    exact wp_seekEnd disk (fun n => ⟨hsame _ n, Or.inr hbytes⟩)
      fun e n => ⟨hsame _ n, Or.inr hbytes⟩

theorem appendFailure_undoes {α : Type} (operation : String) (hbytes : w.file.bytes = base ++ part)
    (hpart : PartOf codec start events part) (Q : α → World → Prop) :
    Tx.wp (appendFailureLocked disk operation base.length) w Q
      (fun _ w' => @Undone codec base start events w w') := by
  unfold appendFailureLocked
  rw [wp_bind, wp_attempt]
  refine wp_mono (rollbackAppend_undoes disk hbytes) (fun _ w' hw' => ?_) fun _ w' hw' => ?_
  · exact ⟨hw'.1.seq, hw'.1.closed, Or.inl ⟨hw'.2, hw'.1.unusable⟩⟩
  · refine ⟨hw'.1.seq, hw'.1.closed, Or.inr ⟨rfl, ?_⟩⟩
    rcases hw'.2 with hbase | hleft
    · exact ⟨[], PartOf.nil _ _, hbase.trans (append_nil _).symm⟩
    · exact ⟨part, hpart, hleft⟩

theorem Undone.of_store {w₁ : World} (h : @Undone codec base start events w₁ w') (hsame : Same w w₁) :
    @Undone codec base start events w w' := by
  refine ⟨h.seq.trans hsame.seq, h.closed.trans hsame.closed, ?_⟩
  rw [← hsame.unusable]
  exact h.bytes

theorem writeEvent_undoes {base before line : Bytes} {start : Int} {events : List Event}
    (hbytes : w.file.bytes = base ++ before)
    (hpart : ∀ part, part <+: line → PartOf codec start events (before ++ part)) :
    Tx.wp (writeEventLocked disk base.length line) w
      (fun _ w' => w'.store = w.store ∧ w'.file.bytes = base ++ (before ++ line))
      (fun _ w' => @Undone codec base start events w w') := by
  unfold writeEventLocked
  rw [wp_bind, wp_attempt]
  refine wp_mono (writeLoop_part disk line.length line le_rfl) (fun _ w' hw' => ?_)
    fun _ w' hw' => ?_
  · exact ⟨hw'.1, by rw [hw'.2, hbytes, append_assoc]⟩
  · obtain ⟨hstore, part, hprefix, hw'⟩ := hw'
    rw [hbytes, append_assoc] at hw'
    exact wp_mono (appendFailure_undoes disk _ hw' (hpart part hprefix) _)
      (fun _ _ h => h) fun _ _ h => h.of_store (Same.of_store hstore)

/-- What an append that goes through leaves: the lines of its events after the old bytes. -/
def Appended (codec : Codec) (events : List Event) (w w' : World) : Prop :=
  ∃ text, encodeFrom codec w.store.seq events = some text ∧
    w'.file.bytes = w.file.bytes ++ text ∧ w'.store.seq = w.store.seq + events.length ∧
    w'.store.closed = w.store.closed ∧ w'.store.unusable = w.store.unusable

theorem commitAppend_undoes (nextSeq : Int) (endOffset : Nat) (hbytes : w.file.bytes = base ++ text)
    (htext : encodeFrom codec start events = some text) :
    Tx.wp (commitAppendLocked disk nextSeq base.length endOffset) w
      (fun _ w' => w'.file.bytes = base ++ text ∧ w'.store.seq = nextSeq ∧
        w'.store.closed = w.store.closed ∧ w'.store.unusable = w.store.unusable)
      (fun _ w' => @Undone codec base start events w w') := by
  unfold commitAppendLocked
  rw [wp_bind, wp_attempt]
  refine wp_syncLocked disk (fun n => ?_) fun e n => ?_
  · unfold modifyStore
    rw [wp_bind, wp_write]
    refine wp_mono (noteAppended_untouched disk _ _) (fun _ w' hw' => ?_)
      fun _ _ hfalse => hfalse.elim
    exact ⟨hw'.bytes.trans hbytes, hw'.seq, hw'.closed, hw'.unusable⟩
  · exact wp_mono (appendFailure_undoes (w := { w with calls := n }) disk _ hbytes
      (PartOf.whole htext) _) (fun _ _ h => h) fun _ _ h => h.of_store ⟨rfl, rfl, rfl⟩

/-- The lines of the rest of a batch, after those already written. -/
theorem writeBatch_undoes {all : List Event} (events : List Event) (nextSeq : Int) (written : Nat)
    (before : Bytes) (hbytes : w.file.bytes = base ++ before)
    (hpart : ∀ part, PartOf codec nextSeq events part → PartOf codec start all (before ++ part)) :
    Tx.wp (writeBatch disk codec base.length events nextSeq written) w
      (fun result w' => w'.store = w.store ∧ ∃ text, encodeFrom codec nextSeq events = some text ∧
        w'.file.bytes = base ++ (before ++ text) ∧
        result = (nextSeq + events.length, written + text.length))
      (fun _ w' => @Undone codec base start all w w') := by
  induction events generalizing nextSeq written before w with
  | nil =>
    refine ⟨rfl, [], rfl, ?_, ?_⟩
    · rw [hbytes, append_nil]
    · simp
  | cons e events ih =>
    unfold writeBatch
    cases hb : codec.marshal { e with seq := nextSeq + 1 } with
    | none =>
      have hwritten := hpart [] (PartOf.nil _ _)
      rw [append_nil] at hwritten
      exact appendFailure_undoes disk _ hbytes hwritten _
    | some b =>
      rw [wp_bind]
      refine wp_mono (writeEvent_undoes disk hbytes fun part hprefix =>
        hpart part (PartOf.first hb hprefix)) (fun _ w₁ hw₁ => ?_) fun _ _ hw => hw
      refine wp_mono (ih (nextSeq + 1) _ (before ++ (b ++ [newline])) hw₁.2 fun part h => ?_)
        (fun result w₂ hw₂ => ?_) fun _ _ hw => hw.of_store (Same.of_store hw₁.1)
      · rw [append_assoc]
        exact hpart _ (PartOf.cons hb h)
      · obtain ⟨hstore, text, htext, hfile, hresult⟩ := hw₂
        refine ⟨hstore.trans hw₁.1, _, encodeFrom_cons hb htext, ?_, ?_⟩
        · rw [hfile, append_assoc]
        · rw [hresult]
          refine Prod.ext ?_ ?_
          · show nextSeq + 1 + (events.length : Int) = nextSeq + ((events.length + 1 : Nat) : Int)
            omega
          · show written + (b ++ [newline]).length + text.length =
              written + (b ++ [newline] ++ text).length
            rw [@length_append _ (b ++ [newline])]
            omega

/-! ## The two calls -/

/-- A store that is closed or unusable takes no call. -/
theorem ensureOpen_refused (h : w.store.closed = true ∨ w.store.unusable = true) :
    ∃ e, ensureOpenLocked w = (.error e, w) := by
  by_cases hclosed : w.store.closed = true
  · refine ⟨.storeClosed, ?_⟩
    show (if w.store.closed then Tx.abort .storeClosed
      else if w.store.unusable then Tx.abort .unusable else pure () : StoreTx Unit) w = _
    rw [if_pos hclosed]
    rfl
  · refine ⟨.unusable, ?_⟩
    show (if w.store.closed then Tx.abort .storeClosed
      else if w.store.unusable then Tx.abort .unusable else pure () : StoreTx Unit) w = _
    rw [if_neg hclosed, if_pos (h.resolve_left hclosed)]
    rfl

/-- What an append leaves that fails. -/
def Refused (codec : Codec) (events : List Event) (w w' : World) : Prop :=
  @Undone codec w.file.bytes w.store.seq events w w'

theorem Untouched.refused (h : Untouched w w') (events : List Event) :
    Refused codec events w w' := ⟨h.seq, h.closed, Or.inl ⟨h.bytes, h.unusable⟩⟩

theorem Undone.refused {w₁ : World} (hw₁ : Untouched w w₁)
    (h : @Undone codec w₁.file.bytes w₁.store.seq events w₁ w') : Refused codec events w w' := by
  have hsame := h.of_store hw₁.toSame
  rwa [hw₁.bytes, hw₁.seq] at hsame

theorem append_outcome (codec : Codec) (e : Event) :
    Tx.wp (append disk codec e) w (fun _ w' => Appended codec [e] w w')
      (fun _ w' => Refused codec [e] w w') := by
  unfold append
  rw [wp_bind]
  refine ensureOpen_spec ?_ fun _ => (Untouched.rfl' w).refused _
  rw [wp_bind]
  refine wp_mono (keeps_verifyCursor disk w (Untouched.rfl' w)) (fun _ w₁ hw₁ => ?_)
    fun _ w₁ hw₁ => hw₁.refused _
  rw [wp_bind, wp_read]
  dsimp only
  cases hb : codec.marshal { e with seq := w₁.store.seq + 1 } with
  | none => exact hw₁.refused _
  | some b =>
    rw [wp_bind]
    have hcalls : ∀ n, Untouched w { w₁ with calls := n } :=
      fun n => ⟨⟨hw₁.seq, hw₁.closed, hw₁.unusable⟩, hw₁.bytes⟩
    refine wp_seekEnd disk (fun n => ?_) fun e n => (hcalls n).refused _
    rw [wp_bind]
    refine wp_mono (@writeEvent_undoes disk codec { w₁ with calls := n } _ [] _
      w₁.store.seq [e] (append_nil _).symm
      fun part hprefix => PartOf.first hb hprefix) (fun _ w₂ hw₂ => ?_)
      fun _ _ hw => Undone.refused (hcalls n) hw
    have htext : encodeFrom codec w₁.store.seq [e] = some (b ++ [newline]) := by
      rw [encodeFrom_cons hb rfl, append_nil]
    refine wp_mono (commitAppend_undoes disk _ _ hw₂.2 htext) (fun _ w₃ hw₃ => ?_)
      fun _ _ hw => Undone.refused (hcalls n) (hw.of_store (Same.of_store hw₂.1))
    obtain ⟨hfile, hseq, hclosed, hunusable⟩ := hw₃
    rw [hw₁.seq] at htext hseq
    rw [hw₁.bytes] at hfile
    rw [hw₂.1] at hclosed hunusable
    exact ⟨_, htext, hfile, hseq, hclosed.trans hw₁.closed, hunusable.trans hw₁.unusable⟩

theorem appendBatch_outcome (codec : Codec) (events : List Event) :
    Tx.wp (appendBatch disk codec events) w (fun _ w' => Appended codec events w w')
      (fun _ w' => Refused codec events w w') := by
  have hnone : Appended codec [] w w :=
    ⟨[], rfl, (append_nil _).symm, (Int.add_zero _).symm, rfl, rfl⟩
  unfold appendBatch
  rw [wp_ite]
  refine ⟨fun hempty => ?_, fun _ => ?_⟩
  · obtain rfl := List.isEmpty_iff.mp hempty
    rw [wp_bind, wp_read, wp_ite]
    refine ⟨fun _ => hnone, fun _ => ?_⟩
    rw [wp_ite]
    exact ⟨fun _ => (Untouched.rfl' w).refused _, fun _ => hnone⟩
  · rw [wp_bind]
    refine ensureOpen_spec ?_ fun _ => (Untouched.rfl' w).refused _
    rw [wp_bind]
    refine wp_mono (keeps_verifyCursor disk w (Untouched.rfl' w)) (fun _ w₁ hw₁ => ?_)
      fun _ w₁ hw₁ => hw₁.refused _
    have hcalls : ∀ n, Untouched w { w₁ with calls := n } :=
      fun n => ⟨⟨hw₁.seq, hw₁.closed, hw₁.unusable⟩, hw₁.bytes⟩
    rw [wp_bind]
    refine wp_seekEnd disk (fun n => ?_) fun e n => (hcalls n).refused _
    rw [wp_bind, wp_read, wp_bind]
    refine wp_mono (writeBatch_undoes (w := { w₁ with calls := n }) disk events _ 0 []
      (append_nil _).symm fun part h => h) (fun result w₂ hw₂ => ?_)
      fun _ _ hw => Undone.refused (hcalls n) hw
    obtain ⟨hstore, text, htext, hfile, rfl⟩ := hw₂
    refine wp_mono (commitAppend_undoes disk _ _ hfile htext) (fun _ w₃ hw₃ => ?_)
      fun _ _ hw => Undone.refused (hcalls n) (hw.of_store (Same.of_store hstore))
    obtain ⟨hfile, hseq, hclosed, hunusable⟩ := hw₃
    dsimp only at htext hseq hfile
    rw [hw₁.seq] at htext hseq
    rw [hw₁.bytes] at hfile
    rw [hstore] at hclosed hunusable
    exact ⟨_, htext, hfile, hseq, hclosed.trans hw₁.closed, hunusable.trans hw₁.unusable⟩

end Evener.Jobstore
