/-
  A coherent job store, and its appends.

  A cached fold is the fold of the cursor's events, and while the file still shows the size and the
  modification time the cursor recorded, these are the decode of its leading bytes (`Coherent`).
-/
import Evener.Jobstore.Store

namespace Evener.Jobstore

open Evener.Lib List Tx

/-! ## Decoding from byte zero -/

variable {events : List Event} {start : Bytes} {E : StoreError → World → Prop} {operation : String}
  {Q : Unit → World → Prop} {α : Type}

section Decode

variable (codec : Codec)

/-- The events of some terminated lines, when every line decodes. -/
def decodeLines : List Bytes → Option (List Event)
  | [] => some []
  | line :: lines =>
    if maxLine < line.length + 1 then none
    else match decodeLine codec line with
      | .error _ => none
      | .ok events => (decodeLines lines).map (events ++ ·)

/-- The events of a file's complete lines. -/
def decodeFile (bytes : Bytes) : Option (List Event) := decodeLines codec (splitLines bytes).1

theorem decodeLines_append {l l' : List Bytes} {events' : List Event}
    (h : decodeLines codec l = some events) (h' : decodeLines codec l' = some events') :
    decodeLines codec (l ++ l') = some (events ++ events') := by
  induction l generalizing events with
  | nil =>
    obtain rfl := Option.some.inj h
    exact h'
  | cons line l ih =>
    rw [cons_append, decodeLines]
    rw [decodeLines] at h
    split at h
    · exact nomatch h
    · next hlen =>
      rw [if_neg hlen]
      cases hline : decodeLine codec line with
      | error e =>
        rw [hline] at h
        exact nomatch h
      | ok first =>
        rw [hline] at h
        obtain ⟨rest, hrest, rfl⟩ := Option.map_eq_some_iff.mp h
        rw [ih hrest]
        simp

/-- A carriage return after a JSON value is white space. -/
def AllowsCarriageReturn : Prop :=
  ∀ line e, line ≠ [] → codec.unmarshal line = .ok e → ∃ e', codec.unmarshal (line ++ [13]) = .ok e'

/-- An unterminated tail that holds no event. -/
def QuietTail (tail : Bytes) : Prop := tail = [] ∨ ∃ err, codec.unmarshal tail = .error err

variable {codec}

theorem QuietTail.decode {tail : Bytes} (h : QuietTail codec tail)
    (hspace : AllowsCarriageReturn codec) (hdecode : decodeLine codec tail = .ok events) :
    events = [] := by
  unfold decodeLine at hdecode
  dsimp only at hdecode
  split at hdecode
  · exact (Except.ok.inj hdecode).symm
  · next hne =>
    have hline : trimCarriageReturn tail ≠ [] := by simpa using hne
    cases hunmarshal : codec.unmarshal (trimCarriageReturn tail) with
    | error err =>
      rw [hunmarshal] at hdecode
      exact nomatch hdecode
    | ok e =>
      rcases h with rfl | ⟨err, herr⟩
      · exact absurd rfl hline
      · -- the tail is the line, or the line and a carriage return
        unfold trimCarriageReturn at hunmarshal hline
        split at hunmarshal
        · next hlast =>
          rw [if_pos hlast] at hline
          obtain ⟨e', he'⟩ := hspace _ e hline hunmarshal
          rw [dropLast_append_getLast? _ hlast, herr] at he'
          exact nomatch he'
        · rw [herr] at hunmarshal
          exact nomatch hunmarshal

end Decode

/-! ## The invariant -/

section Invariant

variable (codec : Codec)

/-- The cursor's events are the decode of the file's leading bytes. -/
structure Describes (bytes : Bytes) (c : FileCursor) : Prop where
  within : c.offset ≤ bytes.length
  ended : (splitLines (bytes.take c.offset)).2 = []
  decoded : decodeLines codec (splitLines (bytes.take c.offset)).1 = some c.events

/-- Every fold in the cache is the fold of `events`. -/
structure FoldsDescribe (folds : FoldCache) (events : List Event) : Prop where
  jobs : ∀ folded, folds.jobs = some folded → folded = fold events
  ordered : ∀ folded, folds.ordered = some folded → folded = foldOrdered events
  watches : ∀ folded, folds.watches = some folded → folded = foldWatches events
  sends : ∀ folded, folds.sends = some folded → folded = foldWatchSends events

structure Coherent (seen : List (Nat × Int)) (w : World) : Prop where
  folds : FoldsDescribe w.store.folds w.store.cursor.events
  seen : w.store.cursor.valid = true → (w.store.cursor.size, w.store.cursor.mod) ∈ seen
  describes : w.store.cursor.valid = true →
    w.file.stamp = (w.store.cursor.size, w.store.cursor.mod) →
    Describes codec w.file.bytes w.store.cursor

/-- The cursor is dropped. -/
structure Dropped (w : World) : Prop where
  folds : FoldsDescribe w.store.folds w.store.cursor.events
  invalid : w.store.cursor.valid = false

/-- In the middle of an append to `start`: a cursor that is still held describes `start`. -/
structure Tracked (seen : List (Nat × Int)) (start : Bytes) (w : World) : Prop where
  folds : FoldsDescribe w.store.folds w.store.cursor.events
  seen : w.store.cursor.valid = true → (w.store.cursor.size, w.store.cursor.mod) ∈ seen
  describes : w.store.cursor.valid = true → Describes codec start w.store.cursor

variable {codec} {seen : List (Nat × Int)} {w w' : World}

theorem foldsDescribe_none (gen : Nat) (events : List Event) :
    FoldsDescribe { gen := gen } events := ⟨nofun, nofun, nofun, nofun⟩

theorem Dropped.coherent (h : Dropped w) : Coherent codec seen w :=
  ⟨h.folds, fun hvalid => absurd (h.invalid.symm.trans hvalid) Bool.false_ne_true,
    fun hvalid => absurd (h.invalid.symm.trans hvalid) Bool.false_ne_true⟩

theorem Dropped.of_store (h : Dropped w) (hstore : w'.store = w.store) : Dropped w' := by
  refine ⟨?_, ?_⟩
  · rw [hstore]
    exact h.folds
  · rw [hstore]
    exact h.invalid

theorem dropped_invalidateCursor (w : World) :
    Dropped { w with store := w.store.invalidateCursor } := ⟨foldsDescribe_none _ _, rfl⟩

theorem dropped_resetCursor (w : World) :
    Dropped { w with store := w.store.resetCursor } := ⟨foldsDescribe_none _ _, rfl⟩

theorem Coherent.of_same (h : Coherent codec seen w) (hstore : w'.store = w.store)
    (hfile : w'.file = w.file) : Coherent codec seen w' := by
  refine ⟨?_, ?_, ?_⟩
  · rw [hstore]
    exact h.folds
  · rw [hstore]
    exact h.seen
  · rw [hstore, hfile]
    exact h.describes

theorem Coherent.mono (h : Coherent codec seen w) (stamp : Nat × Int) :
    Coherent codec (stamp :: seen) w :=
  ⟨h.folds, fun hvalid => mem_cons_of_mem _ (h.seen hvalid), h.describes⟩

theorem Tracked.of_store (h : Tracked codec seen start w) (hstore : w'.store = w.store) :
    Tracked codec seen start w' := by
  refine ⟨?_, ?_, ?_⟩
  · rw [hstore]
    exact h.folds
  · rw [hstore]
    exact h.seen
  · rw [hstore]
    exact h.describes

theorem Tracked.coherent (h : Tracked codec seen w.file.bytes w) : Coherent codec seen w :=
  ⟨h.folds, h.seen, fun hvalid _ => h.describes hvalid⟩

/-- Bytes appended after the cursor's own leave it right. -/
theorem Describes.append {bytes : Bytes} {c : FileCursor} (h : Describes codec bytes c)
    (more : Bytes) : Describes codec (bytes ++ more) c := by
  have htake : (bytes ++ more).take c.offset = bytes.take c.offset :=
    take_append_of_le_length h.within
  refine ⟨?_, ?_, ?_⟩
  · rw [length_append]
    exact le_trans h.within (Nat.le_add_right _ _)
  · rw [htake]
    exact h.ended
  · rw [htake]
    exact h.decoded

theorem describes_start (bytes : Bytes) (disabled : Bool) :
    Describes codec bytes { disabled := disabled } := ⟨Nat.zero_le _, rfl, rfl⟩

end Invariant

/-! ## File system calls -/

section Calls

variable (disk : Disk) {w : World}

theorem wp_nextCall {Q : Nat → World → Prop} (hQ : Q w.calls { w with calls := w.calls + 1 }) :
    Tx.wp nextCall w Q E := hQ

theorem wp_call (hQ : ∀ n, Q () { w with calls := n })
    (hE : ∀ n, E (.failed operation) { w with calls := n }) :
    Tx.wp (call disk operation) w Q E := by
  unfold call
  rw [wp_bind]
  refine wp_nextCall ?_
  rw [wp_ite]
  exact ⟨fun _ => hE _, fun _ => hQ _⟩

theorem wp_stat {Q : File → World → Prop} (hQ : ∀ n, Q w.file { w with calls := n })
    (hE : ∀ e n, E e { w with calls := n }) : Tx.wp (stat disk) w Q E := by
  unfold stat
  rw [wp_bind]
  exact wp_call disk (fun n => hQ n) fun n => hE _ n

theorem wp_seekEnd {Q : Nat → World → Prop} (hQ : ∀ n, Q w.file.bytes.length { w with calls := n })
    (hE : ∀ e n, E e { w with calls := n }) : Tx.wp (seekEnd disk operation) w Q E := by
  unfold seekEnd
  rw [wp_bind]
  exact wp_call disk (fun n => hQ n) fun n => hE _ n

theorem wp_syncLocked (hQ : ∀ n, Q () { w with calls := n }) (hE : ∀ e n, E e { w with calls := n }) :
    Tx.wp (syncLocked disk operation) w Q E := by
  unfold syncLocked
  rw [wp_bind, wp_read, wp_ite]
  exact ⟨fun _ => hQ w.calls, fun _ => wp_call disk hQ fun n => hE _ n⟩

theorem wp_truncate {offset : Nat}
    (hQ : ∀ m n, Q () { w with file := ⟨w.file.bytes.take offset, m⟩, calls := n })
    (hE : ∀ e n, E e { w with calls := n }) : Tx.wp (truncate disk operation offset) w Q E := by
  unfold truncate
  rw [wp_bind]
  refine wp_nextCall ?_
  rw [wp_ite]
  exact ⟨fun _ => hE _ _, fun _ => hQ _ _⟩

/-- A close changes nothing a body left. -/
theorem wp_closing {x : StoreTx α} {Q : α → World → Prop} (h : Tx.wp x w Q E)
    (hQ : ∀ a w' n, Q a w' → Q a { w' with calls := n })
    (hQE : ∀ a w' e n, Q a w' → E e { w' with calls := n })
    (hE : ∀ e w' n, E e w' → E e { w' with calls := n }) :
    Tx.wp (closing disk operation x) w Q E := by
  unfold closing
  rw [wp_bind, wp_attempt]
  refine wp_mono h (fun a w' ha => ?_) fun e w' he => ?_
  · rw [wp_bind, wp_attempt]
    exact wp_call disk (fun n => hQ a w' n ha) fun n => hQE a w' _ n ha
  · rw [wp_bind, wp_attempt]
    exact wp_call disk (fun n => hE e w' n he) fun n => hE e w' n he

/-- The write loop appends the whole line, or fails with the store untouched. -/
theorem wp_writeLoop (fuel : Nat) (line : Bytes) (hfuel : line.length ≤ fuel) :
    Tx.wp (writeLoop disk fuel line) w
      (fun _ w' => w'.store = w.store ∧ w'.file.bytes = w.file.bytes ++ line)
      (fun _ w' => w'.store = w.store) := by
  induction fuel generalizing line w with
  | zero =>
    obtain rfl : line = [] := length_eq_zero_iff.mp (Nat.le_zero.mp hfuel)
    exact ⟨rfl, (append_nil _).symm⟩
  | succ fuel ih =>
    unfold writeLoop
    rw [wp_ite]
    refine ⟨fun hempty => ⟨rfl, ?_⟩, fun hline => ?_⟩
    · rw [List.isEmpty_iff.mp hempty, append_nil]
    · rw [wp_bind]
      refine wp_nextCall ?_
      rw [wp_bind, wp_write, wp_ite]
      refine ⟨fun _ => rfl, fun _ => ?_⟩
      rw [wp_ite]
      refine ⟨fun _ => rfl, fun htaken => ?_⟩
      refine wp_mono (ih _ ?_) (fun _ w' hw' => ⟨hw'.1, ?_⟩) fun _ w' hw' => hw'
      · rw [length_drop]
        omega
      · rw [hw'.2, append_assoc, take_append_drop]

theorem wp_writeLineLocked (line : Bytes) :
    Tx.wp (writeLineLocked disk line) w
      (fun _ w' => w'.store = w.store ∧ w'.file.bytes = w.file.bytes ++ line)
      (fun _ w' => w'.store = w.store) := wp_writeLoop disk _ line le_rfl

end Calls

/-! ## Appends -/

section Appends

variable (disk : Disk) (codec : Codec) {seen : List (Nat × Int)} {w : World}

/-- After the check before an append, a cursor still held describes the file as it is. -/
theorem verifyCursorBeforeAppend_spec (h : Coherent codec seen w) :
    Tx.wp (verifyCursorBeforeAppendLocked disk) w
      (fun _ w' => w'.file = w.file ∧ Tracked codec seen w'.file.bytes w') (fun _ _ => False) := by
  have hdropped : ∀ n, Tracked codec seen w.file.bytes
      { w with store := w.store.invalidateCursor, calls := n } :=
    fun n => ⟨foldsDescribe_none _ _, nofun, nofun⟩
  unfold verifyCursorBeforeAppendLocked
  rw [wp_bind, wp_read, wp_ite]
  refine ⟨fun hvalid => ?_, fun hvalid => ?_⟩
  · rw [wp_bind, wp_attempt]
    refine wp_stat disk (fun n => ?_) fun e n => ⟨rfl, hdropped n⟩
    rw [wp_ite]
    refine ⟨fun htrusted => ⟨rfl, h.folds, h.seen, fun _ => ?_⟩, fun _ => ⟨rfl, hdropped n⟩⟩
    unfold cursorTrustedLocked at htrusted
    simp only [Bool.and_eq_true, decide_eq_true_eq] at htrusted
    exact h.describes hvalid (Prod.ext htrusted.1.2 htrusted.2)
  · exact ⟨rfl, h.folds, fun hv => absurd hv hvalid, fun hv => absurd hv hvalid⟩

theorem rollbackAppend_spec (startOffset : Nat) :
    Tx.wp (rollbackAppendLocked disk startOffset) w (fun _ w' => Dropped w')
      (fun _ w' => Dropped w') := by
  have hdropped := dropped_invalidateCursor w
  unfold rollbackAppendLocked modifyStore
  rw [wp_bind, wp_write, wp_bind, wp_attempt]
  refine wp_truncate disk (fun m n => ?_) fun e n => ?_
  · rw [wp_bind, wp_attempt]
    refine wp_seekEnd disk (fun n => ?_) fun e n => hdropped.of_store rfl
    exact wp_syncLocked disk (fun n => hdropped.of_store rfl) fun e n => hdropped.of_store rfl
  · rw [wp_bind, wp_attempt]
    exact wp_seekEnd disk (fun n => hdropped.of_store rfl) fun e n => hdropped.of_store rfl

theorem appendFailure_spec (operation : String) (startOffset : Nat) (Q : α → World → Prop) :
    Tx.wp (appendFailureLocked disk operation startOffset) w Q (fun _ w' => Dropped w') := by
  unfold appendFailureLocked
  rw [wp_bind, wp_attempt]
  refine wp_mono (rollbackAppend_spec disk startOffset) (fun _ w' hw' => hw') fun _ w' hw' => ?_
  exact ⟨hw'.folds, hw'.invalid⟩

theorem writeEvent_spec (startOffset : Nat) (line : Bytes) :
    Tx.wp (writeEventLocked disk startOffset line) w
      (fun _ w' => w'.store = w.store ∧ w'.file.bytes = w.file.bytes ++ line)
      (fun _ w' => Dropped w') := by
  unfold writeEventLocked
  rw [wp_bind, wp_attempt]
  exact wp_mono (wp_writeLineLocked disk line) (fun _ w' hw' => hw') fun _ w' _ =>
    appendFailure_spec disk _ _ _

/-- Accounting for an append to `start` keeps a cursor that described `start`. -/
theorem noteAppended_spec (startOffset endOffset : Nat) {written : Bytes}
    (h : Tracked codec seen start w) (hfile : w.file.bytes = start ++ written) :
    Tx.wp (noteAppendedLocked disk startOffset endOffset) w
      (fun _ w' => Coherent codec (w'.file.stamp :: seen) w') (fun _ _ => False) := by
  have hoff : ∀ n disabled, Dropped (World.mk w.file { w.store.nextGen with
      cursor := { w.store.cursor with valid := false, disabled := disabled } } n) :=
    fun n disabled => ⟨foldsDescribe_none _ _, rfl⟩
  unfold noteAppendedLocked modifyStore
  rw [wp_bind, wp_write, wp_bind, wp_read, wp_ite]
  refine ⟨fun hinvalid => ?_, fun hvalid => ?_⟩
  · have hinvalid : w.store.cursor.valid = false := by simpa [Store.nextGen] using hinvalid
    exact Dropped.coherent ⟨foldsDescribe_none _ _, hinvalid⟩
  · have hvalid : w.store.cursor.valid = true := by
      simpa [Store.nextGen] using hvalid
    rw [wp_ite]
    refine ⟨fun _ => (hoff w.calls _).coherent, fun _ => ?_⟩
    rw [wp_bind, wp_attempt]
    refine wp_stat disk (fun n => ?_) fun e n => (hoff n _).coherent
    show Coherent codec _ (World.mk w.file (w.store.nextGen.noteAppended _ _ w.file) n)
    unfold Store.noteAppended
    split
    · exact (hoff n _).coherent
    · split
      · exact (hoff n true).coherent
      · refine ⟨foldsDescribe_none _ _, fun _ => mem_cons_self, fun _ _ => ?_⟩
        have hdescribes := (h.describes hvalid).append written
        rw [← hfile] at hdescribes
        exact ⟨hdescribes.within, hdescribes.ended, hdescribes.decoded⟩

theorem commitAppend_spec (nextSeq : Int) (startOffset endOffset : Nat) {written : Bytes}
    (h : Tracked codec seen start w) (hfile : w.file.bytes = start ++ written) :
    Tx.wp (commitAppendLocked disk nextSeq startOffset endOffset) w
      (fun _ w' => Coherent codec (w'.file.stamp :: seen) w') (fun _ w' => Dropped w') := by
  unfold commitAppendLocked
  rw [wp_bind, wp_attempt]
  refine wp_syncLocked disk (fun n => ?_) fun e n => appendFailure_spec disk _ _ _
  unfold modifyStore
  rw [wp_bind, wp_write]
  refine wp_mono (noteAppended_spec disk codec startOffset endOffset
    ⟨h.folds, h.seen, h.describes⟩ hfile) (fun _ w' hw' => hw') fun _ _ hfalse => hfalse.elim

/-- Outcome of a call: the invariant holds with the stamp the file shows now. -/
def KeepsCoherent (seen : List (Nat × Int)) (w : World) : Prop :=
  Coherent codec (w.file.stamp :: seen) w

theorem Coherent.keeps (h : Coherent codec seen w) (n : Nat) :
    KeepsCoherent codec seen { w with calls := n } := ⟨h.folds, (h.mono _).seen, h.describes⟩

theorem Tracked.keeps (h : Tracked codec seen w.file.bytes w) (n : Nat) :
    KeepsCoherent codec seen { w with calls := n } := h.coherent.keeps codec n

theorem ensureOpen_spec (hQ : Q () w) (hE : ∀ e, E e w) : Tx.wp ensureOpenLocked w Q E := by
  unfold ensureOpenLocked
  rw [wp_bind, wp_read, wp_ite]
  refine ⟨fun _ => hE _, fun _ => ?_⟩
  rw [wp_ite]
  exact ⟨fun _ => hE _, fun _ => hQ⟩

theorem append_spec (h : Coherent codec seen w) (e : Event) :
    Tx.wp (append disk codec e) w (fun _ w' => KeepsCoherent codec seen w')
      (fun _ w' => KeepsCoherent codec seen w') := by
  unfold append
  rw [wp_bind]
  refine ensureOpen_spec ?_ fun _ => h.mono _
  rw [wp_bind]
  refine wp_mono (verifyCursorBeforeAppend_spec disk codec h) (fun _ w₁ hw₁ => ?_)
    fun _ _ hfalse => hfalse.elim
  obtain ⟨-, htracked⟩ := hw₁
  rw [wp_bind, wp_read]
  dsimp only
  split
  · exact htracked.coherent.mono _
  · rw [wp_bind]
    refine wp_seekEnd disk (fun n => ?_) fun e n => htracked.keeps codec n
    rw [wp_bind]
    refine wp_mono (writeEvent_spec disk _ _) (fun _ w₂ hw₂ => ?_) fun _ _ hoff => hoff.coherent
    refine wp_mono (commitAppend_spec disk codec _ _ _ (htracked.of_store hw₂.1) hw₂.2)
      (fun _ _ hw => hw) fun _ _ hoff => hoff.coherent

/-- The lines of a batch, written one after the other. -/
theorem writeBatch_spec (startOffset : Nat) (events : List Event) (nextSeq : Int) (written : Nat) :
    Tx.wp (writeBatch disk codec startOffset events nextSeq written) w
      (fun _ w' => w'.store = w.store ∧ ∃ more, w'.file.bytes = w.file.bytes ++ more)
      (fun _ w' => Dropped w') := by
  induction events generalizing nextSeq written w with
  | nil => exact ⟨rfl, [], (append_nil _).symm⟩
  | cons e events ih =>
    unfold writeBatch
    cases codec.marshal { e with seq := nextSeq + 1 } with
    | none => exact appendFailure_spec disk _ _ _
    | some b =>
      rw [wp_bind]
      refine wp_mono (writeEvent_spec disk _ _) (fun _ w₁ hw₁ => ?_) fun _ _ hoff => hoff
      refine wp_mono (ih _ _) (fun _ w₂ hw₂ => ?_) fun _ _ hoff => hoff
      obtain ⟨hstore, more, hmore⟩ := hw₂
      refine ⟨hstore.trans hw₁.1, (b ++ [newline]) ++ more, ?_⟩
      rw [hmore, hw₁.2, append_assoc]

theorem appendBatch_spec (h : Coherent codec seen w) (events : List Event) :
    Tx.wp (appendBatch disk codec events) w (fun _ w' => KeepsCoherent codec seen w')
      (fun _ w' => KeepsCoherent codec seen w') := by
  unfold appendBatch
  rw [wp_ite]
  refine ⟨fun _ => ?_, fun _ => ?_⟩
  · rw [wp_bind, wp_read, wp_ite]
    refine ⟨fun _ => h.mono _, fun _ => ?_⟩
    rw [wp_ite]
    exact ⟨fun _ => h.mono _, fun _ => h.mono _⟩
  · rw [wp_bind]
    refine ensureOpen_spec ?_ fun _ => h.mono _
    rw [wp_bind]
    refine wp_mono (verifyCursorBeforeAppend_spec disk codec h) (fun _ w₁ hw₁ => ?_)
      fun _ _ hfalse => hfalse.elim
    obtain ⟨-, htracked⟩ := hw₁
    rw [wp_bind]
    refine wp_seekEnd disk (fun n => ?_) fun e n => htracked.keeps codec n
    rw [wp_bind, wp_read, wp_bind]
    refine wp_mono (writeBatch_spec disk codec _ events _ _) (fun result w₂ hw₂ => ?_)
      fun _ _ hoff => hoff.coherent
    obtain ⟨hstore, more, hmore⟩ := hw₂
    exact wp_mono (commitAppend_spec disk codec _ _ _ (htracked.of_store hstore) hmore)
      (fun _ _ hw => hw) fun _ _ hoff => hoff.coherent

end Appends

end Evener.Jobstore
