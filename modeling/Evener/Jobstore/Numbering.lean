/-
  The numbers of the events in a job journal, and which calls can change them.

  An append that fails and cannot be undone leaves a part of its lines. The one other text an
  opened file may end with is a lone carriage return.
-/
import Evener.Jobstore.AllOrNothing

namespace Evener.Jobstore

open Evener.Lib List Tx Option

/-! ## The numbers in a file -/

/-- `encoding/json` as its documentation has it: control characters are escaped, a value is read
    back from its text and from no part of it, and white space around a value does not count. -/
structure Codec.Json (codec : Codec) : Prop where
  escaped : ∀ e b, codec.marshal e = some b → newline ∉ b ∧ (13 : UInt8) ∉ b
  decodes : ∀ e b, codec.marshal e = some b → ∃ e', codec.unmarshal b = .ok e' ∧ e'.seq = e.seq
  cut : ∀ e b part, codec.marshal e = some b → part <+: b → part ≠ b →
    ∃ err, codec.unmarshal part = .error err
  empty : ∃ err, codec.unmarshal [] = .error err
  before : ∀ line, (codec.unmarshal (13 :: line)).toOption = (codec.unmarshal line).toOption
  after : AllowsCarriageReturn codec

variable {seq : Int} {tail text b part base : Bytes} {events : List Event} {e : Event}
  {op : StoreOp}

section File

variable (codec : Codec)

/-- The number of the event on a line, when there is one. -/
def lineSeq (line : Bytes) : Option Int :=
  (decodeLine codec line).toOption.bind fun events => events.head?.map Event.seq

/-- The numbers of the events in a file, its unterminated last line included. -/
def fileSeqs (bytes : Bytes) : List Int :=
  ((splitLines bytes).1 ++ [(splitLines bytes).2]).filterMap (lineSeq codec)

/-- The `n` numbers after `seq`. -/
def numbersFrom : Int → Nat → List Int
  | _, 0 => []
  | seq, n + 1 => (seq + 1) :: numbersFrom (seq + 1) n

theorem mem_numbersFrom {k : Int} {n : Nat} (h : k ∈ numbersFrom seq n) :
    seq < k ∧ k ≤ seq + n := by
  induction n generalizing seq with
  | zero => exact absurd h not_mem_nil
  | succ n ih =>
    rcases mem_cons.mp h with rfl | h
    · omega
    · have := ih h
      omega

theorem numbersFrom_increasing (seq : Int) (n : Nat) :
    (numbersFrom seq n).Pairwise (· < ·) := by
  induction n generalizing seq with
  | zero => exact List.Pairwise.nil
  | succ n ih => exact List.Pairwise.cons (fun _ h => (mem_numbersFrom h).1) (ih _)

/-- A tail without a value, or with white space only. -/
def BlankTail (tail : Bytes) : Prop := tail = [] ∨ tail = [13]

variable {codec}

theorem decodeLine_blank (h : BlankTail tail) : decodeLine codec tail = .ok [] := by
  rcases h with rfl | rfl
  · rfl
  · rfl

theorem decodeLine_short {line : Bytes} (h : decodeLine codec line = .ok events) :
    events = [] ∨ ∃ e, events = [e] := by
  unfold decodeLine at h
  dsimp only at h
  split at h
  · exact Or.inl (Except.ok.inj h).symm
  · cases hline : codec.unmarshal (trimCarriageReturn line) with
    | error err =>
      rw [hline] at h
      exact nomatch h
    | ok e =>
      rw [hline] at h
      exact Or.inr ⟨e, (Except.ok.inj h).symm⟩

theorem lineSeq_blank (h : BlankTail tail) : lineSeq codec tail = none := by
  unfold lineSeq
  rw [decodeLine_blank h]
  rfl

theorem BlankTail.of_decode (h : decodeLine codec tail = .ok []) : BlankTail tail := by
  unfold decodeLine at h
  dsimp only at h
  split at h
  · next hempty =>
    unfold trimCarriageReturn at hempty
    split at hempty
    · next hlast =>
      obtain ⟨init, rfl⟩ := getLast?_eq_some_iff.mp hlast
      rw [dropLast_concat, List.isEmpty_iff] at hempty
      exact Or.inr (by rw [hempty, nil_append])
    · exact Or.inl (List.isEmpty_iff.mp hempty)
  · cases hline : codec.unmarshal (trimCarriageReturn tail) with
    | error err =>
      rw [hline] at h
      exact nomatch h
    | ok e =>
      rw [hline] at h
      exact nomatch h

/-- Text without a carriage return, after a blank tail, decodes as it is. -/
theorem lineSeq_after_blank (hjson : codec.Json) (hblank : BlankTail tail) (hne : text ≠ [])
    (htext : (13 : UInt8) ∉ text) :
    lineSeq codec (tail ++ text) = (codec.unmarshal text).toOption.map Event.seq := by
  have hlast : (tail ++ text).getLast? ≠ some 13 := by
    rw [getLast?_append_of_ne_nil _ hne]
    exact fun h => htext (mem_of_getLast? h)
  have hnonempty : (tail ++ text).isEmpty = false := by
    rw [isEmpty_eq_false_iff]
    exact append_ne_nil_of_right_ne_nil _ hne
  have hsame : (codec.unmarshal (tail ++ text)).toOption = (codec.unmarshal text).toOption := by
    rcases hblank with rfl | rfl
    · rfl
    · exact hjson.before text
  unfold lineSeq decodeLine trimCarriageReturn
  rw [if_neg hlast]
  dsimp only
  rw [hnonempty, ← hsame]
  cases codec.unmarshal (tail ++ text) with
  | error err => rfl
  | ok e => rfl

theorem lineSeq_record (hjson : codec.Json) (hblank : BlankTail tail)
    (hb : codec.marshal e = some b) : lineSeq codec (tail ++ b) = some e.seq := by
  obtain ⟨e', he', hseq⟩ := hjson.decodes e b hb
  have hne : b ≠ [] := by
    rintro rfl
    obtain ⟨err, herr⟩ := hjson.empty
    rw [he'] at herr
    exact nomatch herr
  rw [lineSeq_after_blank hjson hblank hne (hjson.escaped e b hb).2, he', ← hseq]
  rfl

/-- A record cut short is no event. -/
theorem lineSeq_cut (hjson : codec.Json) (hblank : BlankTail tail) (hb : codec.marshal e = some b)
    (hpart : part <+: b) (hne : part ≠ b) : lineSeq codec (tail ++ part) = none := by
  by_cases hnil : part = []
  · rw [hnil, append_nil]
    exact lineSeq_blank hblank
  · obtain ⟨err, herr⟩ := hjson.cut e b part hb hpart hne
    have hescaped : (13 : UInt8) ∉ part := fun h => (hjson.escaped e b hb).2 (hpart.subset h)
    rw [lineSeq_after_blank hjson hblank hnil hescaped, herr]
    rfl

theorem fileSeqs_of_blank {bytes : Bytes} (h : BlankTail (splitLines bytes).2) :
    fileSeqs codec bytes = (splitLines bytes).1.filterMap (lineSeq codec) := by
  unfold fileSeqs
  rw [filterMap_append, filterMap_cons_none (lineSeq_blank h), filterMap_nil,
    append_nil]

/-- A terminator changes no number. -/
theorem fileSeqs_newline (bytes : Bytes) :
    fileSeqs codec (bytes ++ [newline]) = fileSeqs codec bytes := by
  rw [fileSeqs_of_blank (Or.inl (congrArg Prod.snd (splitLines_newline bytes))),
    splitLines_newline]
  rfl

/-- One whole record more. -/
theorem fileSeqs_record (hjson : codec.Json) (hbase : BlankTail (splitLines base).2)
    (hb : codec.marshal e = some b) :
    fileSeqs codec (base ++ b) = fileSeqs codec base ++ [e.seq] := by
  have hsplit := splitLines_append_tail base (hjson.escaped e b hb).1
  rw [fileSeqs_of_blank hbase]
  unfold fileSeqs
  rw [hsplit, filterMap_append]
  have hrecord : ([(splitLines base).2 ++ b].filterMap (lineSeq codec)) = [e.seq] := by
    rw [filterMap_cons_some (lineSeq_record hjson hbase hb), filterMap_nil]
  rw [hrecord]

theorem fileSeqs_cut (hjson : codec.Json) (hbase : BlankTail (splitLines base).2)
    (hb : codec.marshal e = some b) (hpart : part <+: b) (hne : part ≠ b) :
    fileSeqs codec (base ++ part) = fileSeqs codec base := by
  have hescaped : newline ∉ part := fun h => (hjson.escaped e b hb).1 (hpart.subset h)
  have hsplit := splitLines_append_tail base hescaped
  rw [fileSeqs_of_blank hbase]
  unfold fileSeqs
  rw [hsplit, filterMap_append,
    filterMap_cons_none (lineSeq_cut hjson hbase hb hpart hne), filterMap_nil,
    append_nil]

/-- The lines of some events, whole. -/
theorem fileSeqs_text (hjson : codec.Json) (hbase : BlankTail (splitLines base).2)
    (htext : encodeFrom codec seq events = some text) :
    fileSeqs codec (base ++ text) = fileSeqs codec base ++ numbersFrom seq events.length ∧
      BlankTail (splitLines (base ++ text)).2 := by
  induction events generalizing seq base text with
  | nil =>
    obtain rfl := some.inj htext
    rw [append_nil]
    exact ⟨(append_nil _).symm, hbase⟩
  | cons e events ih =>
    obtain ⟨b, hb, rest, hrest, rfl⟩ := encodeFrom_cons_some htext
    have hended : BlankTail (splitLines (base ++ b ++ [newline])).2 :=
      Or.inl (congrArg Prod.snd (splitLines_newline _))
    obtain ⟨hseqs, hblank⟩ := ih hended hrest
    rw [fileSeqs_newline, fileSeqs_record hjson hbase hb] at hseqs
    have hbytes : base ++ (b ++ [newline] ++ rest) = base ++ b ++ [newline] ++ rest := by
      simp only [append_assoc]
    rw [hbytes]
    exact ⟨hseqs.trans (append_assoc _ _ _), hblank⟩

/-- A part of these lines: the numbers of the first few. -/
theorem fileSeqs_part (hjson : codec.Json) (hbase : BlankTail (splitLines base).2)
    (htext : encodeFrom codec seq events = some text) (hpart : part <+: text) :
    ∃ n, fileSeqs codec (base ++ part) = fileSeqs codec base ++ numbersFrom seq n := by
  induction events generalizing seq base text part with
  | nil =>
    obtain rfl := some.inj htext
    rw [prefix_nil.mp hpart, append_nil]
    exact ⟨0, (append_nil _).symm⟩
  | cons e events ih =>
    obtain ⟨b, hb, rest, hrest, rfl⟩ := encodeFrom_cons_some htext
    have hwhole : fileSeqs codec (base ++ b) = fileSeqs codec base ++ numbersFrom seq 1 :=
      fileSeqs_record hjson hbase hb
    rw [append_assoc] at hpart
    rcases prefix_append_cases hpart with hshort | ⟨more, rfl, hmore⟩
    · by_cases hne : part = b
      · exact ⟨1, by rw [hne, hwhole]⟩
      · exact ⟨0, by rw [fileSeqs_cut hjson hbase hb hshort hne]; exact (append_nil _).symm⟩
    · rcases prefix_cons_iff.mp hmore with rfl | ⟨after, rfl, hafter⟩
      · exact ⟨1, by rw [append_nil, hwhole]⟩
      · have hended : BlankTail (splitLines (base ++ b ++ [newline])).2 :=
          Or.inl (congrArg Prod.snd (splitLines_newline _))
        obtain ⟨n, hn⟩ := ih hended hrest hafter
        refine ⟨n + 1, ?_⟩
        rw [fileSeqs_newline, fileSeqs_record hjson hbase hb] at hn
        have hbytes : base ++ (b ++ newline :: after) = base ++ b ++ [newline] ++ after := by
          simp only [append_assoc, singleton_append]
        rw [hbytes]
        exact hn.trans (append_assoc _ _ _)

theorem fileSeqs_partOf (hjson : codec.Json) (hbase : BlankTail (splitLines base).2)
    (h : PartOf codec seq events part) :
    ∃ n, fileSeqs codec (base ++ part) = fileSeqs codec base ++ numbersFrom seq n := by
  obtain ⟨done, rest, text, -, htext, hpart⟩ := h
  exact fileSeqs_part hjson hbase htext hpart

end File

/-! ## Calls that only read -/

section Reads

variable (disk : Disk) {codec : Codec} {w : World}

theorem keeps_ensureOpen : Tx.Keeps (Untouched w) ensureOpenLocked :=
  keeps_read.bind fun _ => keeps_ite (fun _ => keeps_abort _) fun _ =>
    keeps_ite (fun _ => keeps_abort _) fun _ => keeps_pure ()

theorem keeps_closing {α : Type} (operation : String) {x : StoreTx α}
    (hx : Tx.Keeps (Untouched w) x) : Tx.Keeps (Untouched w) (closing disk operation x) := by
  refine hx.attempt.bind fun result => (keeps_call disk operation).attempt.bind fun closed => ?_
  cases result with
  | error e => exact keeps_abort e
  | ok a =>
    cases closed with
    | error e => exact keeps_abort e
    | ok _ => exact keeps_pure a

theorem blank_quiet (hjson : codec.Json) (h : BlankTail tail) :
    ∃ err, codec.unmarshal tail = .error err ∧ isIncompleteTrailingJSON tail err = false := by
  have hempty : (codec.unmarshal []).toOption = none := by
    obtain ⟨err, herr⟩ := hjson.empty
    rw [herr]
    rfl
  have hnone : (codec.unmarshal tail).toOption = none := by
    rcases h with rfl | rfl
    · exact hempty
    · exact (hjson.before []).trans hempty
  have htrim : trimSpace tail = [] := by
    rcases h with rfl | rfl
    · rfl
    · decide
  cases hline : codec.unmarshal tail with
  | ok e =>
    rw [hline] at hnone
    exact nomatch hnone
  | error err =>
    refine ⟨err, rfl, ?_⟩
    unfold isIncompleteTrailingJSON
    rw [htrim]
    rfl

/-- A blank tail is left as it is. -/
theorem keeps_recoverTrailing (hjson : codec.Json)
    (hblank : BlankTail (splitLines w.file.bytes).2) :
    Tx.Keeps (Untouched w) (recoverTrailingPartialLineLocked disk codec) := by
  refine (keeps_stat disk).bind fun info => ?_
  refine keeps_ite (fun _ => keeps_pure ()) fun _ => ?_
  refine (keeps_call disk _).bind fun _ => keeps_closing disk _ ?_
  refine (keeps_call disk _).bind fun _ => (keeps_call disk _).bind fun _ => ?_
  refine keeps_ite (fun _ => keeps_pure ()) fun _ => ?_
  refine (keeps_call disk _).bind fun _ => keeps_read_bind fun s hs => ?_
  rw [← hs.bytes] at hblank
  obtain ⟨err, herr, hquiet⟩ := blank_quiet hjson hblank
  unfold recoverTrailingJSONLineLocked
  dsimp only
  rw [herr]
  dsimp only
  rw [hquiet]
  exact keeps_pure ()

theorem keeps_scanLine (line : Bytes) : Tx.Keeps (Untouched w) (scanLine codec line) := by
  refine keeps_read.bind fun _ => keeps_ite (fun _ => keeps_abort _) fun _ => ?_
  cases decodeLine codec line with
  | error err => exact keeps_abort _
  | ok events => exact keeps_modifyStore (fun _ => rfl) (fun _ => rfl) fun _ => rfl

theorem keeps_scanTail (tail : Bytes) : Tx.Keeps (Untouched w) (scanTail codec tail) := by
  refine keeps_read.bind fun _ => keeps_ite (fun _ => keeps_abort _) fun _ => ?_
  cases decodeLine codec tail with
  | error err => exact keeps_abort _
  | ok events => exact keeps_pure events

theorem keeps_advanceCursor : Tx.Keeps (Untouched w) (advanceCursorLocked disk codec) := by
  refine (keeps_call disk _).bind fun _ => keeps_closing disk _ ?_
  have hscan : ∀ lines tail, Tx.Keeps (Untouched w) (do
      Tx.each (scanLine codec) lines
      let events ← scanTail codec tail
      call disk "scan"
      return events) := by
    intro lines tail
    refine (keeps_each (fun line => keeps_scanLine line) lines).bind fun _ => ?_
    exact (keeps_scanTail tail).bind fun events => (keeps_call disk _).bind fun _ =>
      keeps_pure events
  refine keeps_read.bind fun s => keeps_ite (fun _ => ?_) fun _ => hscan _ _
  exact (keeps_call disk _).bind fun _ => hscan _ _

theorem keeps_rescan : Tx.Keeps (Untouched w) (rescanLocked disk codec) := by
  refine (keeps_advanceCursor disk).attempt.bind fun result => ?_
  cases result with
  | error e => exact keeps_resetCursor.bind fun _ => keeps_abort e
  | ok tail => exact keeps_nextGen.bind fun _ => keeps_pure tail

theorem keeps_readCursor (info : File) (trusted : Bool) :
    Tx.Keeps (Untouched w) (readCursorLocked disk codec info trusted) := by
  have hnote : ∀ tail, Tx.Keeps (Untouched w) (do
      modifyStore fun s => s.noteRead info
      return (← Tx.read).store.cursor.events ++ tail) := by
    intro tail
    refine Tx.Keeps.bind ?_ fun _ => keeps_read.bind fun _ => keeps_pure _
    exact keeps_modifyStore (fun _ => rfl) (fun _ => rfl) fun _ => rfl
  refine keeps_read.bind fun _ => keeps_ite (fun _ => ?_) fun _ => ?_
  · exact (keeps_rescan disk).bind fun tail => hnote tail
  · exact (keeps_pure []).bind fun tail => hnote tail

theorem keeps_readAll (hjson : codec.Json) (hblank : BlankTail (splitLines w.file.bytes).2) :
    Tx.Keeps (Untouched w) (readAllLocked disk codec) := by
  refine (keeps_recoverTrailing disk hjson hblank).bind fun _ => ?_
  refine (keeps_stat disk).attempt.bind fun result => ?_
  cases result with
  | error e => exact keeps_resetCursor.bind fun _ => keeps_abort e
  | ok info =>
    refine keeps_read.bind fun _ => keeps_ite (fun _ => keeps_readCursor disk info true)
      fun _ => keeps_resetCursor.bind fun _ => keeps_readCursor disk info false

theorem keeps_foldCurrent : Tx.Keeps (Untouched w) (foldCurrentLocked disk) :=
  keeps_read.bind fun _ => keeps_ite (fun _ => keeps_pure _) fun _ =>
    (keeps_stat disk).bind fun _ => keeps_pure _

/-- The end of `loadFold`: what the cache answered, or a fold of the whole journal. -/
def loadedOr (codec : Codec) {α : Type} (slot : FoldSlot α) : Option α → StoreTx α
  | some folded => pure folded
  | none => do
    let folded := slot.fold (← readAllLocked disk codec)
    modifyStore fun s => { s with folds := slot.set folded { s.folds with gen := s.foldGen } }
    return folded

theorem keeps_loadFold (hjson : codec.Json) (hblank : BlankTail (splitLines w.file.bytes).2)
    {α : Type} (slot : FoldSlot α) : Tx.Keeps (Untouched w) (loadFold disk codec slot) := by
  have hrest : ∀ hit, Tx.Keeps (Untouched w) (loadedOr disk codec slot hit) := by
    intro hit
    cases hit with
    | some folded => exact keeps_pure folded
    | none =>
      refine (keeps_readAll disk hjson hblank).bind fun _ => Tx.Keeps.bind ?_ fun _ => keeps_pure _
      exact keeps_modifyStore (fun _ => rfl) (fun _ => rfl) fun _ => rfl
  refine keeps_ensureOpen.bind fun _ => keeps_read.bind fun s => ?_
  dsimp only
  cases slot.get s.store.folds with
  | none => exact (keeps_pure none).bind hrest
  | some folded =>
    refine keeps_ite (fun _ => (keeps_pure none).bind hrest) fun _ => ?_
    exact (keeps_foldCurrent disk).bind fun current => keeps_ite
      (fun _ => (keeps_pure (some folded)).bind hrest) fun _ => (keeps_pure none).bind hrest

end Reads

/-! ## Calls of the store -/

/-- The events a call appends. -/
def StoreOp.appends : StoreOp → Option (List Event)
  | .append e => some [e]
  | .appendBatch events => some events
  | _ => none

section Calls

variable (disk : Disk) {codec : Codec} {w : World}

theorem execStore_outcome (codec : Codec) (happends : op.appends = some events) :
    Tx.wp (execStore disk codec op) w (fun _ w' => Appended codec events w w')
      (fun _ w' => Refused codec events w w') := by
  cases op with
  | append e =>
    obtain rfl := some.inj happends
    unfold execStore
    rw [wp_bind]
    exact append_outcome disk codec e
  | appendBatch batch =>
    obtain rfl := some.inj happends
    unfold execStore
    rw [wp_bind]
    exact appendBatch_outcome disk codec batch
  | _ => exact nomatch happends

/-- An unusable store refuses every call but a close and, once it is closed, an empty batch. -/
theorem execStore_unusable (codec : Codec) (h : w.store.unusable = true) (hclose : op ≠ .close)
    (hempty : op = .appendBatch [] → w.store.closed = false) :
    ∃ e, execStore disk codec op w = (.error e, w) := by
  obtain ⟨e, he⟩ := ensureOpen_refused (w := w) (Or.inr h)
  cases op with
  | close => exact absurd rfl hclose
  | appendBatch events =>
    cases events with
    | cons first rest => exact ⟨e, Tx.bind_error (Tx.bind_error he)⟩
    | nil =>
      refine ⟨.unusable, Tx.bind_error ?_⟩
      show (if w.store.closed then pure ()
        else if w.store.unusable then Tx.abort .unusable else pure () : StoreTx Unit) w = _
      rw [hempty rfl, h]
      rfl
  | append _ => exact ⟨e, Tx.bind_error (Tx.bind_error he)⟩
  | load => exact ⟨e, Tx.bind_error (Tx.bind_error he)⟩
  | loadOrdered => exact ⟨e, Tx.bind_error (Tx.bind_error he)⟩
  | loadWatches => exact ⟨e, Tx.bind_error (Tx.bind_error he)⟩
  | loadWatchSends => exact ⟨e, Tx.bind_error (Tx.bind_error he)⟩
  | loadEvents => exact ⟨e, Tx.bind_error (Tx.bind_error he)⟩
  | checkRetirementReady => exact ⟨e, Tx.bind_error (Tx.bind_error he)⟩

/-- What a close leaves alone. -/
theorem close_leaves : Tx.Keeps (fun w' => w'.file.bytes = w.file.bytes ∧
    w'.store.seq = w.store.seq ∧ w'.store.unusable = w.store.unusable) (close disk) := by
  refine keeps_read.bind fun _ => keeps_ite (fun _ => keeps_abort _) fun _ => ?_
  refine Tx.Keeps.bind (fun s hs => wp_call disk (fun _ => hs) fun _ => hs) fun _ => ?_
  exact keeps_write fun _ hs => hs

/-- A call that only reads leaves a file with a blank tail as it is. -/
theorem execStore_reads (hjson : codec.Json) (hblank : BlankTail (splitLines w.file.bytes).2)
    (happends : op.appends = none) (hclose : op ≠ .close) :
    Tx.Keeps (Untouched w) (execStore disk codec op) := by
  cases op with
  | append _ => exact nomatch happends
  | appendBatch _ => exact nomatch happends
  | close => exact absurd rfl hclose
  | load => exact (keeps_loadFold disk hjson hblank jobsSlot).bind fun _ => keeps_pure _
  | loadOrdered => exact (keeps_loadFold disk hjson hblank orderedSlot).bind fun _ => keeps_pure _
  | loadWatches => exact (keeps_loadFold disk hjson hblank watchesSlot).bind fun _ => keeps_pure _
  | loadWatchSends => exact (keeps_loadFold disk hjson hblank sendsSlot).bind fun _ => keeps_pure _
  | loadEvents =>
    exact (keeps_ensureOpen.bind fun _ => keeps_readAll disk hjson hblank).bind fun _ =>
      keeps_pure _
  | checkRetirementReady =>
    refine (keeps_ensureOpen.bind fun _ => keeps_resetCursor.bind fun _ => ?_).bind fun _ =>
      keeps_pure _
    exact (keeps_readAll disk hjson hblank).bind fun _ => keeps_pure ()

/-- An unusable store stays so, whatever is done to it and to its file. -/
theorem stepStore_unusable (codec : Codec) (h : w.store.unusable = true) (step : StoreStep) :
    (stepStore disk codec w step).store.unusable = true := by
  cases step with
  | foreign file => exact h
  | call op =>
    by_cases hclose : op = .close
    · subst hclose
      have hleft := (close_leaves (w := w) disk).bind (f := fun _ => pure StoreReply.done)
        (fun _ => keeps_pure _) w ⟨rfl, rfl, rfl⟩
      exact (wp_final hleft).2.2.trans h
    · by_cases hempty : op = .appendBatch [] ∧ w.store.closed = true
      · obtain ⟨rfl, hclosed⟩ := hempty
        exact (wp_final (wp_mono (execStore_outcome disk codec rfl)
          (fun _ w' hw' => hw'.choose_spec.2.2.2.2.trans h) fun _ w' hw' =>
            hw'.bytes.elim (fun hsame => hsame.2.trans h) fun hgone => hgone.1))
      · obtain ⟨e, he⟩ := execStore_unusable disk codec h hclose fun hop => by
          simpa [hop] using hempty
        show (execStore disk codec op w).2.store.unusable = true
        rw [he]
        exact h

theorem runStore_unusable (codec : Codec) (steps : List StoreStep) (h : w.store.unusable = true) :
    (runStore disk codec w steps).store.unusable = true := by
  induction steps generalizing w with
  | nil => exact h
  | cons step steps ih => exact ih (stepStore_unusable disk codec h step)

end Calls

end Evener.Jobstore
