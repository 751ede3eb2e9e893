/-
  Over any run of one job store the numbers in its journal only grow.

  A store that takes calls is over a file of whole lines, numbered up to its counter (`Numbered`).
-/
import Evener.Jobstore.Numbering

namespace Evener.Jobstore

open Evener.Lib List Tx Option

/-! ## Runs -/

/-- The numbers in the file increase, and a store that takes calls is over whole lines numbered
    up to its counter. -/
structure Numbered (codec : Codec) (w : World) : Prop where
  increasing : (fileSeqs codec w.file.bytes).Pairwise (· < ·)
  blank : w.store.unusable = false → BlankTail (splitLines w.file.bytes).2
  bounded : w.store.unusable = false → ∀ n ∈ fileSeqs codec w.file.bytes, n ≤ w.store.seq

section Runs

variable (disk : Disk) {codec : Codec} {w w' : World}

theorem Numbered.of_same (h : Numbered codec w) (hbytes : w'.file.bytes = w.file.bytes)
    (hseq : w'.store.seq = w.store.seq) (hunusable : w'.store.unusable = w.store.unusable) :
    Numbered codec w' := by
  refine ⟨?_, ?_, ?_⟩
  · rw [hbytes]
    exact h.increasing
  · rw [hbytes, hunusable]
    exact h.blank
  · rw [hbytes, hseq, hunusable]
    exact h.bounded

theorem Untouched.numbered (hsame : Untouched w w') (h : Numbered codec w) : Numbered codec w' :=
  h.of_same hsame.bytes hsame.seq hsame.unusable

/-- Numbers from the counter on keep the file increasing. -/
theorem Numbered.extended (h : Numbered codec w) (hopen : w.store.unusable = false) (n : Nat) :
    (fileSeqs codec w.file.bytes ++ numbersFrom w.store.seq n).Pairwise (· < ·) := by
  refine pairwise_append.mpr ⟨h.increasing, numbersFrom_increasing _ n, fun a ha b hb => ?_⟩
  have hle := h.bounded hopen a ha
  have hlt := (mem_numbersFrom hb).1
  omega

theorem Appended.numbered (hjson : codec.Json) {events : List Event}
    (happended : Appended codec events w w') (h : Numbered codec w)
    (hopen : w.store.unusable = false) : Numbered codec w' := by
  obtain ⟨text, htext, hbytes, hseq, -, hunusable⟩ := happended
  obtain ⟨hseqs, hblank⟩ := fileSeqs_text hjson (h.blank hopen) htext
  rw [← hbytes] at hseqs hblank
  refine ⟨?_, fun _ => hblank, fun _ n hn => ?_⟩
  · rw [hseqs]
    exact h.extended hopen _
  · rw [hseqs] at hn
    rcases mem_append.mp hn with hold | hnew
    · have := h.bounded hopen n hold
      omega
    · have := (mem_numbersFrom hnew).2
      omega

theorem Undone.numbered (hjson : codec.Json) {events : List Event}
    (hrefused : Refused codec events w w') (h : Numbered codec w)
    (hopen : w.store.unusable = false) : Numbered codec w' := by
  rcases hrefused.bytes with ⟨hbytes, hunusable⟩ | ⟨hgone, part, hpart, hbytes⟩
  · exact h.of_same hbytes hrefused.seq hunusable
  · obtain ⟨n, hseqs⟩ := fileSeqs_partOf hjson (h.blank hopen) hpart
    rw [← hbytes] at hseqs
    refine ⟨?_, fun hfalse => ?_, fun hfalse => ?_⟩
    · rw [hseqs]
      exact h.extended hopen n
    · rw [hgone] at hfalse
      exact nomatch hfalse
    · rw [hgone] at hfalse
      exact nomatch hfalse

theorem Numbered.close (h : Numbered codec w) :
    Numbered codec (execStore disk codec .close w).2 := by
  have hleft := (close_leaves (w := w) disk).bind (f := fun _ => pure StoreReply.done)
    (fun _ => keeps_pure _) w ⟨rfl, rfl, rfl⟩
  obtain ⟨hbytes, hseq, hunusable⟩ := wp_final hleft
  exact h.of_same hbytes hseq hunusable

/-- An append to an unusable store writes nothing. -/
theorem Numbered.unusable (h : Numbered codec w) (hgone : w.store.unusable = true)
    {op : StoreOp} (hclose : op ≠ .close) : Numbered codec (execStore disk codec op w).2 := by
  by_cases hempty : op = .appendBatch [] ∧ w.store.closed = true
  · obtain ⟨rfl, hclosed⟩ := hempty
    have hrun : execStore disk codec (.appendBatch []) w = (.ok .done, w) := by
      have hbatch : appendBatch disk codec [] w = (.ok (), w) := by
        show (if w.store.closed then pure ()
          else if w.store.unusable then Tx.abort .unusable else pure () : StoreTx Unit) w = _
        rw [hclosed]
        rfl
      show (appendBatch disk codec [] >>= fun _ => pure StoreReply.done) w = _
      exact Tx.bind_ok hbatch
    rw [hrun]
    exact h
  · obtain ⟨e, he⟩ := execStore_unusable disk codec hgone hclose fun hop => by
      simpa [hop] using hempty
    rw [he]
    exact h

theorem Numbered.step (hjson : codec.Json) (h : Numbered codec w) (op : StoreOp) :
    Numbered codec (execStore disk codec op w).2 := by
  by_cases hclose : op = .close
  · subst hclose
    exact h.close disk
  cases hgone : w.store.unusable with
  | true => exact h.unusable disk hgone hclose
  | false =>
    cases happends : op.appends with
    | some events =>
      exact wp_final (wp_mono (execStore_outcome disk codec happends)
        (fun _ _ hw' => hw'.numbered hjson h hgone) fun _ _ hw' => Undone.numbered hjson hw' h hgone)
    | none =>
      have hreads := execStore_reads disk hjson (h.blank hgone) happends hclose
      exact (wp_final (hreads w (Untouched.rfl' w))).numbered h

/-- A run of one store: its own calls, one after the other. -/
theorem Numbered.run (hjson : codec.Json) (ops : List StoreOp) (h : Numbered codec w) :
    Numbered codec (runStore disk codec w (ops.map StoreStep.call)) := by
  induction ops generalizing w with
  | nil => exact h
  | cons op ops ih => exact ih (h.step disk hjson op)

end Runs

/-! ## Opening -/

section Opening

variable (disk : Disk) {codec : Codec} {w : World}

/-- The repair of the trailing line gives it a terminator or takes a text without a value away. -/
theorem recoverTrailing_sublist :
    Tx.wp (recoverTrailingPartialLineLocked disk codec) w
      (fun _ w' => List.Sublist (fileSeqs codec w'.file.bytes) (fileSeqs codec w.file.bytes))
      (fun _ _ => True) := by
  have hrepair : ∀ n, Tx.wp (recoverTrailingJSONLineLocked disk codec (splitLines w.file.bytes).2
      (w.file.bytes.length - (splitLines w.file.bytes).2.length)) { w with calls := n }
      (fun _ w' => List.Sublist (fileSeqs codec w'.file.bytes) (fileSeqs codec w.file.bytes))
      (fun _ _ => True) := by
    intro n
    unfold recoverTrailingJSONLineLocked
    cases codec.unmarshal (splitLines w.file.bytes).2 with
    | ok e =>
      unfold finishTrailingJSONLineLocked modifyStore
      rw [wp_bind, wp_write, wp_bind]
      refine wp_seekEnd disk (fun n => ?_) fun _ _ => trivial
      rw [wp_bind]
      refine wp_mono (wp_writeLineLocked disk _) (fun _ w' hw' => ?_) fun _ _ _ => trivial
      refine wp_syncLocked disk (fun n => ?_) fun _ _ => trivial
      show List.Sublist (fileSeqs codec w'.file.bytes) _
      rw [hw'.2, fileSeqs_newline]
    | error err =>
      rw [wp_ite]
      refine ⟨fun _ => ?_, fun _ => List.Sublist.refl _⟩
      unfold modifyStore
      rw [wp_bind, wp_write, wp_bind]
      refine wp_truncate disk (fun m n => ?_) fun _ _ => trivial
      rw [wp_bind]
      refine wp_seekEnd disk (fun n => ?_) fun _ _ => trivial
      refine wp_syncLocked disk (fun n => ?_) fun _ _ => trivial
      show List.Sublist (fileSeqs codec (w.file.bytes.take _)) _
      have hcomplete := splitLines_complete w.file.bytes
      rw [take_complete, fileSeqs_of_blank (Or.inl (congrArg Prod.snd hcomplete)), hcomplete]
      exact (sublist_append_left _ _).filterMap _
  have hsame : List.Sublist (fileSeqs codec w.file.bytes) (fileSeqs codec w.file.bytes) :=
    List.Sublist.refl _
  unfold recoverTrailingPartialLineLocked
  rw [wp_bind]
  refine wp_stat disk (fun n => ?_) fun _ _ => trivial
  rw [wp_ite]
  refine ⟨fun _ => hsame, fun _ => ?_⟩
  rw [wp_bind]
  refine wp_call disk (fun n => ?_) fun _ => trivial
  refine wp_closing disk ?_ (fun _ _ _ hw' => hw') (fun _ _ _ _ _ => trivial)
    fun _ _ _ _ => trivial
  rw [wp_bind]
  refine wp_call disk (fun n => ?_) fun _ => trivial
  rw [wp_bind]
  refine wp_call disk (fun n => ?_) fun _ => trivial
  rw [wp_ite]
  refine ⟨fun _ => hsame, fun _ => ?_⟩
  rw [wp_bind]
  refine wp_call disk (fun n => ?_) fun _ => trivial
  rw [wp_bind, wp_read]
  exact hrepair n

theorem fileSeqs_decoded {bytes : Bytes} {events : List Event}
    (hblank : BlankTail (splitLines bytes).2) (h : decodeFile codec bytes = some events) :
    fileSeqs codec bytes = events.map Event.seq := by
  rw [fileSeqs_of_blank hblank]
  unfold decodeFile at h
  revert h
  generalize (splitLines bytes).1 = lines
  intro h
  induction lines generalizing events with
  | nil =>
    obtain rfl := some.inj h
    rfl
  | cons line lines ih =>
    rw [decodeLines] at h
    split at h
    · cases h
    · cases hline : decodeLine codec line with
      | error err =>
        rw [hline] at h
        cases h
      | ok first =>
        rw [hline] at h
        obtain ⟨rest, hrest, rfl⟩ := map_eq_some_iff.mp h
        have hseq : lineSeq codec line = first.head?.map Event.seq := by
          unfold lineSeq
          rw [hline]
          rfl
        rcases decodeLine_short hline with rfl | ⟨e, rfl⟩
        · rw [filterMap_cons_none hseq, ih hrest, nil_append]
        · rw [filterMap_cons_some hseq, ih hrest]
          rfl

/-- A scan from byte zero goes through only when the tail decodes. -/
theorem advanceCursor_tail (hoffset : w.store.cursor.offset = 0) :
    Tx.wp (advanceCursorLocked disk codec) w (fun _ w' => w'.file = w.file ∧
      ∃ events, decodeLine codec (splitLines w.file.bytes).2 = .ok events) (fun _ _ => True) := by
  have hscan : ∀ n, Tx.wp (do
      Tx.each (scanLine codec) (splitLines w.file.bytes).1
      let events ← scanTail codec (splitLines w.file.bytes).2
      call disk "scan"
      return events) { w with calls := n } (fun _ w' => w'.file = w.file ∧
        ∃ events, decodeLine codec (splitLines w.file.bytes).2 = .ok events)
        (fun _ _ => True) := by
    intro n
    rw [wp_bind]
    refine wp_mono (scanLines_spec codec _) (fun _ w' hw' => ?_) fun _ _ _ => trivial
    rw [wp_bind]
    unfold scanTail
    rw [wp_bind, wp_read, wp_ite]
    refine ⟨fun _ => trivial, fun _ => ?_⟩
    cases hdecode : decodeLine codec (splitLines w.file.bytes).2 with
    | error err => exact trivial
    | ok events =>
      rw [wp_pure, wp_bind]
      exact wp_call disk (fun n => ⟨hw'.1, events, rfl⟩) fun _ => trivial
  unfold advanceCursorLocked
  rw [wp_bind]
  refine wp_call disk (fun n => ?_) fun _ => trivial
  refine wp_closing disk ?_ (fun _ _ _ hw' => hw') (fun _ _ _ _ _ => trivial)
    fun _ _ _ _ => trivial
  rw [wp_bind, wp_read]
  rw [hoffset, drop_zero, if_neg (Nat.lt_irrefl 0)]
  exact hscan n

/-- A load over an unread file goes through only when its tail decodes. -/
theorem readCursor_tail (info : File) (hoffset : w.store.cursor.offset = 0) :
    Tx.wp (readCursorLocked disk codec info false) w (fun _ w' => w'.file = w.file ∧
      ∃ events, decodeLine codec (splitLines w.file.bytes).2 = .ok events) (fun _ _ => True) := by
  unfold readCursorLocked modifyStore
  rw [wp_bind, wp_read]
  rw [wp_ite]
  refine ⟨fun _ => ?_, fun hread => absurd rfl hread⟩
  unfold rescanLocked modifyStore
  rw [wp_bind, wp_bind, wp_attempt]
  refine wp_mono (advanceCursor_tail disk hoffset) (fun _ w' hw' => hw') fun _ _ _ => trivial

/-- What a first read of a file leaves of its bytes. -/
def FirstRead (codec : Codec) (w w' : World) : Prop :=
  List.Sublist (fileSeqs codec w'.file.bytes) (fileSeqs codec w.file.bytes) ∧
    BlankTail (splitLines w'.file.bytes).2

theorem readAll_first (hjson : codec.Json) (hinvalid : w.store.cursor.valid = false) :
    Tx.wp (readAllLocked disk codec) w (fun _ w' => FirstRead codec w w') (fun _ _ => True) := by
  have hrecover := wp_and (recoverTrailingPartialLine_spec (w := w) disk codec)
    (recoverTrailing_sublist (w := w) disk)
  unfold readAllLocked
  rw [wp_bind]
  refine wp_mono hrecover (fun _ w₁ hw₁ => ?_) fun _ _ _ => trivial
  obtain ⟨⟨hrepaired, hquiet⟩, hsub⟩ := hw₁
  have hinvalid₁ : w₁.store.cursor.valid = false := by
    rcases hrepaired with hoff | ⟨hstore, -⟩
    · exact hoff.invalid
    · rw [hstore]
      exact hinvalid
  rw [wp_bind, wp_attempt]
  refine wp_stat disk (fun n => ?_) fun _ _ => trivial
  rw [wp_bind, wp_read, wp_ite]
  refine ⟨fun htrusted => ?_, fun _ => ?_⟩
  · simp [cursorTrustedLocked, hinvalid₁] at htrusted
  · unfold modifyStore
    rw [wp_bind, wp_write]
    refine wp_mono (readCursor_tail disk w₁.file rfl) (fun _ w' hw' => ?_) fun _ _ _ => trivial
    obtain ⟨hfile, events, hdecode⟩ := hw'
    have hfile : w'.file = w₁.file := hfile
    have hdecode : decodeLine codec (splitLines w₁.file.bytes).2 = .ok events := hdecode
    obtain rfl := hquiet.decode hjson.after hdecode
    refine ⟨?_, ?_⟩
    · rw [hfile]
      exact hsub
    · rw [hfile]
      exact BlankTail.of_decode hdecode

theorem le_foldl_seq (events : List Event) (seq : Int) :
    seq ≤ events.foldl (fun seq e => max seq e.seq) seq ∧
      ∀ e ∈ events, e.seq ≤ events.foldl (fun seq e => max seq e.seq) seq := by
  induction events generalizing seq with
  | nil => exact ⟨le_refl seq, fun e he => absurd he not_mem_nil⟩
  | cons first events ih =>
    obtain ⟨hstart, hrest⟩ := ih (max seq first.seq)
    refine ⟨le_trans (le_max_left _ _) hstart, fun e he => ?_⟩
    rcases mem_cons.mp he with rfl | he
    · exact le_trans (le_max_right _ _) hstart
    · exact hrest e he

/-- A file whose numbers increase opens to a store that continues them. -/
theorem openFs_numbered (hjson : codec.Json) (file : File) (disableSync : Bool)
    (hincreasing : (fileSeqs codec file.bytes).Pairwise (· < ·)) :
    Tx.wp (openFs disk codec) ⟨file, { disableSync := disableSync }, 0⟩
      (fun _ w' => Numbered codec w') (fun _ _ => True) := by
  unfold openFs
  rw [wp_bind]
  refine wp_stat disk (fun n => ?_) fun _ _ => trivial
  rw [wp_ite]
  refine ⟨fun hempty => ?_, fun _ => ?_⟩
  · have hnil : file.bytes = [] := List.isEmpty_iff.mp hempty
    refine ⟨hincreasing, fun _ => ?_, fun _ k hk => ?_⟩
    · show BlankTail (splitLines file.bytes).2
      rw [hnil]
      exact Or.inl rfl
    · have hk : k ∈ fileSeqs codec file.bytes := hk
      rw [hnil, fileSeqs_of_blank (Or.inl rfl)] at hk
      exact absurd hk not_mem_nil
  · have hstart : Coherent codec [] ⟨file, { disableSync := disableSync }, n⟩ :=
      Dropped.coherent ⟨foldsDescribe_none _ _, rfl⟩
    have hread := wp_and (readAll_spec disk codec hjson.after hstart)
      (readAll_first (w := ⟨file, { disableSync := disableSync }, n⟩) disk hjson rfl)
    rw [wp_bind]
    refine wp_mono hread (fun events w' hw' => ?_) fun _ _ _ => trivial
    obtain ⟨⟨⟨-, hdecoded⟩, -⟩, hsub, hblank⟩ := hw'
    refine ⟨hincreasing.sublist hsub, fun _ => hblank, fun _ k hk => ?_⟩
    have hk : k ∈ fileSeqs codec w'.file.bytes := hk
    rw [fileSeqs_decoded hblank hdecoded] at hk
    obtain ⟨e, he, rfl⟩ := mem_map.mp hk
    exact (le_foldl_seq events w'.store.seq).2 e he

end Opening

/-! ## The whole account -/

/-- An append that succeeds leaves the old bytes and the lines of its events, numbered from the
    counter on. One that fails leaves the bytes and the counter, or a store that refuses every
    later call, but for an empty batch after a close. The numbers in a file only ever grow. -/
theorem journal_all_or_nothing (disk : Disk) (codec : Codec) (hjson : codec.Json) :
    (∀ (w : World) (op : StoreOp) (events : List Event), op.appends = some events →
      (∀ reply w', execStore disk codec op w = (.ok reply, w') →
        ∃ text, encodeFrom codec w.store.seq events = some text ∧
          w'.file.bytes = w.file.bytes ++ text ∧ w'.store.seq = w.store.seq + events.length) ∧
      ∀ e w', execStore disk codec op w = (.error e, w') →
        (w'.store.unusable = false →
          w'.file.bytes = w.file.bytes ∧ w'.store.seq = w.store.seq) ∧
        (w'.store.unusable = true → ∀ (steps : List StoreStep) (later : StoreOp), later ≠ .close →
          (later = .appendBatch [] → (runStore disk codec w' steps).store.closed = false) →
          ∃ e', (execStore disk codec later (runStore disk codec w' steps)).1 = .error e')) ∧
    ∀ (file : File) (disableSync : Bool) (w₀ : World),
      openFs disk codec ⟨file, { disableSync := disableSync }, 0⟩ = (.ok (), w₀) →
      (fileSeqs codec file.bytes).Pairwise (· < ·) → ∀ ops : List StoreOp,
        (fileSeqs codec (runStore disk codec w₀ (ops.map StoreStep.call)).file.bytes).Pairwise
          (· < ·) := by
  refine ⟨fun w op events happends => ⟨fun reply w' hrun => ?_, fun e w' hrun => ⟨?_, ?_⟩⟩, ?_⟩
  · obtain ⟨text, htext, hbytes, hseq, -, -⟩ :=
      wp_of_ok (execStore_outcome disk codec happends) hrun
    exact ⟨text, htext, hbytes, hseq⟩
  · intro husable
    have hrefused := wp_of_error (execStore_outcome disk codec happends) hrun
    rcases hrefused.bytes with ⟨hbytes, -⟩ | ⟨hgone, -⟩
    · exact ⟨hbytes, hrefused.seq⟩
    · rw [husable] at hgone
      exact nomatch hgone
  · intro hgone steps later hclose hempty
    obtain ⟨e', he'⟩ := execStore_unusable disk codec
      (runStore_unusable disk codec steps hgone) hclose hempty
    exact ⟨e', by rw [he']⟩
  · intro file disableSync w₀ hopen hincreasing ops
    have hopened := wp_of_ok (openFs_numbered disk hjson file disableSync hincreasing) hopen
    exact (hopened.run disk hjson ops).increasing

/-- The record of the start of the job `a`, as the journal has it. -/
def startLine (digit : UInt8) : Bytes :=
  [123, 34, 107, 105, 110, 100, 34, 58, 34, 106, 111, 98, 95, 115, 116, 97, 114, 116, 101, 100, 34,
    44, 34, 115, 101, 113, 34, 58, digit, 44, 34, 116, 115, 34, 58, 34, 48, 48, 48, 49, 45, 48, 49,
    45, 48, 49, 84, 48, 48, 58, 48, 48, 58, 48, 48, 90, 34, 44, 34, 106, 111, 98, 95, 105, 100, 34,
    58, 34, 97, 34, 125]

def startEvent (seq : Int) : Event := { kind := .jobStarted, seq := seq, jobId := "a" }

/-- `encoding/json` on the first two records of that job. -/
def startCodec : Codec where
  marshal e := if e.seq = 1 then some (startLine 49) else if e.seq = 2 then some (startLine 50)
    else none
  unmarshal line :=
    let text := ((line.dropWhile fun b => b = 13).reverse.dropWhile fun b => b = 13).reverse
    if text = startLine 49 then .ok (startEvent 1)
    else if text = startLine 50 then .ok (startEvent 2)
    else .error ⟨"unexpected end of JSON input", some line.length⟩

theorem startCodec_cut (n : Nat) (h : n < 71) :
    (startCodec.unmarshal ((startLine 49).take n)).isOk = false ∧
      (startCodec.unmarshal ((startLine 50).take n)).isOk = false := by
  revert n
  decide

theorem startCodec_marshal {e : Event} {b : Bytes} (h : startCodec.marshal e = some b) :
    (e.seq = 1 ∧ b = startLine 49) ∨ (e.seq = 2 ∧ b = startLine 50) := by
  unfold startCodec at h
  dsimp only at h
  split at h
  · next hone => exact Or.inl ⟨hone, (some.inj h).symm⟩
  · split at h
    · next htwo => exact Or.inr ⟨htwo, (some.inj h).symm⟩
    · exact nomatch h

theorem startCodec_json : startCodec.Json where
  escaped e b h := by
    rcases startCodec_marshal h with ⟨-, rfl⟩ | ⟨-, rfl⟩
    · decide
    · decide
  decodes e b h := by
    rcases startCodec_marshal h with ⟨hseq, rfl⟩ | ⟨hseq, rfl⟩
    · exact ⟨startEvent 1, rfl, hseq.symm⟩
    · exact ⟨startEvent 2, rfl, hseq.symm⟩
  cut e b part h hpart hne := by
    have htake := prefix_iff_eq_take.mp hpart
    have hlength : part.length < b.length := by
      refine Nat.lt_of_le_of_ne hpart.length_le fun heq => hne ?_
      rw [htake, heq, take_length]
    have hfails : (startCodec.unmarshal part).isOk = false := by
      rcases startCodec_marshal h with ⟨-, rfl⟩ | ⟨-, rfl⟩
      · rw [htake]
        exact (startCodec_cut _ hlength).1
      · rw [htake]
        exact (startCodec_cut _ hlength).2
    cases hrun : startCodec.unmarshal part with
    | error err => exact ⟨err, rfl⟩
    | ok e' =>
      rw [hrun] at hfails
      exact nomatch hfails
  empty := ⟨_, rfl⟩
  before line := by
    have hsame : ((13 : UInt8) :: line).dropWhile (fun b => b = 13) =
        line.dropWhile fun b => b = 13 := dropWhile_cons_of_pos (by decide)
    unfold startCodec
    dsimp only
    rw [hsame]
    split
    · rfl
    · split <;> rfl
  after line e _ h := by
    have htrim : ((line ++ [13]).dropWhile fun b : UInt8 => b = 13).reverse.dropWhile
        (fun b => b = 13) = (line.dropWhile fun b => b = 13).reverse.dropWhile fun b => b = 13 := by
      rw [dropWhile_append]
      split
      · next hempty =>
        rw [List.isEmpty_iff.mp hempty]
        decide
      · rw [reverse_append]
        exact dropWhile_cons_of_pos (by decide)
    refine ⟨e, ?_⟩
    unfold startCodec at h ⊢
    dsimp only at h ⊢
    rw [htrim]
    split at h
    · next hone => rw [if_pos hone, h]
    · next hone =>
      rw [if_neg hone]
      split at h
      · next htwo => rw [if_pos htwo, h]
      · exact nomatch h

/-- A disk on which the calls of these numbers fail and a write takes 40 bytes at most. -/
def failingDisk (failing : List Nat) : Disk where
  fails n := failing.contains n
  taken _ := 40
  mtime n := n

/-- A store opened over an empty file. -/
def openedEmpty : World := (openFs (failingDisk []) startCodec ⟨{}, {}, 0⟩).2

theorem openedEmpty_eq (failing : List Nat) (h : failing.contains 0 = false) :
    openFs (failingDisk failing) startCodec ⟨{}, {}, 0⟩ = (.ok (), openedEmpty) := by
  have hcall : call (failingDisk failing) "stat" ⟨{}, {}, 0⟩ = (.ok (), ⟨{}, {}, 1⟩) := by
    show (if failing.contains 0 then Tx.abort _ else pure () : StoreTx Unit) ⟨{}, {}, 1⟩ = _
    rw [h]
    rfl
  unfold openFs
  have hstat : stat (failingDisk failing) ⟨{}, {}, 0⟩ = (.ok {}, ⟨{}, {}, 1⟩) := Tx.bind_ok hcall
  rw [Tx.bind_ok hstat]
  rfl

/-- Two appends, and between them one whose write fails halfway and is rolled back. -/
theorem journal_all_or_nothing_rolledBack :
    fileSeqs startCodec (runStore (failingDisk [7]) startCodec openedEmpty
      [.call (.append (startEvent 0)), .call (.append (startEvent 0)),
        .call (.append (startEvent 0))]).file.bytes = [1, 2] ∧
    (fileSeqs startCodec (runStore (failingDisk [7]) startCodec openedEmpty
      [.call (.append (startEvent 0)), .call (.append (startEvent 0)),
        .call (.append (startEvent 0))]).file.bytes).Pairwise (· < ·) :=
  ⟨by decide, (journal_all_or_nothing (failingDisk [7]) startCodec startCodec_json).2 {}
    false openedEmpty (openedEmpty_eq [7] rfl) List.Pairwise.nil
    [.append (startEvent 0), .append (startEvent 0), .append (startEvent 0)]⟩

/-- A write and its rollback fail, the store is closed, and an empty batch goes through. -/
theorem empty_batch_after_unusable :
    (execStore (failingDisk [3, 4]) startCodec (.append (startEvent 0)) openedEmpty).1.isOk =
      false ∧
    (execStore (failingDisk [3, 4]) startCodec (.append (startEvent 0)) openedEmpty).2.store.unusable =
      true ∧
    (execStore (failingDisk [3, 4]) startCodec (.appendBatch [])
      (runStore (failingDisk [3, 4]) startCodec
        (execStore (failingDisk [3, 4]) startCodec (.append (startEvent 0)) openedEmpty).2
        [.call .close])).1.isOk = true := by
  refine ⟨by decide, by decide, by decide⟩

end Evener.Jobstore
