/-
  The cursor and the fold cache of the job store never serve stale or missing bytes.
-/
import Evener.Jobstore.CoherentReads

namespace Evener.Jobstore

open Evener.Lib List Tx

variable {events : List Event} {α : Type}

/-! ## Runs -/

section Runs

variable (disk : Disk) (codec : Codec) {seen : List (Nat × Int)} {w : World}

/-- What a load answers when the file's complete lines decode to `events`. -/
def StoreOp.answer (events : List Event) : StoreOp → StoreReply
  | .load => .jobs (fold events)
  | .loadOrdered => .ordered (foldOrdered events)
  | .loadWatches => .watches (foldWatches events)
  | .loadWatchSends => .sends (foldWatchSends events)
  | .loadEvents => .events events
  | _ => .done

def StoreOp.reads : StoreOp → Bool
  | .load | .loadOrdered | .loadWatches | .loadWatchSends | .loadEvents | .checkRetirementReady =>
    true
  | .append _ | .appendBatch _ | .close => false

/-- The reply of a call, when it succeeds: what the file as it is now decodes and folds to. -/
def Answers (op : StoreOp) (reply : StoreReply) (w : World) : Prop :=
  op.reads = true → ∃ events, decodeFile codec w.file.bytes = some events ∧ reply = op.answer events

theorem loadReply_spec (hspace : AllowsCarriageReturn codec) {slot : FoldSlot α}
    (hslot : SlotSound slot) (h : Coherent codec seen w) {op : StoreOp} (reply : α → StoreReply)
    (hreply : ∀ events, reply (slot.fold events) = op.answer events) :
    Tx.wp (do return reply (← loadFold disk codec slot)) w
      (fun r w' => KeepsCoherent codec seen w' ∧ Answers codec op r w')
      (fun _ w' => KeepsCoherent codec seen w') := by
  rw [wp_bind]
  refine wp_mono (loadFold_spec disk codec hspace hslot h) (fun folded w' hw' => ?_)
    fun _ _ hkeeps => hkeeps
  obtain ⟨hkeeps, events, hdecoded, rfl⟩ := hw'
  exact ⟨hkeeps, fun _ => ⟨events, hdecoded, hreply events⟩⟩

theorem execStore_spec (hspace : AllowsCarriageReturn codec) (h : Coherent codec seen w)
    (op : StoreOp) :
    Tx.wp (execStore disk codec op) w
      (fun reply w' => KeepsCoherent codec seen w' ∧ Answers codec op reply w')
      (fun _ w' => KeepsCoherent codec seen w') := by
  have hreadAll : ∀ {w' : World}, Coherent codec seen w' → Tx.wp (readAllLocked disk codec) w'
      (fun events w'' => KeepsCoherent codec seen w'' ∧
        decodeFile codec w''.file.bytes = some events) (fun _ w'' => KeepsCoherent codec seen w'') :=
    fun h' => wp_mono (readAll_spec disk codec hspace h') (fun _ _ hw => hw.1) fun _ _ hw => hw
  cases op with
  | append e =>
    unfold execStore
    rw [wp_bind]
    exact wp_mono (append_spec disk codec h e) (fun _ _ hkeeps => ⟨hkeeps, nofun⟩)
      fun _ _ hkeeps => hkeeps
  | appendBatch events =>
    unfold execStore
    rw [wp_bind]
    exact wp_mono (appendBatch_spec disk codec h events) (fun _ _ hkeeps => ⟨hkeeps, nofun⟩)
      fun _ _ hkeeps => hkeeps
  | load => exact loadReply_spec disk codec hspace jobsSlot_sound h _ fun _ => rfl
  | loadOrdered => exact loadReply_spec disk codec hspace orderedSlot_sound h _ fun _ => rfl
  | loadWatches => exact loadReply_spec disk codec hspace watchesSlot_sound h _ fun _ => rfl
  | loadWatchSends => exact loadReply_spec disk codec hspace sendsSlot_sound h _ fun _ => rfl
  | loadEvents =>
    unfold execStore loadEvents
    rw [wp_bind, wp_bind]
    refine ensureOpen_spec ?_ fun _ => h.mono _
    exact wp_mono (hreadAll h) (fun events _ hw => ⟨hw.1, fun _ => ⟨events, hw.2, rfl⟩⟩)
      fun _ _ hkeeps => hkeeps
  | checkRetirementReady =>
    unfold execStore checkRetirementReady modifyStore
    rw [wp_bind, wp_bind]
    refine ensureOpen_spec ?_ fun _ => h.mono _
    rw [wp_bind, wp_write, wp_bind]
    exact wp_mono (hreadAll (dropped_resetCursor w).coherent)
      (fun events _ hw => ⟨hw.1, fun _ => ⟨events, hw.2, rfl⟩⟩) fun _ _ hkeeps => hkeeps
  | close =>
    unfold execStore close modifyStore
    rw [wp_bind, wp_bind, wp_read, wp_ite]
    refine ⟨fun _ => h.mono _, fun _ => ?_⟩
    rw [wp_bind]
    refine wp_call disk (fun n => ⟨Dropped.coherent ⟨foldsDescribe_none _ _, rfl⟩, nofun⟩)
      fun n => h.keeps codec n

/-- Every write by anyone else gives the file a size and a modification time it did not have at
    the end of any earlier step. -/
def FreshStamps (seen : List (Nat × Int)) (w : World) : List StoreStep → Prop
  | [] => True
  | step :: steps =>
    let w' := stepStore disk codec w step
    (∀ file, step = .foreign file → file.stamp ∉ seen) ∧ FreshStamps (w'.file.stamp :: seen) w' steps

theorem Coherent.foreign (h : Coherent codec seen w) {file : File} (hfresh : file.stamp ∉ seen) :
    Coherent codec (file.stamp :: seen) { w with file := file } := by
  refine ⟨h.folds, fun hvalid => mem_cons_of_mem _ (h.seen hvalid), fun hvalid hstamp => ?_⟩
  refine absurd (h.seen hvalid) ?_
  rw [← hstamp]
  exact hfresh

theorem Coherent.run (hspace : AllowsCarriageReturn codec) (steps : List StoreStep)
    (h : Coherent codec seen w) (hfresh : FreshStamps disk codec seen w steps) :
    ∃ seen', Coherent codec seen' (runStore disk codec w steps) := by
  induction steps generalizing seen w with
  | nil => exact ⟨seen, h⟩
  | cons step steps ih =>
    obtain ⟨hstamp, hrest⟩ := hfresh
    refine ih ?_ hrest
    cases step with
    | foreign file => exact h.foreign codec (hstamp file rfl)
    | call op =>
      have hspec := execStore_spec disk codec hspace h op
      show Coherent codec ((execStore disk codec op w).2.file.stamp :: seen)
        (execStore disk codec op w).2
      unfold Tx.wp at hspec
      split at hspec
      · next hrun =>
        rw [hrun]
        exact hspec.1
      · next hrun =>
        rw [hrun]
        exact hspec

theorem openFs_spec (hspace : AllowsCarriageReturn codec) (h : Coherent codec seen w) :
    Tx.wp (openFs disk codec) w (fun _ w' => KeepsCoherent codec seen w') (fun _ _ => True) := by
  unfold openFs
  rw [wp_bind]
  refine wp_stat disk (fun n => ?_) fun _ _ => trivial
  rw [wp_ite]
  refine ⟨fun _ => h.keeps codec n, fun _ => ?_⟩
  rw [wp_bind]
  refine wp_mono (readAll_spec disk codec hspace (h.of_same rfl rfl)) (fun events w' hw' => ?_)
    fun _ _ _ => trivial
  exact ⟨hw'.1.1.folds, hw'.1.1.seen, hw'.1.1.describes⟩

/-- A load that succeeds, after any run of calls and foreign writes, answers what decoding the
    file's complete lines from byte zero and folding them gives. -/
theorem loads_current (hspace : AllowsCarriageReturn codec) (file : File) (disableSync : Bool)
    (w₀ : World) (hopen : openFs disk codec ⟨file, { disableSync := disableSync }, 0⟩ = (.ok (), w₀))
    (steps : List StoreStep) (hfresh : FreshStamps disk codec [w₀.file.stamp] w₀ steps)
    (op : StoreOp) (hreads : op.reads = true) (reply : StoreReply) (w' : World)
    (hload : execStore disk codec op (runStore disk codec w₀ steps) = (.ok reply, w')) :
    ∃ events, decodeFile codec w'.file.bytes = some events ∧ reply = op.answer events := by
  have hstart : Coherent codec [] ⟨file, { disableSync := disableSync }, 0⟩ :=
    Dropped.coherent ⟨foldsDescribe_none _ _, rfl⟩
  have hopened := openFs_spec disk codec hspace hstart
  unfold Tx.wp at hopened
  rw [hopen] at hopened
  obtain ⟨seen', hrun⟩ := Coherent.run disk codec hspace steps hopened hfresh
  have hspec := execStore_spec disk codec hspace hrun op
  unfold Tx.wp at hspec
  rw [hload] at hspec
  exact hspec.2 hreads

end Runs

/-! ## A file of one line -/

/-- The JSON text of an object whose `seq` is one digit. -/
def seqLine (digit : UInt8) : Bytes := [123, 34, 115, 101, 113, 34, 58, digit, 125]

def seqEvent (seq : Int) : Event := { kind := .unknown "", seq := seq }

/-- The lines of `1` and `2`, read with carriage returns after them. -/
def seqCodec : Codec where
  marshal e := if e.seq = 1 then some (seqLine 49) else if e.seq = 2 then some (seqLine 50) else none
  unmarshal line :=
    let text := (line.reverse.dropWhile fun b => b = 13).reverse
    if text = seqLine 49 then .ok (seqEvent 1)
    else if text = seqLine 50 then .ok (seqEvent 2)
    else .error ⟨"unexpected end of JSON input", some line.length⟩

theorem seqCodec_space : AllowsCarriageReturn seqCodec := by
  intro line e _ h
  have hsame : ((line ++ [13]).reverse.dropWhile fun b : UInt8 => b = 13) =
      line.reverse.dropWhile fun b => b = 13 := by
    rw [reverse_append]
    exact dropWhile_cons_of_pos (by decide)
  refine ⟨e, ?_⟩
  unfold seqCodec at h ⊢
  dsimp only at h ⊢
  rw [hsame]
  split at h
  · next ha => rw [if_pos ha, h]
  · next ha =>
    rw [if_neg ha]
    split at h
    · next hb => rw [if_pos hb, h]
    · exact nomatch h

/-- A disk on which nothing fails and the clock stands still. -/
def quietDisk : Disk where
  fails _ := false
  taken _ := maxLine
  mtime _ := 0

def seqFile (digit : UInt8) : File := ⟨seqLine digit ++ [newline], 0⟩

/-- The world after opening a file with the line of `1`. -/
def openedSeq : World := (openFs quietDisk seqCodec ⟨seqFile 49, {}, 0⟩).2

/-- The `seq`s of the events a reply lists. -/
def StoreReply.seqs : StoreReply → List Int
  | .events list => list.map Event.seq
  | _ => []

theorem openedSeq_eq :
    openFs quietDisk seqCodec ⟨seqFile 49, {}, 0⟩ = (.ok (), openedSeq) := by
  have hok : (openFs quietDisk seqCodec ⟨seqFile 49, {}, 0⟩).1.isOk = true := by decide
  unfold openedSeq
  rcases hrun : openFs quietDisk seqCodec ⟨seqFile 49, {}, 0⟩ with ⟨_ | a, w⟩
  · rw [hrun] at hok
    exact nomatch hok
  · rfl

/-- An event is appended, another writer then keeps its line alone, and the load follows. -/
theorem loads_current_rewritten :
    let appended := stepStore quietDisk seqCodec openedSeq (.call (.append (seqEvent 0)))
    let w := stepStore quietDisk seqCodec appended (.foreign ⟨seqLine 50 ++ [newline], 1⟩)
    appended.file.bytes = seqLine 49 ++ [newline] ++ seqLine 50 ++ [newline] ∧
    (execStore quietDisk seqCodec .loadEvents w).1.isOk = true ∧
    ∃ reply w' events, execStore quietDisk seqCodec .loadEvents w = (.ok reply, w') ∧
      decodeFile seqCodec w'.file.bytes = some events ∧ reply = .events events := by
  intro appended w
  have hok : (execStore quietDisk seqCodec .loadEvents w).1.isOk = true := by decide
  refine ⟨by decide, hok, ?_⟩
  rcases hrun : execStore quietDisk seqCodec .loadEvents w with ⟨_ | reply, w'⟩
  · rw [hrun] at hok
    exact nomatch hok
  · have hfresh : FreshStamps quietDisk seqCodec [openedSeq.file.stamp] openedSeq
        [.call (.append (seqEvent 0)), .foreign ⟨seqLine 50 ++ [newline], 1⟩] := by
      refine ⟨nofun, fun file hforeign => ?_, trivial⟩
      cases hforeign
      decide
    obtain ⟨events, hdecoded, hreply⟩ := loads_current quietDisk seqCodec seqCodec_space
      (seqFile 49) false openedSeq openedSeq_eq _ hfresh .loadEvents rfl reply w' hrun
    exact ⟨reply, w', events, rfl, hdecoded, hreply⟩

/-- Two foreign writes, each of another size than the file before it, bring back the size and the
    time the cursor recorded, and the load after them serves the first file. -/
theorem load_stale_after_truncate_and_append :
    (seqFile 49).stamp ≠ File.stamp {} ∧ File.stamp {} ≠ (seqFile 50).stamp ∧
    (execStore quietDisk seqCodec .loadEvents (runStore quietDisk seqCodec openedSeq
      [.foreign {}, .foreign (seqFile 50)])).1.toOption.map StoreReply.seqs = some [1] ∧
    (decodeFile seqCodec (seqFile 50).bytes).map (·.map Event.seq) = some [2] := by
  refine ⟨by decide, by decide, by decide, by decide⟩

end Evener.Jobstore
