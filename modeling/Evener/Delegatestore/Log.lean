/-
  The bytes of a delegate log: what they decode to, and what a crash can make of them.

  A batch is one line, so what is left of a record is a torn tail or the whole batch; a file
  without any newline is a torn header.
-/
import Evener.Delegatestore.Store

namespace Evener.Delegatestore

open Evener.Lib List

/-! ## Logs -/

/-- JSON decoding undoes encoding, and a value is written on one line. -/
structure Codec.Faithful (codec : Codec) : Prop where
  version : ∀ version line, codec.marshalVersion version = .ok line →
    codec.decodeVersion line = .ok version ∧ newline ∉ line
  batch : ∀ events line, codec.marshalBatch events = .ok line →
    codec.decodeBatch line = .ok events ∧ newline ∉ line

/-- The bytes are a log, and its events an accepted journal. -/
structure Holds (codec : Codec) (json : Json) (bytes : Bytes) (journal : List Event) : Prop where
  decoded : decodeLog codec bytes = .ok journal
  folded : ∃ state, fold json journal = .ok state

variable {raw header line : Bytes} {events : List Event} {lines : List Bytes} {i : Nat}
  {event : Event} {state : State}

section Logs

variable {codec : Codec} {json : Json}

theorem decodeLog_ok (h : decodeLog codec raw = .ok events) :
    raw.getLast? = some newline ∧ ∃ header lines, (splitLines raw).1 = header :: lines ∧
      codec.decodeVersion header = .ok currentVersion ∧ decodeBatches codec 0 lines = .ok events := by
  unfold decodeLog at h
  obtain ⟨_, _, h⟩ := bind_eq_ok.mp h
  obtain ⟨_, hlast, h⟩ := bind_eq_ok.mp h
  split at h
  · cases h
  · next header lines hlines =>
    obtain ⟨version, hversion, h⟩ := bind_eq_ok.mp h
    obtain ⟨_, hcurrent, h⟩ := bind_eq_ok.mp h
    have hcurrent : version = currentVersion := by simpa using failIf_eq_ok.mp hcurrent
    subst hcurrent
    exact ⟨by simpa using failIf_eq_ok.mp hlast, header, lines, hlines, wrapping_eq_ok.mp hversion, h⟩

theorem decodeLog_of (hlast : raw.getLast? = some newline)
    (hlines : (splitLines raw).1 = header :: lines)
    (hversion : codec.decodeVersion header = .ok currentVersion)
    (hevents : decodeBatches codec 0 lines = .ok events) : decodeLog codec raw = .ok events := by
  have hne : raw ≠ [] := by
    intro hempty
    rw [hempty] at hlast
    cases hlast
  unfold decodeLog
  refine bind_eq_ok.mpr ⟨(), failIf_eq_ok.mpr hne, bind_eq_ok.mpr ⟨(), ?_, ?_⟩⟩
  · exact failIf_eq_ok.mpr (not_not.mpr hlast)
  · rw [hlines]
    refine bind_eq_ok.mpr ⟨currentVersion, wrapping_eq_ok.mpr hversion, ?_⟩
    exact bind_eq_ok.mpr ⟨(), failIf_eq_ok.mpr (not_not.mpr rfl), hevents⟩

theorem decodeBatches_append {batch : List Event} (h : decodeBatches codec i lines = .ok events)
    (hbatch : codec.decodeBatch line = .ok batch) (hne : batch ≠ []) :
    decodeBatches codec i (lines ++ [line]) = .ok (events ++ batch) := by
  induction lines generalizing i events with
  | nil =>
    cases h
    rw [nil_append, decodeBatches]
    refine bind_eq_ok.mpr ⟨batch, wrapping_eq_ok.mpr hbatch, ?_⟩
    refine bind_eq_ok.mpr ⟨(), failIf_eq_ok.mpr hne, ?_⟩
    refine bind_eq_ok.mpr ⟨[], rfl, ?_⟩
    rw [append_nil, nil_append]
    rfl
  | cons first lines ih =>
    rw [decodeBatches] at h
    obtain ⟨b, hb, h⟩ := bind_eq_ok.mp h
    obtain ⟨_, hnonempty, h⟩ := bind_eq_ok.mp h
    obtain ⟨rest, hrest, h⟩ := bind_eq_ok.mp h
    cases h
    rw [cons_append, decodeBatches]
    refine bind_eq_ok.mpr ⟨b, hb, bind_eq_ok.mpr ⟨(), hnonempty, ?_⟩⟩
    refine bind_eq_ok.mpr ⟨_, ih hrest, ?_⟩
    rw [append_assoc]
    rfl

/-- One more line is one more batch. -/
theorem decodeLog_append {batch : List Event} (h : decodeLog codec raw = .ok events)
    (hline : newline ∉ line) (hbatch : codec.decodeBatch line = .ok batch) (hne : batch ≠ []) :
    decodeLog codec (raw ++ (line ++ [newline])) = .ok (events ++ batch) := by
  obtain ⟨hlast, header, lines, hlines, hversion, hevents⟩ := decodeLog_ok h
  have hsplit : (splitLines (raw ++ (line ++ [newline]))).1 = header :: (lines ++ [line]) := by
    rw [splitLines_append (tail_of_getLast hlast), splitLines_line hline, hlines]
    rfl
  refine decodeLog_of ?_ hsplit hversion (decodeBatches_append hevents hbatch hne)
  rw [← append_assoc, getLast?_concat]

theorem Holds.append {batch : List Event} (h : Holds codec json raw events) (hline : newline ∉ line)
    (hbatch : codec.decodeBatch line = .ok batch) (hne : batch ≠ [])
    (hfold : ∃ state, fold json (events ++ batch) = .ok state) :
    Holds codec json (raw ++ (line ++ [newline])) (events ++ batch) :=
  ⟨decodeLog_append h.decoded hline hbatch hne, hfold⟩

theorem holds_header (hcodec : codec.Faithful)
    (h : codec.marshalVersion currentVersion = .ok header) :
    Holds codec json (header ++ [newline]) [] := by
  obtain ⟨hversion, hline⟩ := hcodec.version _ _ h
  have hsplit : (splitLines (header ++ [newline])).1 = [header] := by
    rw [splitLines_line hline]
  exact ⟨decodeLog_of getLast?_concat hsplit hversion rfl, [], rfl⟩

end Logs

/-! ## Journals -/

theorem fold_seq {json : Json} (h : fold json events = .ok state) (hi : events[i]? = some event) :
    event.seq = i + 1 := by
  have hread := foldlM_induct_nil (P := fun read _ => ∀ entry ∈ read, entry.1.seq = entry.2 + 1)
    ?_ (fun _ hmem => nomatch hmem) h
  · have hmem : (event, i) ∈ events.zipIdx := by
      rw [mem_zipIdx_iff_getElem?]
      exact hi
    exact hread (event, i) hmem
  · intro read entry now next hread hstep entry' hmem
    rcases mem_append.mp hmem with hmem | hmem
    · exact hread entry' hmem
    · rw [mem_singleton.mp hmem]
      exact (foldStep_eq_ok.mp hstep).1

theorem fold_getLast_seq {json : Json} (h : fold json events = .ok state)
    (hlast : events.getLast? = some event) : event.seq = events.length := by
  rw [getLast?_eq_getElem?] at hlast
  have hseq := fold_seq h hlast
  have hpos : 0 < events.length := by
    by_contra hzero
    rw [length_eq_zero_iff.mp (Nat.eq_zero_of_not_pos hzero)] at hlast
    cases hlast
  omega

theorem cloneState_eq {json : Json} (h : fold json events = .ok state) :
    cloneState state = state := by
  unfold cloneState
  rw [rewrite_congr (fold_tracked h).sound.keys (g := fun _ a => a), rewrite_id]
  intro id a ha
  unfold cloneAggregate
  rw [fold_cloned h id a ha]

/-- A preflight that goes through extends the journal by its batch. -/
theorem fold_of_preflight {json : Json} (assigned : List Event) :
    ∀ (journal : List Event) (state accepted : State), fold json journal = .ok state →
      (∀ (i : Nat) (event : Event), assigned[i]? = some event → event.seq = journal.length + i + 1) →
      preflight json state assigned = .ok accepted →
      fold json (journal ++ assigned) = .ok accepted := by
  induction assigned with
  | nil =>
    intro journal state accepted h _ hpreflight
    cases hpreflight
    rwa [append_nil]
  | cons event assigned ih =>
    intro journal state accepted h hseq hpreflight
    unfold preflight at ih hpreflight
    rw [foldlM_cons] at hpreflight
    obtain ⟨next, hnext, hpreflight⟩ := bind_eq_ok.mp hpreflight
    split at hnext
    · next after hafter =>
      cases hnext
      have hstep := fold_of_apply h (hseq 0 event rfl) hafter
      have hrest := ih (journal ++ [event]) next accepted hstep ?_ hpreflight
      · rwa [append_assoc] at hrest
      · intro i e hi
        have := hseq (i + 1) e hi
        rw [length_append, length_singleton]
        omega
    · cases hnext

theorem assign_seq {seq : Nat} (h : (assign seq events)[i]? = some event) :
    event.seq = seq + i + 1 := by
  unfold assign at h
  rw [getElem?_map, getElem?_zipIdx] at h
  obtain ⟨entry, hentry, rfl⟩ := Option.map_eq_some_iff.mp h
  obtain ⟨e, _, rfl⟩ := Option.map_eq_some_iff.mp hentry
  simp

theorem assign_ne_nil {seq : Nat} {events : List Event} (h : events ≠ []) : assign seq events ≠ [] := by
  unfold assign
  simpa using h

/-- What a batch leads to, from a journal with `seq` events. -/
theorem prepare_ok {codec : Codec} {json : Json} (hcodec : codec.Faithful) {journal : List Event}
    (h : fold json journal = .ok state) {assigned : List Event} {accepted : State} {record : Bytes}
    (hprepare : prepare codec json journal.length state events = .ok (assigned, accepted, record)) :
    assigned = assign journal.length events ∧ fold json (journal ++ assigned) = .ok accepted ∧
      ∃ line, record = line ++ [newline] ∧ codec.decodeBatch line = .ok assigned ∧ newline ∉ line := by
  unfold prepare at hprepare
  obtain ⟨accepted', hpreflight, hprepare⟩ := bind_eq_ok.mp hprepare
  obtain ⟨line, hline, hprepare⟩ := bind_eq_ok.mp hprepare
  cases hprepare
  rw [cloneState_eq h] at hpreflight
  obtain ⟨hdecode, honeLine⟩ := hcodec.batch _ _ (wrapping_eq_ok.mp hline)
  exact ⟨rfl, fold_of_preflight _ journal state _ h (fun i e => assign_seq) hpreflight,
    line, rfl, hdecode, honeLine⟩

/-! ## What a crash leaves -/

def Volume.crash (volume : Volume) (keep : Option Nat) : Volume :=
  let file := match keep with
    | none => volume.file
    | some n => volume.settled ++ volume.loose.take n
  ⟨file, file, []⟩

/-- What a crash inside an open leaves: a torn header, or some of the torn tail. -/
def Volume.crashInOpen (volume : Volume) (codec : Codec) (keep : Nat) : Volume :=
  let file := match splitLines volume.file with
    | ([], tail) =>
      match codec.marshalVersion currentVersion with
      | .ok header => (header ++ [newline]).take keep
      | .error _ => tail
    | (lines, tail) => joinLines lines ++ tail.take keep
  ⟨file, file, []⟩

/-- The journals an open may find. -/
def Possible (certain doubtful journal : List Event) : Prop :=
  journal = certain ∨ (doubtful ≠ [] ∧ journal = certain ++ doubtful)

/-- The bytes are a torn header of an empty log, or a possible log with a torn tail. -/
def Recoverable (codec : Codec) (json : Json) (certain doubtful : List Event) (bytes : Bytes) : Prop :=
  (newline ∉ bytes ∧ certain = [] ∧ doubtful = []) ∨
  ∃ base tail journal, bytes = base ++ tail ∧ newline ∉ tail ∧ Holds codec json base journal ∧
    Possible certain doubtful journal

/-- The volume is recoverable as it reads, and after any crash. -/
structure Safe (codec : Codec) (json : Json) (certain doubtful : List Event) (volume : Volume) :
    Prop where
  file : Recoverable codec json certain doubtful volume.file
  crash : ∀ n, Recoverable codec json certain doubtful (volume.settled ++ volume.loose.take n)

section Safe

variable {codec : Codec} {json : Json} {certain doubtful journal batch : List Event} {volume : Volume}

theorem Recoverable.of_holds {bytes : Bytes} (h : Holds codec json bytes journal)
    (hpossible : Possible certain doubtful journal) :
    Recoverable codec json certain doubtful bytes :=
  Or.inr ⟨bytes, [], journal, (append_nil _).symm, not_mem_nil, h, hpossible⟩

/-- A log cut after its last newline is a log, and a log without one is empty. -/
theorem Recoverable.split {bytes : Bytes} (h : Recoverable codec json certain doubtful bytes) :
    ((splitLines bytes).1 = [] ∧ newline ∉ bytes ∧ certain = [] ∧ doubtful = []) ∨
    ((splitLines bytes).1 ≠ [] ∧ newline ∉ (splitLines bytes).2 ∧
      ∃ journal, Holds codec json (joinLines (splitLines bytes).1) journal ∧
        Possible certain doubtful journal) := by
  rcases h with ⟨hnone, hcertain, hdoubtful⟩ | ⟨base, tail, journal, rfl, htail, hholds, hpossible⟩
  · exact Or.inl ⟨by rw [splitLines_of_not_mem hnone], hnone, hcertain, hdoubtful⟩
  · obtain ⟨hsplit, hjoin, hlines⟩ := splitLines_base (decodeLog_ok hholds.decoded).1 htail
    right
    rw [hsplit]
    exact ⟨hlines, htail, journal, by rwa [hjoin], hpossible⟩

/-- A synced volume is what it reads. -/
theorem safe_synced {file : Bytes} (h : Recoverable codec json certain doubtful file) :
    Safe codec json certain doubtful ⟨file, file, []⟩ := by
  refine ⟨h, fun n => ?_⟩
  rw [take_nil, append_nil]
  exact h

theorem Safe.after_crash (h : Safe codec json certain doubtful volume) (keep : Option Nat) :
    Safe codec json certain doubtful (volume.crash keep) := by
  cases keep with
  | none => exact safe_synced h.file
  | some n => exact safe_synced (h.crash n)

/-- A torn tail of whole bytes. -/
theorem recoverable_tail {tail : Bytes} (h : Holds codec json (joinLines lines) journal)
    (hpossible : Possible certain doubtful journal) (htail : newline ∉ tail) (n : Nat) :
    Recoverable codec json certain doubtful (joinLines lines ++ tail.take n) :=
  Or.inr ⟨_, _, journal, rfl, fun hmem => htail (mem_of_mem_take hmem), h, hpossible⟩

theorem recoverable_header (hcodec : codec.Faithful)
    (h : codec.marshalVersion currentVersion = .ok header) (n : Nat) :
    Recoverable codec json [] [] ((header ++ [newline]).take n) := by
  rcases take_line (hcodec.version _ _ h).2 n with hwhole | htorn
  · rw [hwhole]
    exact .of_holds (holds_header hcodec h) (Or.inl rfl)
  · exact Or.inl ⟨htorn, rfl, rfl⟩

/-- Whatever is left of a record, its batch is there as a whole or not at all. -/
theorem recoverable_record {base : Bytes} (h : Holds codec json base journal)
    (hbatch : codec.decodeBatch line = .ok batch) (hline : newline ∉ line) (hne : batch ≠ [])
    (hfold : ∃ state, fold json (journal ++ batch) = .ok state) (n : Nat) :
    Recoverable codec json journal batch (base ++ (line ++ [newline]).take n) := by
  rcases take_line hline n with hwhole | htorn
  · rw [hwhole]
    exact .of_holds (h.append hline hbatch hne hfold) (Or.inr ⟨hne, rfl⟩)
  · exact Or.inr ⟨base, _, journal, rfl, htorn, h, Or.inl rfl⟩

theorem Safe.after_crashInOpen (hcodec : codec.Faithful)
    (h : Safe codec json certain doubtful volume) (keep : Nat) :
    Safe codec json certain doubtful (volume.crashInOpen codec keep) := by
  refine safe_synced ?_
  rcases h.file.split with ⟨hlines, hnone, rfl, rfl⟩ | ⟨hlines, htail, journal, hholds, hpossible⟩
  · rw [splitLines_of_not_mem hnone]
    dsimp only
    cases hheader : codec.marshalVersion currentVersion with
    | ok header => exact recoverable_header hcodec hheader keep
    | error _ => exact Or.inl ⟨hnone, rfl, rfl⟩
  · rcases hsplit : splitLines volume.file with ⟨lines, tail⟩
    rw [hsplit] at hlines htail hholds
    cases lines with
    | nil => exact absurd rfl hlines
    | cons line lines => exact recoverable_tail hholds hpossible htail keep

end Safe

end Evener.Delegatestore
