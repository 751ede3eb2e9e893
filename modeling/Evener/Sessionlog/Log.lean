/-
  The session log: an append-only file of JSON lines, with a torn tail where an append was
  interrupted.

  `encoding/json` is a parameter. A write that fails, or that a crash cuts, leaves any beginning
  of its bytes. Directories are left out.
-/
import Mathlib.Data.List.Infix
import Evener.Lib.ByteText

namespace Evener.Sessionlog

open Evener.Lib List

variable {Entry : Type}

structure Codec (Entry : Type) where
  marshal : Entry → Option Bytes
  unmarshal : Bytes → Option Entry

/-- What the log relies on: an entry is one object on one line, it is read back as written, and no
beginning of an object is one. -/
structure Codec.Json (codec : Codec Entry) : Prop where
  back : ∀ {e data}, codec.marshal e = some data → codec.unmarshal data = some e
  line : ∀ {e data}, codec.marshal e = some data → newline ∉ data ∧ 13 ∉ data
  nonempty : ∀ {e data}, codec.marshal e = some data → data ≠ []
  cut : ∀ {e data part}, codec.marshal e = some data → part <+: data → part ≠ data →
    codec.unmarshal part = none

def maxRecordBytes : Nat := 1048576

structure Log (Entry : Type) where
  entries : List Entry := []
  tornTail : Bool := false

/-! ## Loading -/

/-- The scanner drops one carriage return at the end of a line. -/
def dropCR (line : Bytes) : Bytes := if line.getLast? = some 13 then line.dropLast else line

def decodeLine (codec : Codec Entry) (line : Bytes) : Option Entry :=
  if dropCR line = [] then none else codec.unmarshal (dropCR line)

/-- `loadFromDisk`; the scanner stops with an error at a line above its bound. -/
def load (codec : Codec Entry) (file : Bytes) : Option (Log Entry) :=
  if (splitBytes file).all fun line => line.length ≤ maxRecordBytes then
    some
      { entries := (splitBytes file).filterMap (decodeLine codec)
        tornTail := file ≠ [] && file.getLast? ≠ some newline }
  else none

def newSessionLog (codec : Codec Entry) : Option Bytes → Option (Log Entry)
  | none => some {}
  | some file => load codec file

/-! ## Appending -/

inductive Outcome where
  | refused
  | written
  | failed (n : Nat)

/-- The data of an entry, when it is not too large. -/
def admitLine (codec : Codec Entry) (e : Entry) : Option Bytes :=
  (codec.marshal e).filter fun data => data.length ≤ maxRecordBytes

def record (tornTail : Bool) (data : Bytes) : Bytes :=
  (if tornTail then [newline] else []) ++ (data ++ [newline])

/-- The file after the first `n` bytes of a record. -/
def writePart (file : Option Bytes) (tornTail : Bool) (data : Bytes) (n : Nat) : Option Bytes :=
  some (file.getD [] ++ (record tornTail data).take n)

/-- `Append`: the log, the file and whether it succeeded. -/
def Log.append (codec : Codec Entry) (log : Log Entry) (file : Option Bytes) (e : Entry)
    (outcome : Outcome) : Log Entry × Option Bytes × Bool :=
  match admitLine codec e with
  | none => (log, file, false)
  | some data =>
    let log := { log with entries := log.entries ++ [e] }
    match outcome with
    | .refused => (log, file, false)
    | .failed n => ({ log with tornTail := true }, writePart file log.tornTail data n, false)
    | .written =>
      ({ log with tornTail := false },
        writePart file log.tornTail data (record log.tornTail data).length, true)

/-! ## Runs -/

/-- `history` is every entry that was appended, and whether its append succeeded. -/
structure World (Entry : Type) where
  file : Option Bytes := none
  log : Option (Log Entry) := none
  history : List (Entry × Bool) := []

inductive Step (Entry : Type) where
  | append (e : Entry) (outcome : Outcome)
  | cut (e : Entry) (n : Nat)
  | crash
  | reopen

/-- `none` when a reload fails; nothing is appended without a log. -/
def World.step (codec : Codec Entry) (w : World Entry) : Step Entry → Option (World Entry)
  | .append e outcome =>
    match w.log with
    | none => some w
    | some log =>
      some
        { file := (log.append codec w.file e outcome).2.1
          log := some (log.append codec w.file e outcome).1
          history := w.history ++ [(e, (log.append codec w.file e outcome).2.2)] }
  | .cut e n =>
    match w.log with
    | none => some w
    | some log =>
      some
        { file := (admitLine codec e).elim w.file fun data => writePart w.file log.tornTail data n
          log := none
          history := w.history ++ [(e, false)] }
  | .crash => some { w with log := none }
  | .reopen => (newSessionLog codec w.file).map fun log => { w with log := some log }

/-- The entries in order, each at most once; only those whose append did not succeed may be
missing. -/
inductive Kept : List (Entry × Bool) → List Entry → Prop where
  | nil : Kept [] []
  | keep {e : Entry} {ok : Bool} {history : List (Entry × Bool)} {entries : List Entry}
      (h : Kept history entries) : Kept ((e, ok) :: history) (e :: entries)
  | lose {e : Entry} {history : List (Entry × Bool)} {entries : List Entry}
      (h : Kept history entries) : Kept ((e, false) :: history) entries

theorem Kept.append {history history' : List (Entry × Bool)} {entries entries' : List Entry}
    (h : Kept history entries) (h' : Kept history' entries') :
    Kept (history ++ history') (entries ++ entries') := by
  induction h with
  | nil => exact h'
  | keep _ ih => exact .keep ih
  | lose _ ih => exact .lose ih

/-! ## Lines of the file -/

def entriesOf (codec : Codec Entry) (file : Bytes) : List Entry :=
  (splitBytes file).filterMap (decodeLine codec)

def Fits (file : Bytes) : Prop := ∀ line ∈ splitBytes file, line.length ≤ maxRecordBytes

theorem splitBytes_newline (file : Bytes) :
    splitBytes (file ++ [newline]) = splitBytes file ++ [[]] := by
  unfold splitBytes
  rw [splitLines_newline]

theorem entriesOf_newline (codec : Codec Entry) (file : Bytes) :
    entriesOf codec (file ++ [newline]) = entriesOf codec file := by
  unfold entriesOf
  rw [splitBytes_newline, filterMap_append]
  exact append_nil _

variable {file : Bytes} {w : World Entry}

theorem fits_newline (h : Fits file) : Fits (file ++ [newline]) := by
  intro line hline
  rw [splitBytes_newline] at hline
  rcases mem_append.mp hline with hline | hline
  · exact h line hline
  · rw [mem_singleton.mp hline]
    exact Nat.zero_le _

theorem splitBytes_append (h : (splitLines file).2 = []) (piece : Bytes) :
    splitBytes (file ++ piece) = (splitLines file).1 ++ splitBytes piece := by
  unfold splitBytes
  rw [splitLines_append h]
  exact append_assoc _ _ _

theorem entriesOf_append (codec : Codec Entry) (h : (splitLines file).2 = []) (piece : Bytes) :
    entriesOf codec (file ++ piece) = entriesOf codec file ++ entriesOf codec piece := by
  have hfile := splitBytes_append h []
  rw [append_nil] at hfile
  unfold entriesOf
  rw [splitBytes_append h, hfile, filterMap_append, filterMap_append]
  exact congrArg (· ++ _) (append_nil _).symm

theorem fits_append {piece : Bytes} (h : (splitLines file).2 = []) (hfile : Fits file)
    (hpiece : Fits piece) : Fits (file ++ piece) := by
  intro line hline
  rw [splitBytes_append h] at hline
  rcases mem_append.mp hline with hline | hline
  · exact hfile line (mem_append_left _ hline)
  · exact hpiece line hline

/-! ## Records -/

section Records

variable {codec : Codec Entry} {e : Entry} {data : Bytes} (hdata : admitLine codec e = some data)
  (hjson : codec.Json)

include hdata

theorem admit_marshal : codec.marshal e = some data ∧ data.length ≤ maxRecordBytes := by
  obtain ⟨hmarshal, hsize⟩ := Option.filter_eq_some_iff.mp hdata
  exact ⟨hmarshal, by simpa using hsize⟩

include hjson

theorem dropCR_part {part : Bytes} (hpart : part <+: data) : dropCR part = part := by
  obtain ⟨hmarshal, _⟩ := admit_marshal hdata
  refine if_neg fun hlast => ?_
  exact (hjson.line hmarshal).2 (hpart.subset (mem_of_getLast? hlast))

/-- A beginning of the data reads as nothing; all of it as the entry. -/
theorem decode_part {part : Bytes} (hpart : part <+: data) :
    decodeLine codec part = if part = data then some e else none := by
  obtain ⟨hmarshal, _⟩ := admit_marshal hdata
  unfold decodeLine
  rw [dropCR_part hdata hjson hpart]
  split
  · next hnil =>
    subst hnil
    rw [if_neg (hjson.nonempty hmarshal).symm]
  · split
    · next heq => rw [heq, hjson.back hmarshal]
    · next hne => exact hjson.cut hmarshal hpart hne

/-- The record without its separator, up to byte `n`. -/
theorem piece_spec (n : Nat) :
    Fits ((data ++ [newline]).take n) ∧
      (entriesOf codec ((data ++ [newline]).take n) = [] ∨
        entriesOf codec ((data ++ [newline]).take n) = [e]) ∧
      (data.length + 1 ≤ n → entriesOf codec ((data ++ [newline]).take n) = [e] ∧
        (splitLines ((data ++ [newline]).take n)).2 = []) := by
  obtain ⟨hmarshal, hsize⟩ := admit_marshal hdata
  have hline := (hjson.line hmarshal).1
  by_cases hn : n ≤ data.length
  · rw [take_append_of_le_length hn]
    have hpart : data.take n <+: data := take_prefix n data
    have hsplit : splitBytes (data.take n) = [data.take n] := by
      unfold splitBytes
      rw [splitLines_of_not_mem fun hmem => hline (hpart.subset hmem)]
      rfl
    unfold Fits entriesOf
    rw [hsplit]
    refine ⟨?_, ?_, fun hbad => by omega⟩
    · intro line hmem
      rw [mem_singleton.mp hmem]
      exact Nat.le_trans hpart.length_le hsize
    · rw [filterMap_cons, decode_part hdata hjson hpart]
      split
      · exact .inl rfl
      · next h =>
        split at h
        · cases h
          exact .inr rfl
        · cases h
  · have hwhole : (data ++ [newline]).take n = data ++ [newline] := by
      refine take_of_length_le ?_
      rw [length_append, length_singleton]
      omega
    have hsplit : splitBytes (data ++ [newline]) = [data, []] := by
      unfold splitBytes
      rw [splitLines_line hline]
      rfl
    have hentries : entriesOf codec (data ++ [newline]) = [e] := by
      unfold entriesOf
      rw [hsplit, filterMap_cons, decode_part hdata hjson (prefix_refl data), if_pos rfl]
      rfl
    rw [hwhole]
    refine ⟨?_, .inr hentries, fun _ => ⟨hentries, by rw [splitLines_line hline]⟩⟩
    unfold Fits
    rw [hsplit]
    intro line hmem
    rcases mem_cons.mp hmem with rfl | hmem
    · exact hsize
    · rw [mem_singleton.mp hmem]
      exact Nat.zero_le _

/-- Part of a record behind a file adds nothing, or the entry; all of it adds the entry. -/
theorem record_spec {tornTail : Bool} (hfits : Fits file)
    (htail : tornTail = false → (splitLines file).2 = []) (n : Nat) :
    Fits (file ++ (record tornTail data).take n) ∧
      (entriesOf codec (file ++ (record tornTail data).take n) = entriesOf codec file ∨
        entriesOf codec (file ++ (record tornTail data).take n) = entriesOf codec file ++ [e]) ∧
      ((record tornTail data).length ≤ n →
        entriesOf codec (file ++ (record tornTail data).take n) = entriesOf codec file ++ [e] ∧
          (splitLines (file ++ (record tornTail data).take n)).2 = []) := by
  have behind {file : Bytes} (hfits : Fits file) (htail : (splitLines file).2 = []) (n : Nat) :
      Fits (file ++ (data ++ [newline]).take n) ∧
        (entriesOf codec (file ++ (data ++ [newline]).take n) = entriesOf codec file ∨
          entriesOf codec (file ++ (data ++ [newline]).take n) = entriesOf codec file ++ [e]) ∧
        (data.length + 1 ≤ n →
          entriesOf codec (file ++ (data ++ [newline]).take n) = entriesOf codec file ++ [e] ∧
            (splitLines (file ++ (data ++ [newline]).take n)).2 = []) := by
    obtain ⟨hpiece, hentries, hwhole⟩ := piece_spec hdata hjson n
    rw [entriesOf_append codec htail, splitLines_append htail]
    refine ⟨fits_append htail hfits hpiece, ?_, fun hn => ?_⟩
    · rcases hentries with hnone | hone
      · exact .inl (by rw [hnone, append_nil])
      · exact .inr (by rw [hone])
    · obtain ⟨hone, hended⟩ := hwhole hn
      exact ⟨by rw [hone], hended⟩
  unfold record
  cases tornTail with
  | false =>
    simp only [Bool.false_eq_true, if_false, nil_append, length_append,
      length_singleton]
    exact behind hfits (htail rfl) n
  | true =>
    cases n with
    | zero =>
      rw [take_zero, append_nil]
      refine ⟨hfits, .inl rfl, fun hbad => ?_⟩
      simp at hbad
    | succ n =>
      simp only [if_true, cons_append, nil_append, take_succ_cons, length_cons,
        length_append, Nat.succ_le_succ_iff]
      have hended : (splitLines (file ++ [newline])).2 = [] := by rw [splitLines_newline]
      have hrest := behind (fits_newline hfits) hended n
      rw [entriesOf_newline, append_assoc] at hrest
      exact hrest

end Records

/-! ## Every run -/

structure World.Sound (codec : Codec Entry) (w : World Entry) : Prop where
  fits : Fits (w.file.getD [])
  kept : Kept w.history (entriesOf codec (w.file.getD []))
  tail : ∀ log, w.log = some log → log.tornTail = false → (splitLines (w.file.getD [])).2 = []

theorem sound_start (codec : Codec Entry) : World.Sound codec {} := by
  refine ⟨?_, .nil, fun _ h => nomatch h⟩
  intro line hline
  rw [mem_singleton.mp hline]
  exact Nat.zero_le _

theorem Kept.lost {history : List (Entry × Bool)} {entries entries' : List Entry} {e : Entry}
    (h : Kept history entries) (hentries : entries' = entries ∨ entries' = entries ++ [e]) :
    Kept (history ++ [(e, false)]) entries' := by
  rcases hentries with rfl | rfl
  · have happend := h.append (@Kept.lose _ e _ _ .nil)
    rwa [append_nil] at happend
  · exact h.append (.keep .nil)

theorem load_sound (codec : Codec Entry) {file : Option Bytes} (h : Fits (file.getD [])) :
    ∃ log, newSessionLog codec file = some log ∧ log.entries = entriesOf codec (file.getD []) ∧
      (log.tornTail = false → (splitLines (file.getD [])).2 = []) := by
  cases file with
  | none => exact ⟨{}, rfl, rfl, fun _ => rfl⟩
  | some file =>
    refine ⟨_, if_pos (all_eq_true.mpr fun line hline => decide_eq_true (h line hline)), rfl, ?_⟩
    intro htorn
    by_cases hlast : file.getLast? = some newline
    · exact tail_of_getLast hlast
    · have hnil : file = [] := by simpa [hlast] using htorn
      rw [hnil]
      rfl

/-- A reload does not fail, and reads the file's entries. -/
theorem reopen_sound {codec : Codec Entry} (h : w.Sound codec) :
    ∃ log, w.step codec .reopen = some { w with log := some log } ∧
      log.entries = entriesOf codec (w.file.getD []) ∧
      World.Sound codec { w with log := some log } := by
  obtain ⟨log, hload, hentries, htail⟩ := load_sound codec h.fits
  refine ⟨log, ?_, hentries, h.fits, h.kept, ?_⟩
  · unfold World.step
    rw [hload]
    rfl
  · intro log' hlog'
    cases hlog'
    exact htail

theorem append_sound {codec : Codec Entry} (hjson : codec.Json) (h : w.Sound codec)
    {log : Log Entry} (hlog : w.log = some log) (e : Entry) (outcome : Outcome) :
    World.Sound codec
      { file := (log.append codec w.file e outcome).2.1
        log := some (log.append codec w.file e outcome).1
        history := w.history ++ [(e, (log.append codec w.file e outcome).2.2)] } := by
  unfold Log.append
  cases hdata : admitLine codec e with
  | none =>
    refine ⟨h.fits, h.kept.lost (.inl rfl), ?_⟩
    rintro _ ⟨⟩
    exact h.tail log hlog
  | some data =>
    cases outcome with
    | refused =>
      refine ⟨h.fits, h.kept.lost (.inl rfl), ?_⟩
      rintro _ ⟨⟩
      exact h.tail log hlog
    | failed n =>
      obtain ⟨hfits, hentries, _⟩ := record_spec hdata hjson h.fits (h.tail log hlog) n
      refine ⟨hfits, h.kept.lost hentries, ?_⟩
      rintro _ ⟨⟩ hbad
      cases hbad
    | written =>
      obtain ⟨hfits, _, hwhole⟩ := record_spec hdata hjson h.fits (h.tail log hlog)
        (record log.tornTail data).length
      obtain ⟨hentries, hended⟩ := hwhole (Nat.le_refl _)
      refine ⟨hfits, ?_, fun _ _ _ => hended⟩
      have hkept := h.kept.append (@Kept.keep _ e true _ _ .nil)
      rw [← hentries] at hkept
      exact hkept

theorem step_sound {codec : Codec Entry} (hjson : codec.Json) (h : w.Sound codec)
    (step : Step Entry) : ∃ w', w.step codec step = some w' ∧ w'.Sound codec := by
  cases step with
  | append e outcome =>
    cases hlog : w.log with
    | none => exact ⟨w, by simp [World.step, hlog], h⟩
    | some log => exact ⟨_, by simp [World.step, hlog], append_sound hjson h hlog e outcome⟩
  | cut e n =>
    cases hlog : w.log with
    | none => exact ⟨w, by simp [World.step, hlog], h⟩
    | some log =>
      have hstep : w.step codec (.cut e n) = some
          { file := (admitLine codec e).elim w.file fun data => writePart w.file log.tornTail data n
            log := none
            history := w.history ++ [(e, false)] } := by
        simp only [World.step, hlog]
      refine ⟨_, hstep, ?_⟩
      cases hdata : admitLine codec e with
      | none => exact ⟨h.fits, h.kept.lost (.inl rfl), fun _ hbad => nomatch hbad⟩
      | some data =>
        obtain ⟨hfits, hentries, _⟩ := record_spec hdata hjson h.fits (h.tail log hlog) n
        exact ⟨hfits, h.kept.lost hentries, fun _ hbad => nomatch hbad⟩
  | crash => exact ⟨_, rfl, h.fits, h.kept, fun _ hbad => nomatch hbad⟩
  | reopen =>
    obtain ⟨log, hstep, _, hsound⟩ := reopen_sound h
    exact ⟨_, hstep, hsound⟩

theorem run_sound {codec : Codec Entry} (hjson : codec.Json) (steps : List (Step Entry))
    (h : w.Sound codec) : ∃ w', steps.foldlM (World.step codec) w = some w' ∧ w'.Sound codec := by
  induction steps generalizing w with
  | nil => exact ⟨w, rfl, h⟩
  | cons step steps ih =>
    obtain ⟨m, hstep, hm⟩ := step_sound hjson h step
    obtain ⟨w', hrun, hw'⟩ := ih hm
    refine ⟨w', ?_, hw'⟩
    rw [foldlM_cons, hstep]
    exact hrun

/-- No reload fails, and a reopened log has every entry whose append succeeded, in order and once;
of the others it has some, each at most once and in its place. -/
theorem accepted_kept {codec : Codec Entry} (hjson : codec.Json) (steps : List (Step Entry)) :
    ∃ w log, steps.foldlM (World.step codec) {} = some w ∧
      w.step codec .reopen = some { w with log := some log } ∧ Kept w.history log.entries := by
  obtain ⟨w, hrun, hsound⟩ := run_sound hjson steps (sound_start codec)
  obtain ⟨log, hstep, hentries, _⟩ := reopen_sound hsound
  exact ⟨w, log, hrun, hstep, hentries ▸ hsound.kept⟩

/-- The line of an entry: a call of a shell in some turn. -/
def turnLine (digit : UInt8) : Bytes :=
  utf8 "\x7b\"turn\":" ++ digit ::
    utf8 ",\"action\":\"shell\",\"summary\":\"ls\",\"outcome\":\"success\"\x7d"

/-- `encoding/json` on the entries of the first two turns. -/
def turnCodec : Codec Nat where
  marshal turn :=
    if turn = 1 then some (turnLine 49) else if turn = 2 then some (turnLine 50) else none
  unmarshal data :=
    if data = turnLine 49 then some 1 else if data = turnLine 50 then some 2 else none

theorem turnCodec_marshal {turn : Nat} {data : Bytes} (h : turnCodec.marshal turn = some data) :
    (turn = 1 ∧ data = turnLine 49) ∨ (turn = 2 ∧ data = turnLine 50) := by
  unfold turnCodec at h
  dsimp only at h
  split at h
  · next hone => exact Or.inl ⟨hone, (Option.some.inj h).symm⟩
  · split at h
    · next htwo => exact Or.inr ⟨htwo, (Option.some.inj h).symm⟩
    · exact nomatch h

theorem turnCodec_json : turnCodec.Json where
  back h := by
    rcases turnCodec_marshal h with ⟨rfl, rfl⟩ | ⟨rfl, rfl⟩ <;> decide
  line h := by
    rcases turnCodec_marshal h with ⟨-, rfl⟩ | ⟨-, rfl⟩ <;> decide
  nonempty h := by
    rcases turnCodec_marshal h with ⟨-, rfl⟩ | ⟨-, rfl⟩ <;> decide
  cut {_ data part} h hpart hne := by
    have htake := prefix_iff_eq_take.mp hpart
    have hlength : part.length < data.length := by
      refine Nat.lt_of_le_of_ne hpart.length_le fun heq => hne ?_
      rw [htake, heq, take_length]
    have hsize : (turnLine 49).length = (turnLine 50).length := by decide
    have hother : part ≠ turnLine 49 ∧ part ≠ turnLine 50 := by
      constructor <;> rintro rfl <;> rcases turnCodec_marshal h with ⟨-, rfl⟩ | ⟨-, rfl⟩ <;> omega
    unfold turnCodec
    dsimp only
    rw [if_neg hother.1, if_neg hother.2]

theorem accepted_kept_torn :
    ∃ w log, [Step.reopen, .append 1 .written, .append 2 (.failed 1), .append 1 .written,
        .cut 2 2].foldlM (World.step turnCodec) {} = some w ∧
      w.step turnCodec .reopen = some { w with log := some log } ∧ Kept w.history log.entries :=
  accepted_kept turnCodec_json _

end Evener.Sessionlog
