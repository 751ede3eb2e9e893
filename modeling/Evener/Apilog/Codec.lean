/-
  The API log: the decoder that reads it forward, and the recovery that searches back from its end.

  Decoding a record is a parameter. Failing reads and seeks of the file are left out of recovery.
-/
import Evener.Lib.Fragments

namespace Evener.Apilog

open Evener.Lib List Option

inductive DecodeMode where
  | strict
  | metadataOnly
deriving DecidableEq

variable {ρ ε : Type}

/-! ## Reading forward -/

structure Decoder where
  maxLineBytes : Nat
  mode : DecodeMode := .strict
  line : Nat := 0
  offset : Nat := 0
  done : Bool := false
  recordLine : Nat := 0
  recordOffset : Nat := 0

inductive Next (ρ ε : Type) where
  | eof
  | record (r : ρ)
  | partialTail
  | tooLong
  | undecodable (err : ε)
  | failed

structure LineRead where
  line : Bytes
  complete : Bool
  tooLong : Bool
  failed : Bool := false
  offset : Nat
  rest : List Answer

/-- A fragment without its newline. -/
def fragmentContent (frag : Bytes) : Bytes :=
  if frag.getLast? = some newline then frag.dropLast else frag

/-- `readLine`, with the line and the offset so far. -/
def readLine (maxLineBytes : Nat) (line : Bytes) (tooLong : Bool) (offset : Nat) :
    List Answer → LineRead
  | [] => ⟨line, false, tooLong, false, offset, []⟩
  | a :: answers =>
    let offset := offset + a.frag.length
    let content := fragmentContent a.frag
    let long := tooLong || line.length + content.length > maxLineBytes
    let line := if long then line else line ++ content
    match a.stop with
    | .delimiter => ⟨line, true, long, false, offset, answers⟩
    | .bufferFull => readLine maxLineBytes line long offset answers
    | .eof => ⟨line, false, long, false, offset, answers⟩
    | .failed => ⟨[], false, long, true, offset, answers⟩

/-- `Next`: what it answers, and the decoder and its reader behind it. -/
def Decoder.next (decode : DecodeMode → Bytes → Except ε ρ) (d : Decoder)
    (answers : List Answer) : Next ρ ε × Decoder × List Answer :=
  if d.done then (.eof, d, answers)
  else
    let d := { d with recordLine := d.line + 1, recordOffset := d.offset }
    if d.maxLineBytes = 0 then (.failed, d, answers)
    else
      let r := readLine d.maxLineBytes [] false d.offset answers
      let d := { d with offset := r.offset }
      if r.failed then (.failed, d, r.rest)
      else if !r.complete then
        (if r.line = [] ∧ r.tooLong = false then .eof else .partialTail, { d with done := true }, r.rest)
      else
        let d := { d with line := d.line + 1 }
        if r.tooLong then (.tooLong, d, r.rest)
        else
          match decode d.mode r.line with
          | .error err => (.undecodable err, d, r.rest)
          | .ok record => (.record record, d, r.rest)

/-- An answer with `RecordLine` and `RecordOffset`. -/
structure Report (ρ ε : Type) where
  next : Next ρ ε
  line : Nat
  offset : Nat

/-- The reports of so many calls. -/
def Decoder.reports (decode : DecodeMode → Bytes → Except ε ρ) :
    Nat → Decoder → List Answer → List (Report ρ ε)
  | 0, _, _ => []
  | calls + 1, d, answers =>
    let r := d.next decode answers
    ⟨r.1, r.2.1.recordLine, r.2.1.recordOffset⟩ :: Decoder.reports decode calls r.2.1 r.2.2

/-! ## Recovery -/

/-- `makeslice` is the panic of `make` at a negative length. -/
inductive RecoveryError (ε : Type) where
  | limit
  | boundary (offset : Nat)
  | partialTail (offset : Nat)
  | undecodable (err : ε)
  | makeslice

/-- `bytes.LastIndexByte` of the newline. -/
def lastNewline : Bytes → Option Nat
  | [] => none
  | c :: rest =>
    match lastNewline rest with
    | some i => some (i + 1)
    | none => if c = newline then some 0 else none

/-- The length of the buffer, for a limit whose successor does not wrap. -/
def recoveryBlock (maxLineBytes : Nat) : Nat := min 65536 (maxLineBytes + 1)

/-- The search back from `cursor`, with so many bytes left of its budget. -/
def searchBack (file : Bytes) (maxLineBytes cursor remaining : Nat) : Except Nat Nat :=
  if _h : 0 < cursor ∧ 0 < remaining then
    let readBytes := min (min cursor remaining) (recoveryBlock maxLineBytes)
    match lastNewline ((file.drop (cursor - readBytes)).take readBytes) with
    | some i => .ok (cursor - readBytes + i + 1)
    | none => searchBack file maxLineBytes (cursor - readBytes) (remaining - readBytes)
  else if cursor = 0 then .ok 0
  else .error cursor
termination_by cursor
decreasing_by
  unfold recoveryBlock
  omega

def findRecoveryLineStart (file : Bytes) (lineEnd : Nat) (maxLineBytes : Int) :
    Except (RecoveryError ε) Nat :=
  -- the sum wraps at the largest limit, and the buffer is made before the search
  if (maxLineBytes + 1).bmod (2 ^ 64) < 0 then .error .makeslice
  else (searchBack file maxLineBytes.toNat lineEnd (maxLineBytes.toNat + 1)).mapError .boundary

def validateBoundary (decode : DecodeMode → Bytes → Except ε ρ) (file : Bytes) (lineEnd : Nat)
    (maxLineBytes : Int) : Except (RecoveryError ε) Unit :=
  match findRecoveryLineStart file lineEnd maxLineBytes with
  | .error err => .error err
  | .ok lineStart =>
    if maxLineBytes < (lineEnd - lineStart : Nat) then .error (.boundary lineStart)
    else
      match decode .strict ((file.drop lineStart).take (lineEnd - lineStart)) with
      | .error err => .error (.undecodable err)
      | .ok _ => .ok ()

def scanRecovery (decode : DecodeMode → Bytes → Except ε ρ) (file : Bytes) (maxLineBytes : Int) :
    Except (RecoveryError ε) (Nat × Bool) :=
  if maxLineBytes ≤ 0 then .error .limit
  else if file = [] then .ok (0, false)
  else if file.getLast? = some newline then do
    validateBoundary decode file (file.length - 1) maxLineBytes
    return (file.length, false)
  else
    match findRecoveryLineStart file file.length maxLineBytes with
    | .error err => .error err
    | .ok partialStart =>
      if maxLineBytes < (file.length - partialStart : Nat) then .error (.partialTail partialStart)
      else if partialStart = 0 then .ok (0, true)
      else do
        validateBoundary decode file (partialStart - 1) maxLineBytes
        return (partialStart, true)

/-! ## The search back -/

variable {l stream : Bytes} {maxLineBytes : Nat} {answers : List Answer}

theorem lastNewline_none (h : lastNewline l = none) : newline ∉ l := by
  induction l with
  | nil => exact not_mem_nil
  | cons c rest ih =>
    unfold lastNewline at h
    cases hrest : lastNewline rest with
    | some i =>
      rw [hrest] at h
      cases h
    | none =>
      rw [hrest] at h
      dsimp only at h
      split at h
      · cases h
      · next hc =>
        rw [mem_cons, not_or]
        exact ⟨fun heq => hc heq.symm, ih hrest⟩

theorem lastNewline_some {i : Nat} (h : lastNewline l = some i) :
    ∃ before after, l = before ++ newline :: after ∧ newline ∉ after ∧ before.length = i := by
  induction l generalizing i with
  | nil => cases h
  | cons c rest ih =>
    unfold lastNewline at h
    cases hrest : lastNewline rest with
    | some j =>
      rw [hrest] at h
      obtain rfl := some.inj h
      obtain ⟨before, after, rfl, hafter, rfl⟩ := ih hrest
      exact ⟨c :: before, after, rfl, hafter, rfl⟩
    | none =>
      rw [hrest] at h
      dsimp only at h
      split at h
      · next hc =>
        obtain rfl := some.inj h
        exact ⟨[], rest, by rw [hc]; rfl, lastNewline_none hrest, rfl⟩
      · cases h

/-- The last line of a text, after whatever stands before it. -/
theorem tail_behind (before : Bytes) {after : Bytes} (h : newline ∉ after) :
    (splitLines (before ++ newline :: after)).2 = after := by
  have hended : (splitLines (before ++ [newline])).2 = [] := by rw [splitLines_newline]
  rw [show before ++ newline :: after = (before ++ [newline]) ++ after by simp,
    splitLines_append hended, splitLines_of_not_mem h]

/-- The search finds where the last line of a text begins, unless the line is too long for it. -/
theorem searchBack_spec (text more : Bytes) {cursor remaining : Nat}
    (hcursor : cursor ≤ text.length) (hafter : newline ∉ text.drop cursor)
    (hremaining : remaining + (text.length - cursor) = maxLineBytes + 1) :
    searchBack (text ++ more) maxLineBytes cursor remaining =
        .ok (text.length - (splitLines text).2.length) ∨
      (maxLineBytes < (splitLines text).2.length ∧
        ∃ c, searchBack (text ++ more) maxLineBytes cursor remaining = .error c) := by
  induction cursor using Nat.strongRecOn generalizing remaining with
  | _ cursor ih =>
    unfold searchBack
    by_cases h : 0 < cursor ∧ 0 < remaining
    · rw [dif_pos h]
      dsimp only
      generalize hread : min (min cursor remaining) (recoveryBlock maxLineBytes) = readBytes
      have hbounds : 0 < readBytes ∧ readBytes ≤ cursor ∧ readBytes ≤ remaining := by
        unfold recoveryBlock at hread
        omega
      have hchunk : ((text ++ more).drop (cursor - readBytes)).take readBytes =
          (text.take cursor).drop (cursor - readBytes) := by
        rw [drop_append_of_le_length (by omega),
          take_append_of_le_length (by rw [length_drop]; omega), drop_take]
        congr 1
        omega
      have hparts : text.drop (cursor - readBytes) =
          (text.take cursor).drop (cursor - readBytes) ++ text.drop cursor := by
        conv_lhs => rw [← take_append_drop cursor text]
        rw [drop_append_of_le_length (by rw [length_take]; omega)]
      rw [hchunk]
      cases hlast : lastNewline ((text.take cursor).drop (cursor - readBytes)) with
      | some i =>
        left
        obtain ⟨before, behind, hbefore, hbehind, rfl⟩ := lastNewline_some hlast
        have hlength := congrArg List.length hbefore
        have htext : text = (text.take (cursor - readBytes) ++ before) ++
            newline :: (behind ++ text.drop cursor) := by
          conv_lhs => rw [← take_append_drop (cursor - readBytes) text, hparts, hbefore]
          simp
        have htail : (splitLines text).2 = behind ++ text.drop cursor := by
          conv_lhs => rw [htext]
          exact tail_behind _ (by simp [hbehind, hafter])
        rw [htail]
        simp only [length_append, length_drop, length_take, length_cons]
          at hlength ⊢
        refine congrArg Except.ok ?_
        omega
      | none =>
        have hnone : newline ∉ text.drop (cursor - readBytes) := by
          rw [hparts, mem_append, not_or]
          exact ⟨lastNewline_none hlast, hafter⟩
        exact ih (cursor - readBytes) (by omega) (by omega) hnone (by omega)
    · rw [dif_neg h]
      by_cases hzero : cursor = 0
      · left
        subst hzero
        rw [if_pos rfl, splitLines_of_not_mem (by simpa using hafter), Nat.sub_self]
      · right
        rw [if_neg hzero]
        refine ⟨?_, cursor, rfl⟩
        have htail := splitLines_append_tail (text.take cursor) hafter
        rw [take_append_drop] at htail
        rw [htail, length_append, length_drop]
        omega

theorem findLineStart_spec (text more : Bytes) (hint : maxLineBytes + 1 < 2 ^ 63) :
    @findRecoveryLineStart ε (text ++ more) text.length maxLineBytes =
        .ok (text.length - (splitLines text).2.length) ∨
      (maxLineBytes < (splitLines text).2.length ∧
        ∃ err, @findRecoveryLineStart ε (text ++ more) text.length maxLineBytes = .error err) := by
  have hsum : ¬((maxLineBytes : Int) + 1).bmod (2 ^ 64) < 0 := by
    rw [Int.bmod_eq_of_le (by omega) (by omega)]
    omega
  unfold findRecoveryLineStart
  rw [if_neg hsum, Int.toNat_natCast]
  rcases @searchBack_spec maxLineBytes text more _ (maxLineBytes + 1) (Nat.le_refl _) (by simp)
    (by omega) with hok | ⟨hlong, c, herror⟩
  · exact .inl (by rw [hok]; rfl)
  · exact .inr ⟨hlong, .boundary c, by rw [herror]; rfl⟩

/-! ## What recovery accepts -/

section Recovery

variable {decode : DecodeMode → Bytes → Except ε ρ}

/-- A line is within the limit and decodes. -/
def GoodLine (decode : DecodeMode → Bytes → Except ε ρ) (maxLineBytes : Nat) (line : Bytes) : Prop :=
  line.length ≤ maxLineBytes ∧ ∃ record, decode .strict line = .ok record

/-- The last complete line is good, and the unterminated tail within the limit. -/
def Recoverable (decode : DecodeMode → Bytes → Except ε ρ) (maxLineBytes : Nat) (file : Bytes) : Prop :=
  (∀ line, (splitLines file).1.getLast? = some line → GoodLine decode maxLineBytes line) ∧
    (splitLines file).2.length ≤ maxLineBytes

theorem validateBoundary_spec (before : Bytes) {line : Bytes} (hline : newline ∉ line)
    (hbefore : (splitLines before).2 = []) (more : Bytes) (hint : maxLineBytes + 1 < 2 ^ 63) :
    validateBoundary decode (before ++ line ++ more) (before ++ line).length maxLineBytes = .ok () ↔
      GoodLine decode maxLineBytes line := by
  have htail : (splitLines (before ++ line)).2 = line := by
    rw [splitLines_append hbefore, splitLines_of_not_mem hline]
  have hstart : (before ++ line).length - line.length = before.length := by
    rw [length_append]
    omega
  rw [validateBoundary, GoodLine]
  rcases @findLineStart_spec ε _ (before ++ line) more hint with hok | ⟨hlong, c, herror⟩
  · rw [hok, htail, hstart]
    have hlength : (before ++ line).length - before.length = line.length := by
      rw [length_append]
      omega
    dsimp only
    rw [hlength, append_assoc, drop_left, take_left]
    by_cases hlong : line.length > maxLineBytes
    · rw [if_pos (by omega)]
      constructor
      · intro h
        cases h
      · intro h
        omega
    · rw [if_neg (by omega)]
      cases decode .strict line with
      | error err => simp
      | ok record => simp [Nat.not_lt.mp hlong]
  · rw [herror]
    rw [htail] at hlong
    constructor
    · intro h
      cases h
    · intro h
      omega

theorem lines_last {file : Bytes} (h : (splitLines file).1 ≠ []) :
    ∃ before line, file = before ++ line ++ newline :: (splitLines file).2 ∧ newline ∉ line ∧
      (splitLines before).2 = [] ∧ (splitLines file).1.getLast? = some line := by
  obtain hnil | ⟨lines, line, hlines⟩ := eq_nil_or_concat (splitLines file).1
  · exact absurd hnil h
  rw [concat_eq_append] at hlines
  have hfree := newline_not_mem_line file
  rw [hlines] at hfree
  have hjoin := join_splitLines file
  rw [hlines] at hjoin
  refine ⟨joinLines lines, line, ?_, hfree line (by simp), ?_, by rw [hlines, getLast?_concat]⟩
  · conv_lhs => rw [← hjoin]
    simp [joinLines]
  · rw [splitLines_join fun l hl => hfree l (by simp [hl])]

theorem getLast?_tail (file : Bytes) (h : file ≠ []) :
    file.getLast? = some newline ↔ (splitLines file).2 = [] := by
  constructor
  · exact tail_of_getLast
  · intro htail
    have hlines : (splitLines file).1 ≠ [] := by
      intro hnone
      have hjoin := join_splitLines file
      rw [hnone, htail] at hjoin
      exact h hjoin.symm
    obtain ⟨before, line, hfile, _⟩ := lines_last hlines
    rw [htail] at hfile
    rw [hfile]
    simp

theorem completeLines_length (file : Bytes) :
    (completeLines file).length = file.length - (splitLines file).2.length := by
  have hjoin := congrArg List.length (join_splitLines file)
  rw [length_append] at hjoin
  unfold completeLines
  omega

theorem bind_ok_iff {x : Except (RecoveryError ε) Unit} {a b : Nat × Bool} :
    (x >>= fun _ => pure a) = Except.ok b ↔ x = .ok () ∧ a = b := by
  cases x with
  | error err =>
    constructor
    · intro h
      cases h
    · intro h
      cases h.1
  | ok u =>
    constructor
    · intro h
      exact ⟨rfl, Except.ok.inj h⟩
    · rintro ⟨_, rfl⟩
      rfl

/-- Recovery succeeds on the recoverable files, with the offset behind the last newline. -/
theorem scanRecovery_iff {maxLineBytes : Nat} (hmax : 0 < maxLineBytes)
    (hint : maxLineBytes + 1 < 2 ^ 63) (file : Bytes) (result : Nat × Bool) :
    scanRecovery decode file maxLineBytes = .ok result ↔
      Recoverable decode maxLineBytes file ∧
        result = ((completeLines file).length, decide ((splitLines file).2 ≠ [])) := by
  rw [completeLines_length]
  unfold scanRecovery Recoverable
  rw [if_neg (by omega)]
  by_cases hnil : file = []
  · subst hnil
    rw [if_pos rfl]
    simp [splitLines, eq_comm]
  rw [if_neg hnil]
  by_cases hended : file.getLast? = some newline
  · have htail := (getLast?_tail file hnil).mp hended
    have hlines : (splitLines file).1 ≠ [] := by
      intro hnone
      have hjoin := join_splitLines file
      rw [hnone, htail] at hjoin
      exact hnil hjoin.symm
    obtain ⟨before, line, hfile, hline, hbefore, hlast⟩ := lines_last hlines
    have hlength : file.length - 1 = (before ++ line).length := by
      rw [hfile, htail]
      simp
    have hvalid := @validateBoundary_spec _ _ _ decode before line hline hbefore [newline] hint
    rw [htail] at hfile
    rw [if_pos hended, hlength, bind_ok_iff, hlast]
    rw [← hfile] at hvalid
    rw [hvalid, htail]
    simp [eq_comm]
  · have htail : (splitLines file).2 ≠ [] := fun h => hended ((getLast?_tail file hnil).mpr h)
    rw [if_neg hended]
    have hfind := @findLineStart_spec ε _ file [] hint
    rw [append_nil] at hfind
    rcases hfind with hok | ⟨hlong, c, herror⟩
    · have hlength := congrArg List.length (join_splitLines file)
      rw [length_append] at hlength
      have hrest : file.length - (file.length - (splitLines file).2.length) =
          (splitLines file).2.length := by omega
      rw [hok]
      dsimp only
      rw [hrest]
      by_cases hlong : (splitLines file).2.length > maxLineBytes
      · rw [if_pos (by omega)]
        constructor
        · intro h
          cases h
        · intro h
          omega
      rw [if_neg (by omega)]
      by_cases hlines : (splitLines file).1 = []
      · rw [hlines] at hlength ⊢
        have hzero : file.length - (splitLines file).2.length = 0 := by
          rw [← hlength]
          simp [joinLines]
        rw [if_pos hzero, hzero]
        simp [htail, Nat.not_lt.mp hlong, eq_comm]
      · obtain ⟨before, line, hfile, hline, hbefore, hlast⟩ := lines_last hlines
        have hstart : file.length - (splitLines file).2.length = (before ++ line).length + 1 := by
          have hsize := congrArg List.length hfile
          rw [length_append, length_cons] at hsize
          omega
        have hvalid := @validateBoundary_spec _ _ _ decode before line hline hbefore
          (newline :: (splitLines file).2) hint
        rw [← hfile] at hvalid
        rw [hstart, if_neg (Nat.succ_ne_zero _), Nat.add_sub_cancel, bind_ok_iff, hvalid, hlast]
        simp [htail, Nat.not_lt.mp hlong, eq_comm]
    · rw [herror]
      constructor
      · intro h
        cases h
      · intro h
        omega

/-- The recovered part, with good records behind it, recovers at its own end. -/
theorem recovery_extends {file : Bytes} (h : Recoverable decode maxLineBytes file)
    {records : List Bytes}
    (hrecords : ∀ line ∈ records, newline ∉ line ∧ GoodLine decode maxLineBytes line) :
    splitLines (completeLines file ++ joinLines records) =
        ((splitLines file).1 ++ records, []) ∧
      Recoverable decode maxLineBytes (completeLines file ++ joinLines records) := by
  have hcomplete : splitLines (completeLines file) = ((splitLines file).1, []) :=
    splitLines_complete file
  have hsplit : splitLines (completeLines file ++ joinLines records) =
      ((splitLines file).1 ++ records, []) := by
    rw [splitLines_append (by rw [hcomplete]), hcomplete,
      splitLines_join fun line hline => (hrecords line hline).1]
  refine ⟨hsplit, ?_, by rw [hsplit]; exact Nat.zero_le _⟩
  rw [hsplit]
  intro line hlast
  rcases eq_nil_or_concat records with rfl | ⟨front, last, rfl⟩
  · exact h.1 line (by simpa using hlast)
  · rw [concat_eq_append, ← append_assoc, getLast?_concat] at hlast
    obtain rfl := some.inj hlast
    exact (hrecords last (by simp)).2

end Recovery

/-! ## What the decoder reports -/

/-- What the fragments of a line leave of it: all of it, or that it is too long. -/
structure Held (maxLineBytes : Nat) (p line : Bytes) (tooLong : Bool) : Prop where
  long : tooLong = true ↔ maxLineBytes < p.length
  line : tooLong = false → line = p

theorem held_nil (maxLineBytes : Nat) : Held maxLineBytes [] [] false where
  long := by simp
  line _ := rfl

theorem Held.take {p line : Bytes} {tooLong : Bool} (h : Held maxLineBytes p line tooLong)
    (content : Bytes) :
    Held maxLineBytes (p ++ content)
      (if tooLong || line.length + content.length > maxLineBytes then line else line ++ content)
      (tooLong || line.length + content.length > maxLineBytes) := by
  cases htoo : tooLong with
  | true =>
    refine ⟨?_, fun hbad => nomatch hbad⟩
    have hlong := h.long.mp htoo
    simp only [Bool.true_or, true_iff, length_append]
    omega
  | false =>
    have hline := h.line htoo
    subst hline
    refine ⟨by simp, ?_⟩
    intro hshort
    rw [hshort]
    rfl

theorem fragmentContent_line (payload : Bytes) : fragmentContent (payload ++ [newline]) = payload := by
  unfold fragmentContent
  rw [getLast?_concat, if_pos rfl, dropLast_concat]

theorem fragmentContent_part {frag : Bytes} (h : newline ∉ frag) : fragmentContent frag = frag :=
  if_neg fun hlast => h (mem_of_getLast? hlast)

/-- The next line, or what is left without a newline. -/
theorem readLine_spec (h : Fragmented stream answers) {p line : Bytes} {tooLong : Bool}
    (hp : newline ∉ p) (hheld : Held maxLineBytes p line tooLong) (offset : Nat) :
    (∃ whole rest, p ++ stream = whole ++ newline :: rest ∧ newline ∉ whole ∧
      ∃ line' tooLong' answers', readLine maxLineBytes line tooLong offset answers =
          ⟨line', true, tooLong', false, offset + (whole.length + 1 - p.length), answers'⟩ ∧
        p.length ≤ whole.length ∧ Held maxLineBytes whole line' tooLong' ∧
        Fragmented rest answers') ∨
    (newline ∉ p ++ stream ∧ ∃ line' tooLong' offset' answers',
      readLine maxLineBytes line tooLong offset answers =
          ⟨line', false, tooLong', false, offset', answers'⟩ ∧
        Held maxLineBytes (p ++ stream) line' tooLong') := by
  induction h generalizing p line tooLong offset with
  | @line payload rest answers hline hrest =>
    left
    refine ⟨p ++ payload, rest, by simp, by simp [hp, hline], _, _, answers, ?_, by simp,
      hheld.take payload, hrest⟩
    unfold readLine
    dsimp only
    rw [fragmentContent_line]
    congr 1
    simp only [length_append, length_singleton]
    omega
  | @full payload rest answers hline _ ih =>
    have hpart : newline ∉ p ++ payload := by simp [hp, hline]
    unfold readLine
    dsimp only
    rw [fragmentContent_part hline, ← append_assoc]
    rcases ih hpart (hheld.take payload) (offset + payload.length) with
      ⟨whole, behind, heq, hwhole, line', tooLong', answers', hread, hle, hheld', hfragmented⟩ |
      ⟨hnone, hread⟩
    · left
      rw [length_append] at hle hread
      refine ⟨whole, behind, heq, hwhole, line', tooLong', answers', ?_, by omega, hheld',
        hfragmented⟩
      rw [hread]
      congr 1
      omega
    · exact .inr ⟨hnone, hread⟩
  | @eof payload hline =>
    right
    refine ⟨by simp [hp, hline], _, _, offset + payload.length, [], ?_, hheld.take payload⟩
    unfold readLine
    rw [fragmentContent_part hline]

theorem line_unique {l' rest rest' : Bytes} (h : newline ∉ l) (h' : newline ∉ l')
    (heq : l ++ newline :: rest = l' ++ newline :: rest') : l = l' ∧ rest = rest' := by
  have hsplit := splitLines_cons h rest
  rw [heq, splitLines_cons h'] at hsplit
  obtain rfl : l' = l := (List.cons.inj (Prod.mk.inj hsplit).1).1
  exact ⟨rfl, (List.cons.inj (append_cancel_left heq)).2⟩

section Reports

variable (decode : DecodeMode → Bytes → Except ε ρ)

/-- What is reported of a complete line. -/
def lineNext (maxLineBytes : Nat) (mode : DecodeMode) (line : Bytes) : Next ρ ε :=
  if line.length > maxLineBytes then .tooLong
  else
    match decode mode line with
    | .error err => .undecodable err
    | .ok record => .record record

/-- One report a line, with its number and the offset where it begins. -/
def lineReports (maxLineBytes : Nat) (mode : DecodeMode) : Nat → Nat → List Bytes → List (Report ρ ε)
  | _, _, [] => []
  | number, offset, line :: lines =>
    ⟨lineNext decode maxLineBytes mode line, number, offset⟩ ::
      lineReports maxLineBytes mode (number + 1) (offset + (line.length + 1)) lines

theorem next_line (h : Fragmented stream answers) {d : Decoder} (hdone : d.done = false)
    (hmax : 0 < d.maxLineBytes) {whole rest : Bytes} (hstream : stream = whole ++ newline :: rest)
    (hwhole : newline ∉ whole) :
    ∃ answers', d.next decode answers =
        (lineNext decode d.maxLineBytes d.mode whole,
          { d with
            line := d.line + 1, offset := d.offset + (whole.length + 1),
            recordLine := d.line + 1, recordOffset := d.offset }, answers') ∧
      Fragmented rest answers' := by
  rcases readLine_spec h not_mem_nil (held_nil d.maxLineBytes) d.offset with
    ⟨whole', rest', heq, hwhole', line', tooLong', answers', hread, _, hheld, hfragmented⟩ |
    ⟨hnone, _⟩
  · rw [nil_append, hstream] at heq
    obtain ⟨rfl, rfl⟩ := line_unique hwhole hwhole' heq
    refine ⟨answers', ?_, hfragmented⟩
    unfold Decoder.next lineNext
    rw [hdone]
    dsimp only
    rw [if_neg Bool.false_ne_true, if_neg (by omega), hread]
    cases htoo : tooLong' with
    | true =>
      rw [if_pos (hheld.long.mp htoo)]
      rfl
    | false =>
      have hshort : ¬whole.length > d.maxLineBytes := by
        intro hlong
        rw [hheld.long.mpr hlong] at htoo
        cases htoo
      rw [if_neg hshort, hheld.line htoo]
      cases decode d.mode whole with
      | error err => rfl
      | ok record => rfl
  · rw [nil_append, hstream] at hnone
    exact absurd (by simp) hnone

theorem next_tail (h : Fragmented stream answers) {d : Decoder} (hdone : d.done = false)
    (hmax : 0 < d.maxLineBytes) (htail : newline ∉ stream) :
    (d.next decode answers).1 = (if stream = [] then .eof else .partialTail) ∧
      (d.next decode answers).2.1.recordLine = d.line + 1 ∧
      (d.next decode answers).2.1.recordOffset = d.offset := by
  rcases readLine_spec h not_mem_nil (held_nil d.maxLineBytes) d.offset with
    ⟨whole', rest', heq, _⟩ | ⟨_, line', tooLong', offset', answers', hread, hheld⟩
  · rw [nil_append] at heq
    rw [heq] at htail
    exact absurd (by simp) htail
  · rw [nil_append] at hheld
    unfold Decoder.next
    rw [hdone]
    dsimp only
    rw [if_neg Bool.false_ne_true, if_neg (by omega), hread]
    refine ⟨?_, rfl, rfl⟩
    cases htoo : tooLong' with
    | true =>
      have hlong := hheld.long.mp htoo
      have hne : stream ≠ [] := by
        rintro rfl
        exact absurd hlong (Nat.not_lt_zero _)
      rw [if_neg hne]
      simp
    | false =>
      rw [hheld.line htoo]
      simp

/-- Every complete line is reported once, in its place, and then the end of the stream. -/
theorem reports_spec {stream : Bytes} {lines : List Bytes} (hlines : (splitLines stream).1 = lines)
    {answers : List Answer} (h : Fragmented stream answers) {d : Decoder} (hdone : d.done = false)
    (hmax : 0 < d.maxLineBytes) :
    d.reports decode (lines.length + 1) answers =
      lineReports decode d.maxLineBytes d.mode (d.line + 1) d.offset lines ++
        [⟨if (splitLines stream).2 = [] then .eof else .partialTail, d.line + lines.length + 1,
          d.offset + (completeLines stream).length⟩] := by
  induction lines generalizing stream answers d with
  | nil =>
    have hjoin := join_splitLines stream
    rw [hlines] at hjoin
    have hfree : newline ∉ stream := hjoin ▸ newline_not_mem_tail stream
    obtain ⟨hnext, hline, hoffset⟩ := next_tail decode h hdone hmax hfree
    rw [length_nil, Decoder.reports, Decoder.reports, hnext, hline, hoffset, splitLines_of_not_mem hfree]
    unfold completeLines
    rw [hlines]
    rfl
  | cons whole lines ih =>
    have hwhole : newline ∉ whole :=
      newline_not_mem_line stream whole (hlines ▸ mem_cons_self)
    have hjoin := join_splitLines stream
    rw [hlines] at hjoin
    obtain ⟨rest, hstream⟩ : ∃ rest, stream = whole ++ newline :: rest :=
      ⟨joinLines lines ++ (splitLines stream).2, hjoin.symm.trans (by simp [joinLines])⟩
    have hsplit := splitLines_cons hwhole rest
    rw [← hstream] at hsplit
    obtain ⟨answers', hnext, hfragmented⟩ := next_line decode h hdone hmax hstream hwhole
    have hrest : (splitLines rest).1 = lines := by
      rw [hsplit] at hlines
      exact (List.cons.inj hlines).2
    rw [length_cons, Decoder.reports, hnext]
    have hbehind := @ih rest hrest answers' hfragmented
      { d with
        line := d.line + 1, offset := d.offset + (whole.length + 1),
        recordLine := d.line + 1, recordOffset := d.offset } hdone hmax
    rw [hbehind]
    have hcomplete : (completeLines stream).length =
        whole.length + 1 + (completeLines rest).length := by
      unfold completeLines
      rw [hsplit]
      show ((whole ++ [newline]) ++ joinLines (splitLines rest).1).length = _
      rw [length_append, length_append, length_singleton]
    rw [hcomplete, hsplit]
    rw [show d.line + 1 + lines.length + 1 = d.line + (lines.length + 1) + 1 by omega,
      Nat.add_assoc d.offset (whole.length + 1)]
    rfl

/-- The decoder reports every line under every limit. Under every limit but the largest, recovery
succeeds exactly when the last complete line is good and the tail is within the limit; it stops
where the decoder stops, and what it keeps can be extended. -/
theorem recovery_agrees {maxLineBytes : Nat} (hmax : 0 < maxLineBytes) (file : Bytes) :
    (∀ answers mode, Fragmented file answers →
      Decoder.reports decode ((splitLines file).1.length + 1) { maxLineBytes, mode } answers =
        lineReports decode maxLineBytes mode 1 0 (splitLines file).1 ++
          [⟨if (splitLines file).2 = [] then .eof else .partialTail,
            (splitLines file).1.length + 1, (completeLines file).length⟩]) ∧
    (maxLineBytes + 1 < 2 ^ 63 →
      (∀ result, scanRecovery decode file maxLineBytes = .ok result ↔
        Recoverable decode maxLineBytes file ∧
          result = ((completeLines file).length, decide ((splitLines file).2 ≠ []))) ∧
      ∀ offset partialTail, scanRecovery decode file maxLineBytes = .ok (offset, partialTail) →
        ∀ records : List Bytes,
          (∀ line ∈ records, newline ∉ line ∧ GoodLine decode maxLineBytes line) →
          scanRecovery decode (file.take offset ++ joinLines records) maxLineBytes =
            .ok ((file.take offset ++ joinLines records).length, false)) := by
  refine ⟨fun answers mode h => ?_, fun hint => ⟨scanRecovery_iff hmax hint file, ?_⟩⟩
  · have hreports := @reports_spec _ _ decode file _ rfl answers h { maxLineBytes, mode } rfl hmax
    rw [hreports, Nat.zero_add, Nat.zero_add, Nat.zero_add]
  · intro offset partialTail hok records hrecords
    obtain ⟨hrecoverable, hresult⟩ := (scanRecovery_iff hmax hint file _).mp hok
    obtain ⟨rfl, _⟩ := Prod.mk.inj hresult
    rw [take_completeLines]
    obtain ⟨hsplit, hextended⟩ := recovery_extends hrecoverable hrecords
    refine (scanRecovery_iff hmax hint _ _).mpr ⟨hextended, ?_⟩
    rw [completeLines_length, hsplit]
    simp

theorem recovery_agrees_tail :
    scanRecovery (fun _ line => if line = [] then .error () else .ok line)
        (List.take 2 [123, 10, 125] ++ joinLines [[123]]) 1 =
      .ok ((List.take 2 [123, 10, 125] ++ joinLines [[123]]).length, false) := by
  obtain ⟨hrecovers, hextends⟩ := (recovery_agrees
    (fun _ line => if line = [] then .error () else .ok line)
    (by decide : 0 < 1) [123, 10, 125]).2 (by decide)
  refine hextends 2 true ((hrecovers (2, true)).mpr ⟨⟨?_, by decide⟩, by decide⟩) [[123]] ?_
  · rintro line hlast
    obtain rfl : [123] = line := some.inj hlast
    exact ⟨by decide, [123], rfl⟩
  · rintro line hline
    obtain rfl := mem_singleton.mp hline
    exact ⟨by decide, by decide, [123], rfl⟩

end Reports

/-- Under the largest limit a recoverable file makes the recovery panic. -/
theorem largest_limit_panics :
    Recoverable (fun _ line => Except.ok (ε := Unit) line) (2 ^ 63 - 1) [49, 10] ∧
      scanRecovery (fun _ line => Except.ok (ε := Unit) line) [49, 10] (2 ^ 63 - 1) =
        .error .makeslice := by
  refine ⟨⟨fun line hlast => ?_, by decide⟩, rfl⟩
  obtain rfl : [49] = line := some.inj hlast
  exact ⟨by decide, [49], rfl⟩

end Evener.Apilog
