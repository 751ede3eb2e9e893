/-
  Incremental reads of the delegate journal: from an offset to the last complete batch line.

  The arguments that only name the file are left out of the errors, like its read failures. A call
  that reports an error returns offset 0, with the events before a limit or with none.
-/
import Evener.Delegatestore.StoreRuns
import Evener.Linecap.Pages

namespace Evener.Delegatestore

open Evener.Lib List Option
open Evener.Linecap

/-! ## Limits -/

def defaultMaxLineBytes : Int := 128 * 1024 * 1024

/-- Bounds of a scan; a zero leaves the first two out and makes the third the default. -/
structure ScanLimits where
  maxBytes : Int := 0
  maxEvents : Int := 0
  maxLineBytes : Int := 0

def errScanLimitExceeded : Failure := .errorf "delegatestore: journal exceeds scan limit" [] none

def errLineTooLong : Failure := .errorf "linecap: line exceeds max bytes" [] none

def errCanceled : Failure := .errorf "context canceled" [] none

def ScanLimits.lineCap (limits : ScanLimits) : Int :=
  if limits.maxLineBytes ≤ 0 then defaultMaxLineBytes else limits.maxLineBytes

def ScanLimits.exceedsEvents (limits : ScanLimits) : Failure :=
  .errorf "%w: exceeds %d events" [toString limits.maxEvents] (some errScanLimitExceeded)

/-- The answers of `checkByteLimit` that its callers tell apart. -/
inductive ByteCheck where
  | within (ctx : Context)
  | canceled
  | exceeded (err : Failure)

def checkByteLimit (limits : ScanLimits) (ctx : Context) (totalBytes : Nat) : ByteCheck :=
  if limits.maxBytes = 0 ∨ totalBytes ≤ limits.maxBytes then .within ctx
  else match ctx.check with
    | none => .canceled
    | some _ =>
      .exceeded (.errorf "%w: exceeds %d raw bytes" [toString limits.maxBytes]
        (some errScanLimitExceeded))

/-! ## Scans -/

structure Scan where
  events : List Event
  toOffset : Nat
  tornTail : Bool
  err : Option Failure

def Scan.refused (err : Failure) : Scan := ⟨[], 0, false, some err⟩

/-- A limit stops the scan: what has been decoded, without an offset. -/
def Scan.limited (ctx : Context) (events : List Event) (err : Failure) : Scan :=
  match ctx.check with
  | none => .refused errCanceled
  | some _ => ⟨events, 0, false, some err⟩

/-- The loop of `ScanEventsFrom` over the batch lines. -/
def scanBatches (codec : Codec) (limits : ScanLimits) (ctx : Context) (input : Bytes)
    (events : List Event) (offset totalBytes lineNum : Nat) : Scan :=
  match ctx.check with
  | none => .refused errCanceled
  | some ctx =>
    if 0 < limits.maxEvents ∧ limits.maxEvents ≤ events.length then
      .limited ctx events limits.exceedsEvents
    else
      let read := readLine ctx input limits.lineCap
      match _ : read.err with
      | some .tooLong =>
        .refused (.errorf "%w: batch line %d" [toString (lineNum + 1)] (some errLineTooLong))
      | some .canceled => .refused (.errorf "delegatestore: read: %w" [] (some errCanceled))
      | some .eof => ⟨events, offset, false, none⟩
      | none =>
        let lineNum := lineNum + 1
        let totalBytes := totalBytes + read.consumed
        match checkByteLimit limits read.ctx totalBytes with
        | .canceled => .refused errCanceled
        | .exceeded err => ⟨events, 0, false, some err⟩
        | .within ctx =>
          -- an unterminated line is an append that is still being written
          if ¬ read.terminated then ⟨events, offset, true, none⟩
          else match codec.decodeBatch read.line with
            | .error err =>
              .refused (.errorf "delegatestore: decode batch line %d: %w" [toString lineNum]
                (some err))
            | .ok batch =>
              if batch = [] then
                .refused (.errorf "delegatestore: batch line %d has no events" [toString lineNum]
                  none)
              else
                let events := events ++ batch
                let offset := offset + read.consumed
                if 0 < limits.maxEvents ∧ limits.maxEvents < events.length then
                  .limited ctx events limits.exceedsEvents
                else scanBatches codec limits ctx read.rest events offset totalBytes lineNum
termination_by input.length
decreasing_by exact readLine_rest (by assumption)

/-- `ScanEventsFrom`; a missing file is `none`. -/
def scanEventsFrom (codec : Codec) (ctx : Context) (file : Option Bytes) (fromOffset : Nat)
    (limits : ScanLimits) : Scan :=
  match file with
  | none => ⟨[], 0, false, none⟩
  | some content =>
    let input := content.drop fromOffset
    if fromOffset ≠ 0 then scanBatches codec limits ctx input [] fromOffset fromOffset 1
    else match ctx.check with
      | none => .refused errCanceled
      | some ctx =>
        let read := readLine ctx input limits.lineCap
        match read.err with
        | some .tooLong => .refused (.errorf "%w: version header" [] (some errLineTooLong))
        | some .canceled => .refused (.errorf "delegatestore: read: %w" [] (some errCanceled))
        | some .eof | none =>
          if read.consumed = 0 then
            .refused (.errorf "delegatestore: missing version header" [] none)
          else match checkByteLimit limits read.ctx read.consumed with
            | .canceled => .refused errCanceled
            | .exceeded err => .refused err
            | .within ctx =>
              if ¬ read.terminated then
                .refused (.errorf "delegatestore: unterminated version header" [] none)
              else match codec.decodeVersion read.line with
                | .error err =>
                  .refused (.errorf "delegatestore: decode version header: %w" [] (some err))
                | .ok version =>
                  if version ≠ currentVersion then
                    .refused (.errorf "delegatestore: unsupported version %d" [toString version]
                      none)
                  else scanBatches codec limits ctx read.rest [] read.consumed read.consumed 1

/-! ## One scan -/

variable {events : List Event} {lines : List Bytes} {offset : Nat} {content : Bytes}

section Scans

variable {codec : Codec} {limits : ScanLimits}

/-- The events of the complete batch lines, those after the header. -/
def completeEvents (codec : Codec) (content : Bytes) : Except Failure (List Event) :=
  decodeBatches codec 0 (splitLines content).1.tail

/-- Batch lines and their events, one after the other. -/
inductive Decodes (codec : Codec) : List Bytes → List Event → Prop where
  | nil : Decodes codec [] []
  | cons {line : Bytes} {lines : List Bytes} {batch events : List Event}
      (hbatch : codec.decodeBatch line = .ok batch) (hne : batch ≠ [])
      (h : Decodes codec lines events) : Decodes codec (line :: lines) (batch ++ events)

theorem decodeBatches_eq_ok {i : Nat} :
    decodeBatches codec i lines = .ok events ↔ Decodes codec lines events := by
  constructor
  · intro h
    induction lines generalizing i events with
    | nil =>
      cases h
      exact .nil
    | cons line lines ih =>
      rw [decodeBatches] at h
      obtain ⟨batch, hbatch, h⟩ := bind_eq_ok.mp h
      obtain ⟨_, hne, h⟩ := bind_eq_ok.mp h
      obtain ⟨rest, hrest, h⟩ := bind_eq_ok.mp h
      cases h
      exact .cons (wrapping_eq_ok.mp hbatch) (failIf_eq_ok.mp hne) (ih hrest)
  · intro h
    induction h generalizing i with
    | nil => rfl
    | cons hbatch hne _ ih =>
      rw [decodeBatches]
      refine bind_eq_ok.mpr ⟨_, wrapping_eq_ok.mpr hbatch, ?_⟩
      exact bind_eq_ok.mpr ⟨(), failIf_eq_ok.mpr hne, bind_eq_ok.mpr ⟨_, ih, rfl⟩⟩

theorem Decodes.append {more : List Bytes} {batch : List Event} (h : Decodes codec lines events)
    (hmore : Decodes codec more batch) : Decodes codec (lines ++ more) (events ++ batch) := by
  induction h with
  | nil => exact hmore
  | cons hbatch hne _ ih =>
    rw [cons_append, append_assoc]
    exact .cons hbatch hne ih

/-- A first line and what follows it. -/
theorem splitLines_first {line : Bytes} (h : newline ∉ line) (rest : Bytes) :
    splitLines (line ++ newline :: rest) = (line :: (splitLines rest).1, (splitLines rest).2) ∧
      (completeLines (line ++ newline :: rest)).length =
        line.length + 1 + (completeLines rest).length := by
  have hsplit : line ++ newline :: rest = (line ++ [newline]) ++ rest := by simp
  have hline := splitLines_line h
  constructor
  · rw [hsplit, splitLines_append (congrArg Prod.snd hline), hline]
    rfl
  · unfold completeLines
    rw [hsplit, splitLines_append (congrArg Prod.snd hline), hline]
    simp [joinLines]
    omega

/-- A scan without an error stood within the byte limit. -/
theorem within_of_ok {check : ByteCheck} {canceled scan : Scan} {exceeded : Failure → Scan}
    {within : Context → Scan}
    (hscan : (match check with
      | .canceled => canceled
      | .exceeded err => exceeded err
      | .within ctx => within ctx) = scan)
    (hok : scan.err = none) (hcanceled : canceled.err ≠ none)
    (hexceeded : ∀ err, (exceeded err).err ≠ none) : ∃ ctx, within ctx = scan := by
  subst hscan
  cases check with
  | within ctx => exact ⟨ctx, rfl⟩
  | canceled => exact absurd hok hcanceled
  | exceeded err => exact absurd hok (hexceeded err)

/-- A scan without an error has decoded every complete line and stands after the last one. -/
theorem scanBatches_ok (n : Nat) : ∀ (ctx : Context) (input : Bytes) (events : List Event)
    (offset totalBytes lineNum : Nat) (scan : Scan), input.length ≤ n →
    scanBatches codec limits ctx input events offset totalBytes lineNum = scan → scan.err = none →
    ∃ more, Decodes codec (splitLines input).1 more ∧ scan.events = events ++ more ∧
      scan.toOffset = offset + (completeLines input).length ∧
      scan.tornTail = decide ((splitLines input).2 ≠ []) := by
  induction n using Nat.strongRecOn with
  | ind n ih =>
  intro ctx input events offset totalBytes lineNum scan hlength hscan hok
  rw [scanBatches] at hscan
  cases hcheck : ctx.check with
  | none =>
    rw [hcheck] at hscan
    subst hscan
    cases hok
  | some after =>
    rw [hcheck] at hscan
    dsimp only at hscan
    by_cases hevents : 0 < limits.maxEvents ∧ limits.maxEvents ≤ events.length
    · rw [if_pos hevents] at hscan
      subst hscan
      unfold Scan.limited at hok
      split at hok <;> cases hok
    rw [if_neg hevents] at hscan
    generalize readLine after input limits.lineCap = read,
      readLine_spec after input limits.lineCap = hread at hscan
    cases hread with
    | canceled consumed rest later hctx =>
      subst hscan
      cases hok
    | tooLong consumed rest later hlong =>
      subst hscan
      cases hok
    | eof later hctx hempty =>
      subst hscan hempty
      exact ⟨[], .nil, (append_nil _).symm, rfl, rfl⟩
    | tail later hctx hne hnot hcap =>
      obtain ⟨ctx', hscan⟩ := within_of_ok hscan hok nofun nofun
      subst hscan
      unfold completeLines
      rw [splitLines_of_not_mem hnot]
      exact ⟨[], .nil, (append_nil _).symm, rfl, by simpa using hne⟩
    | line line rest later hctx hinput hnot hcap =>
      obtain ⟨hsplit, hcomplete⟩ := splitLines_first hnot rest
      obtain ⟨ctx', hscan⟩ := within_of_ok hscan hok nofun nofun
      rw [if_neg (fun h => h rfl)] at hscan
      cases hbatch : codec.decodeBatch line with
      | error err =>
        rw [hbatch] at hscan
        subst hscan
        cases hok
      | ok batch =>
        rw [hbatch] at hscan
        dsimp only at hscan
        by_cases hne : batch = []
        · rw [if_pos hne] at hscan
          subst hscan
          cases hok
        rw [if_neg hne] at hscan
        by_cases hover : 0 < limits.maxEvents ∧ limits.maxEvents < (events ++ batch).length
        · rw [if_pos hover] at hscan
          subst hscan
          unfold Scan.limited at hok
          split at hok <;> cases hok
        rw [if_neg hover] at hscan
        have hless : rest.length < n := by
          rw [hinput, length_append, length_cons] at hlength
          omega
        obtain ⟨more, hmore, hall, hoffset, htorn⟩ :=
          ih rest.length hless _ _ _ _ _ _ _ (Nat.le_refl _) hscan hok
        rw [hinput, hsplit, hcomplete]
        refine ⟨batch ++ more, .cons hbatch hne hmore, ?_, ?_, htorn⟩
        · rw [hall, append_assoc]
        · rw [hoffset, Nat.add_assoc]

/-- A reader's place: nothing read yet, or the header and whole lines read up to an offset. -/
def ReadTo (codec : Codec) (content : Bytes) (offset : Nat) (events : List Event) : Prop :=
  (offset = 0 ∧ events = []) ∨
  ∃ header lines, splitLines (content.take offset) = (header :: lines, []) ∧
    offset ≤ content.length ∧ codec.decodeVersion header = .ok currentVersion ∧
    Decodes codec lines events

theorem ReadTo.append (h : ReadTo codec content offset events) (bytes : Bytes) :
    ReadTo codec (content ++ bytes) offset events := by
  rcases h with h | ⟨header, lines, hsplit, hoffset, hversion, hevents⟩
  · exact Or.inl h
  · refine Or.inr ⟨header, lines, ?_, ?_, hversion, hevents⟩
    · rwa [take_append_of_le_length hoffset]
    · rw [length_append]
      omega

/-- A place after a line splits the file in two. -/
theorem splitLines_at (h : (splitLines (content.take offset)).2 = []) :
    splitLines content = ((splitLines (content.take offset)).1 ++
      (splitLines (content.drop offset)).1, (splitLines (content.drop offset)).2) := by
  conv_lhs => rw [← take_append_drop offset content]
  exact splitLines_append h _

/-- The place after the last complete line, with everything before it read. -/
structure ReadAll (codec : Codec) (content : Bytes) (offset : Nat) (events : List Event) : Prop where
  place : ReadTo codec content offset events
  offset : offset = (completeLines content).length
  events : completeEvents codec content = .ok events

theorem readAll_of {header : Bytes} (hsplit : (splitLines content).1 = header :: lines)
    (hversion : codec.decodeVersion header = .ok currentVersion)
    (hevents : Decodes codec lines events) :
    ReadAll codec content (completeLines content).length events := by
  refine ⟨Or.inr ⟨header, lines, ?_, ?_, hversion, hevents⟩, rfl, ?_⟩
  · rw [take_completeLines]
    unfold completeLines
    rw [splitLines_complete, hsplit]
  · exact (prefix_completeLines content).length_le
  · unfold completeEvents
    rw [hsplit]
    exact decodeBatches_eq_ok.mpr hevents

theorem scanEventsFrom_ok {ctx : Context} {scan : Scan} (h : ReadTo codec content offset events)
    (hscan : scanEventsFrom codec ctx (some content) offset limits = scan) (hok : scan.err = none) :
    ReadAll codec content scan.toOffset (events ++ scan.events) ∧
      scan.tornTail = decide ((splitLines content).2 ≠ []) := by
  unfold scanEventsFrom at hscan
  dsimp only at hscan
  rcases h with ⟨rfl, rfl⟩ | ⟨header, lines, hsplit, hoffset, hversion, hevents⟩
  · rw [if_neg (fun h => h rfl)] at hscan
    rw [drop_zero] at hscan
    cases hcheck : ctx.check with
    | none =>
      rw [hcheck] at hscan
      subst hscan
      cases hok
    | some after =>
      rw [hcheck] at hscan
      dsimp only at hscan
      generalize readLine after content limits.lineCap = read,
        readLine_spec after content limits.lineCap = hread at hscan
      cases hread with
      | canceled consumed rest later hctx =>
        subst hscan
        cases hok
      | tooLong consumed rest later hlong =>
        subst hscan
        cases hok
      | eof later hctx hempty =>
        subst hscan
        cases hok
      | tail later hctx hne hnot hcap =>
        rw [if_neg (fun h => hne (length_eq_zero_iff.mp h))] at hscan
        cases hbytes : checkByteLimit limits later content.length <;>
        · rw [hbytes] at hscan
          subst hscan
          cases hok
      | line line rest later hctx hinput hnot hcap =>
        obtain ⟨hsplit, hcomplete⟩ := splitLines_first hnot rest
        rw [if_neg (Nat.succ_ne_zero _)] at hscan
        obtain ⟨ctx', hscan⟩ := within_of_ok hscan hok nofun nofun
        rw [if_neg (fun h => h rfl)] at hscan
        cases hversion : codec.decodeVersion line with
        | error err =>
          rw [hversion] at hscan
          subst hscan
          cases hok
        | ok version =>
          rw [hversion] at hscan
          dsimp only at hscan
          by_cases hcurrent : version = currentVersion
          · rw [if_neg (fun h => h hcurrent)] at hscan
            obtain ⟨more, hmore, hall, hto, htorn⟩ :=
              scanBatches_ok _ _ _ _ _ _ _ _ (Nat.le_refl _) hscan hok
            rw [← hinput] at hsplit hcomplete
            rw [hto, ← hcomplete, hall, nil_append, htorn, hsplit]
            rw [hcurrent] at hversion
            exact ⟨readAll_of (congrArg Prod.fst hsplit) hversion hmore, rfl⟩
          · rw [if_pos hcurrent] at hscan
            subst hscan
            cases hok
  · have hne : offset ≠ 0 := by
      rintro rfl
      cases hsplit
    rw [if_pos hne] at hscan
    obtain ⟨more, hmore, hall, hto, htorn⟩ :=
      scanBatches_ok _ _ _ _ _ _ _ _ (Nat.le_refl _) hscan hok
    have hwhole := splitLines_at (congrArg Prod.snd hsplit)
    rw [hsplit] at hwhole
    have hplace : scan.toOffset = (completeLines content).length := by
      have hread := join_splitLines (content.take offset)
      rw [hsplit, append_nil] at hread
      have hlength := congrArg List.length hread
      rw [length_take, Nat.min_eq_left hoffset] at hlength
      have hjoin : joinLines ((header :: lines) ++ (splitLines (content.drop offset)).1) =
          joinLines (header :: lines) ++ joinLines (splitLines (content.drop offset)).1 := by
        simp [joinLines]
      rw [hto]
      unfold completeLines
      rw [hwhole, hjoin, length_append, hlength]
    rw [hplace, hall, nil_append]
    refine ⟨readAll_of (congrArg Prod.fst hwhole) hversion (hevents.append hmore), ?_⟩
    rw [htorn, hwhole]

theorem checkByteLimit_unlimited (h : limits.maxBytes = 0) (ctx : Context) (totalBytes : Nat) :
    checkByteLimit limits ctx totalBytes = .within ctx := by
  unfold checkByteLimit
  rw [if_pos (Or.inl h)]

/-- Nothing but a limit, a cancellation or a bad line stops a scan. -/
theorem scanBatches_runs (hbytes : limits.maxBytes = 0) (hevents : limits.maxEvents ≤ 0) (n : Nat) :
    ∀ (input : Bytes) (read batch : List Event) (offset totalBytes lineNum : Nat),
      input.length ≤ n → Capped limits.lineCap input → Decodes codec (splitLines input).1 batch →
      (scanBatches codec limits none input read offset totalBytes lineNum).err = none := by
  induction n using Nat.strongRecOn with
  | ind n ih =>
  intro input read batch offset totalBytes lineNum hlength hcapped hdecodes
  have hunlimited : ¬ (0 < limits.maxEvents) := by omega
  rw [scanBatches]
  dsimp only [Context.check]
  rw [if_neg (fun h => hunlimited h.1)]
  generalize readLine none input limits.lineCap = line, readLine_spec none input limits.lineCap = hread
  cases hread with
  | canceled consumed rest later hctx => exact absurd rfl hctx
  | tooLong consumed rest later hlong =>
    have := hcapped.first_le
    omega
  | eof later hctx hempty => rfl
  | tail later hctx hne hnot hcap =>
    rw [checkByteLimit_unlimited hbytes]
    rfl
  | line line rest later hctx hinput hnot hcap =>
    obtain ⟨hsplit, _⟩ := splitLines_first hnot rest
    rw [← hinput] at hsplit
    rw [hsplit] at hdecodes
    rw [checkByteLimit_unlimited hbytes]
    dsimp only
    cases hdecodes with
    | @cons _ _ first more hbatch hne hmore =>
      rw [if_neg (fun h => h rfl), hbatch]
      dsimp only
      rw [if_neg hne, if_neg (fun h => hunlimited h.1), hctx rfl]
      have hrest : Capped limits.lineCap rest := @Capped.of_append _ [line] _ _ hcapped hsplit
      refine ih rest.length ?_ _ _ _ _ _ _ (Nat.le_refl _) hrest hmore
      rw [hinput, length_append, length_cons] at hlength
      omega

/-- A journal whose header and complete lines all decode. -/
def Readable (codec : Codec) (content : Bytes) : Prop :=
  ∃ header lines events, (splitLines content).1 = header :: lines ∧
    codec.decodeVersion header = .ok currentVersion ∧ Decodes codec lines events

theorem Decodes.rest {more : List Bytes} (h : Decodes codec (lines ++ more) events) :
    ∃ batch, Decodes codec more batch := by
  induction lines generalizing events with
  | nil => exact ⟨events, h⟩
  | cons line lines ih =>
    cases h with
    | cons _ _ hrest => exact ih hrest

theorem scanEventsFrom_runs (hbytes : limits.maxBytes = 0) (hevents : limits.maxEvents ≤ 0)
    (h : ReadTo codec content offset events) (hreadable : Readable codec content)
    (hcapped : Capped limits.lineCap content) :
    (scanEventsFrom codec none (some content) offset limits).err = none := by
  obtain ⟨header, lines, batch, hfirst, hversion, hbatch⟩ := hreadable
  unfold scanEventsFrom
  dsimp only [Context.check]
  rcases h with ⟨rfl, rfl⟩ | ⟨read, before, hsplit, _, _, _⟩
  · rw [if_neg (fun h => h rfl), drop_zero]
    generalize readLine none content limits.lineCap = line,
      readLine_spec none content limits.lineCap = hread
    cases hread with
    | canceled consumed rest later hctx => exact absurd rfl hctx
    | tooLong consumed rest later hlong =>
      have := hcapped.first_le
      omega
    | eof later hctx hempty =>
      subst hempty
      cases hfirst
    | tail later hctx hne hnot hcap =>
      rw [splitLines_of_not_mem hnot] at hfirst
      cases hfirst
    | line line rest later hctx hinput hnot hcap =>
      obtain ⟨hsplit, _⟩ := splitLines_first hnot rest
      rw [← hinput] at hsplit
      rw [hsplit] at hfirst
      cases hfirst
      rw [if_neg (Nat.succ_ne_zero _), checkByteLimit_unlimited hbytes]
      dsimp only
      rw [if_neg (fun h => h rfl), hversion]
      dsimp only
      rw [if_neg (fun h => h rfl), hctx rfl]
      have hrest : Capped limits.lineCap rest := @Capped.of_append _ [header] _ _ hcapped hsplit
      exact scanBatches_runs hbytes hevents _ _ _ _ _ _ _ (Nat.le_refl _) hrest hbatch
  · have hne : offset ≠ 0 := by
      rintro rfl
      cases hsplit
    have hwhole := splitLines_at (congrArg Prod.snd hsplit)
    rw [if_pos hne]
    rw [hwhole, hsplit] at hfirst
    cases hfirst
    obtain ⟨more, hmore⟩ := hbatch.rest
    exact scanBatches_runs hbytes hevents _ _ _ _ _ _ _ (Nat.le_refl _) (hcapped.of_append hwhole)
      hmore

end Scans

/-! ## Runs of scans -/

/-- The file, the offset and the events of the calls so far. A call with an error gives neither. -/
inductive Scanning (codec : Codec) : Option Bytes → Nat → List Event → Prop where
  | start : Scanning codec none 0 []
  | append (file : Option Bytes) (offset : Nat) (events : List Event) (bytes : Bytes)
      (h : Scanning codec file offset events) :
      Scanning codec (some (file.getD [] ++ bytes)) offset events
  | scan (file : Option Bytes) (offset : Nat) (events : List Event) (ctx : Context)
      (limits : ScanLimits) (h : Scanning codec file offset events)
      (hok : (scanEventsFrom codec ctx file offset limits).err = none) :
      Scanning codec file (scanEventsFrom codec ctx file offset limits).toOffset
        (events ++ (scanEventsFrom codec ctx file offset limits).events)

theorem Scanning.readTo {codec : Codec} {file : Option Bytes}
    (h : Scanning codec file offset events) : ReadTo codec (file.getD []) offset events := by
  induction h with
  | start => exact Or.inl ⟨rfl, rfl⟩
  | append file offset events bytes _ ih => exact ih.append bytes
  | scan file offset events ctx limits _ hok ih =>
    cases file with
    | none =>
      rcases ih with ⟨rfl, rfl⟩ | ⟨header, lines, hsplit, _⟩
      · exact Or.inl ⟨rfl, rfl⟩
      · rw [getD_none, take_nil] at hsplit
        cases hsplit
    | some content => exact (scanEventsFrom_ok ih rfl hok).1.place

/-- Scans and pages of a journal that grows between calls lose and repeat nothing. -/
theorem increments_exact (codec : Codec) :
    (∀ (file : Option Bytes) (offset : Nat) (events : List Event), Scanning codec file offset events →
      ∀ (ctx : Context) (limits : ScanLimits),
        ((scanEventsFrom codec ctx file offset limits).err = none →
          completeEvents codec (file.getD []) =
              .ok (events ++ (scanEventsFrom codec ctx file offset limits).events) ∧
            (scanEventsFrom codec ctx file offset limits).toOffset =
              (completeLines (file.getD [])).length) ∧
        (ctx = none → limits.maxBytes = 0 → limits.maxEvents ≤ 0 →
          Capped limits.lineCap (file.getD []) →
          (file = none ∨ Readable codec (file.getD [])) →
          (scanEventsFrom codec ctx file offset limits).err = none)) ∧
    (∀ (file : Option Bytes) (cursor : JournalCursor) (read : List JournalLine),
      Paging file cursor read →
      read = endedLines ((file.getD []).take cursor.offset) ∧
      ∀ (ctx : Context) (byteLimit lineLimit maxLineBytes : Int), 0 < byteLimit → 0 < lineLimit →
        0 < maxLineBytes → Capped maxLineBytes (file.getD []) →
        (ctx = none → ∃ page,
          readJournalPage ctx file cursor byteLimit lineLimit maxLineBytes = .ok page) ∧
        ∀ page, readJournalPage ctx file cursor byteLimit lineLimit maxLineBytes = .ok page →
          read ++ page.lines.filter (·.terminated) =
              endedLines ((file.getD []).take page.cursor.offset) ∧
            (cursor.offset < (file.getD []).length → cursor.offset < page.cursor.offset) ∧
            (page.complete = true →
              read ++ page.lines.filter (·.terminated) = endedLines (file.getD []) ∧
                page.cursor.offset = (file.getD []).length)) := by
  refine ⟨fun file offset events h ctx limits => ⟨fun hok => ?_, ?_⟩,
    fun file cursor read h => ⟨h.exact.2, fun ctx byteLimit lineLimit maxLineBytes hbytes hlines hcap
      hcapped => ⟨?_, fun page hpage => ?_⟩⟩⟩
  · have hplace := h.readTo
    cases file with
    | none =>
      rcases hplace with ⟨rfl, rfl⟩ | ⟨header, lines, hsplit, _⟩
      · exact ⟨rfl, rfl⟩
      · rw [getD_none, take_nil] at hsplit
        cases hsplit
    | some content =>
      obtain ⟨hall, _⟩ := scanEventsFrom_ok hplace rfl hok
      exact ⟨hall.events, hall.offset⟩
  · rintro rfl hunlimited hevents hcapped hreadable
    cases file with
    | none => rfl
    | some content =>
      have hreadable : Readable codec content := hreadable.resolve_left (fun hnone => nomatch hnone)
      exact scanEventsFrom_runs hunlimited hevents h.readTo hreadable hcapped
  · rintro rfl
    have hat := h.exact.1
    cases file with
    | none =>
      have hpositive : ¬ (byteLimit ≤ 0 ∨ lineLimit ≤ 0 ∨ maxLineBytes ≤ 0) := by omega
      refine ⟨⟨[], true, cursor⟩, ?_⟩
      unfold readJournalPage
      dsimp only [Context.check]
      rw [if_neg hpositive]
    | some content =>
      have hspec := @readJournalPage_spec _ _ _ none _ _ hat hbytes hlines hcap
      cases hpage : readJournalPage none (some content) cursor byteLimit lineLimit maxLineBytes with
      | error err =>
        rw [getD_some, hpage] at hspec
        rcases hspec with ⟨_, hctx⟩ | ⟨_, hlong⟩
        · exact absurd rfl hctx
        · exact absurd hcapped hlong
      | ok page => exact ⟨page, rfl⟩
  · obtain ⟨hat, hread⟩ := h.exact
    obtain ⟨hadvances, hcomplete, hmoves⟩ := readJournalPage_ok hat hpage
    have hall : read ++ page.lines.filter (·.terminated) =
        endedLines ((file.getD []).take page.cursor.offset) := by
      rw [hread, hadvances.lines]
    refine ⟨hall, hmoves, fun hend => ?_⟩
    rw [hall, hcomplete hend, take_length]
    exact ⟨rfl, rfl⟩

/-! ## A log of one batch -/

def creationLog : Bytes := joinLines [versionText, creationText]

theorem creationLog_split : splitLines creationLog = ([versionText, creationText], []) := by
  refine splitLines_join fun line hline => ?_
  rcases mem_cons.mp hline with rfl | hline
  · exact versionText_oneLine
  · rw [mem_singleton.mp hline]
    exact creationText_oneLine

theorem versionText_decodes : creationCodec.decodeVersion versionText = .ok currentVersion := rfl

theorem creationText_decodes : creationCodec.decodeBatch creationText = .ok [creation] := by
  unfold creationCodec
  dsimp only
  rw [if_pos rfl]

theorem creationLog_decodes : Decodes creationCodec [creationText] [creation] :=
  .cons creationText_decodes (cons_ne_nil _ _) .nil

theorem creationLog_readable : Readable creationCodec creationLog :=
  ⟨versionText, [creationText], [creation], congrArg Prod.fst creationLog_split,
    versionText_decodes, creationLog_decodes⟩

theorem versionText_short : versionText.length ≤ 1024 := by decide +kernel

theorem creationText_short : creationText.length ≤ 1024 := by decide +kernel

theorem creationLog_capped {cap : Int} (h : 1024 ≤ cap) : Capped cap creationLog := by
  have hversion := versionText_short
  have hcreation := creationText_short
  unfold Capped
  rw [creationLog_split]
  refine ⟨fun line hline => ?_, by rw [length_nil]; omega⟩
  rcases mem_cons.mp hline with rfl | hline
  · omega
  · rw [mem_singleton.mp hline]
    omega

/-- The log while its batch is written: the header and a part of the batch line. -/
def partialLog : Bytes := versionText ++ newline :: creationText.take 6

def restLog : Bytes := creationText.drop 6 ++ [newline]

theorem partialLog_grows : partialLog ++ restLog = creationLog := by
  unfold partialLog restLog
  rw [append_assoc, cons_append, ← append_assoc (creationText.take 6),
    take_append_drop]
  simp [creationLog, joinLines]

theorem partialLog_split : splitLines partialLog = ([versionText], creationText.take 6) := by
  unfold partialLog
  rw [(splitLines_first versionText_oneLine _).1, splitLines_of_not_mem fun h =>
    creationText_oneLine (mem_of_mem_take h)]

theorem partialLog_readable : Readable creationCodec partialLog :=
  ⟨versionText, [], [], congrArg Prod.fst partialLog_split, versionText_decodes, .nil⟩

theorem partialLog_capped : Capped 1024 partialLog := by
  have hversion := versionText_short
  unfold Capped
  rw [partialLog_split]
  refine ⟨fun line hline => ?_, ?_⟩
  · rw [mem_singleton.mp hline]
    omega
  · have hpart : (creationText.take 6).length ≤ 6 := length_take_le 6 creationText
    dsimp only
    omega

/-- The log is read while its batch line is partial, and again when the rest of it is there. -/
theorem increments_exact_creation :
    (∃ first second, scanEventsFrom creationCodec none (some partialLog) 0 ⟨0, 0, 1024⟩ = first ∧
      scanEventsFrom creationCodec none (some creationLog) first.toOffset ⟨0, 0, 1024⟩ = second ∧
      first.err = none ∧ second.err = none ∧
      completeEvents creationCodec creationLog = .ok (first.events ++ second.events)) ∧
    ∃ first second, readJournalPage none (some partialLog) {} 16 2 1024 = .ok first ∧
      readJournalPage none (some creationLog) (putBack first.lines first.cursor) 1024 2 1024 =
        .ok second ∧
      first.lines.filter (·.terminated) ++ second.lines.filter (·.terminated) =
        endedLines (creationLog.take second.cursor.offset) := by
  obtain ⟨hscans, hpages⟩ := increments_exact creationCodec
  constructor
  · have hstart : Scanning creationCodec (some partialLog) 0 [] :=
      .append none 0 [] partialLog .start
    obtain ⟨_, hruns⟩ := hscans _ _ _ hstart none ⟨0, 0, 1024⟩
    have hfirst := hruns rfl rfl (Int.le_refl 0) partialLog_capped (Or.inr partialLog_readable)
    have hgrown := Scanning.append _ _ _ restLog (.scan _ _ _ none ⟨0, 0, 1024⟩ hstart hfirst)
    rw [getD_some, partialLog_grows] at hgrown
    obtain ⟨hall, hruns⟩ := hscans (some creationLog) _ _ hgrown none ⟨0, 0, 1024⟩
    have hsecond := hruns rfl rfl (Int.le_refl 0) (creationLog_capped (by decide)) (Or.inr creationLog_readable)
    exact ⟨_, _, rfl, rfl, hfirst, hsecond, (hall hsecond).1⟩
  · have hstart : Paging (some partialLog) {} [] := .append none {} [] partialLog .start
    obtain ⟨_, hpage⟩ := hpages _ _ _ hstart
    obtain ⟨hruns, _⟩ := hpage none 16 2 1024 (by decide) (by decide) (by decide) partialLog_capped
    obtain ⟨first, hfirst⟩ := hruns rfl
    have hgrown := Paging.append _ _ _ restLog (.page _ _ _ none 16 2 1024 first hstart hfirst)
    rw [getD_some, partialLog_grows] at hgrown
    obtain ⟨_, hpage⟩ := hpages (some creationLog) _ _ hgrown
    obtain ⟨hruns, hall⟩ :=
      hpage none 1024 2 1024 (by decide) (by decide) (by decide) (creationLog_capped (by decide))
    obtain ⟨second, hsecond⟩ := hruns rfl
    exact ⟨first, second, hfirst, hsecond, (hall second hsecond).1⟩

/-- A call that an event limit stops gives its events but offset 0, and the next one repeats them. -/
theorem limited_scan_repeats :
    (scanEventsFrom creationCodec none (some creationLog) 0 ⟨0, 1, 0⟩).events = [creation] ∧
      (scanEventsFrom creationCodec none (some creationLog) 0 ⟨0, 1, 0⟩).toOffset = 0 ∧
      (scanEventsFrom creationCodec none (some creationLog) 0 {}).events = [creation] ∧
      completeEvents creationCodec creationLog = .ok [creation] := by
  have hdefault : (1024 : Int) ≤ defaultMaxLineBytes := by decide
  have hversion := Int.le_trans (Int.ofNat_le.mpr versionText_short) hdefault
  have hcreation := Int.le_trans (Int.ofNat_le.mpr creationText_short) hdefault
  have hlog : creationLog = versionText ++ newline :: (creationText ++ newline :: []) := by
    simp [creationLog, joinLines]
  have hlimited : scanEventsFrom creationCodec none (some creationLog) 0 ⟨0, 1, 0⟩ =
      ⟨[creation], 0, false, some (ScanLimits.exceedsEvents ⟨0, 1, 0⟩)⟩ := by
    unfold scanEventsFrom
    rw [hlog]
    dsimp only [Context.check, ScanLimits.lineCap]
    rw [if_neg (fun h => h rfl), drop_zero, if_pos (Int.le_refl 0),
      readLine_line versionText_oneLine hversion]
    rw [if_neg (Nat.succ_ne_zero _), checkByteLimit_unlimited rfl]
    dsimp only
    rw [if_neg (fun h => h rfl), versionText_decodes]
    dsimp only
    rw [if_neg (fun h => h rfl), scanBatches]
    dsimp only [Context.check, ScanLimits.lineCap]
    rw [if_neg (by decide), if_pos (Int.le_refl 0), readLine_line creationText_oneLine hcreation]
    rw [checkByteLimit_unlimited rfl]
    dsimp only
    rw [if_neg (fun h => h rfl), creationText_decodes]
    dsimp only
    rw [if_neg (cons_ne_nil _ _), if_neg (by decide), scanBatches]
    rfl
  have hcapped : Capped (ScanLimits.lineCap {}) creationLog := creationLog_capped hdefault
  have hok := scanEventsFrom_runs rfl (Int.le_refl 0) (Or.inl ⟨rfl, rfl⟩) creationLog_readable hcapped
  have hall := (scanEventsFrom_ok (Or.inl ⟨rfl, rfl⟩) rfl hok).1.events
  have hcomplete : completeEvents creationCodec creationLog = .ok [creation] := by
    unfold completeEvents
    rw [creationLog_split]
    exact decodeBatches_eq_ok.mpr creationLog_decodes
  rw [hcomplete] at hall
  refine ⟨by rw [hlimited], by rw [hlimited], ?_, hcomplete⟩
  exact (Except.ok.inj hall).symm

end Evener.Delegatestore
