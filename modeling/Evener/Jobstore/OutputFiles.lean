/-
  The files of a retained output, and what a crash leaves of them: the files after some of the
  steps of a compaction, or in the middle of the data write.

  The temporary files behind the renames are never read. No other process writes the file that
  opening reads, so that the branch for one that grows under its reader is left out.
-/
import Evener.Jobstore.Output

namespace Evener.Jobstore

open Evener.Lib

/-- The output and its two metadata files. -/
structure OutputFiles (δ : Type) where
  output : Bytes
  finalMeta : Option (OutputMeta δ)
  pendingMeta : Option (OutputMeta δ)

inductive FsStep (δ : Type) where
  | writeData (b : Bytes)
  | renamePending (outputMeta : OutputMeta δ)
  | renameTail (tail : Bytes)
  | renameMeta (outputMeta : OutputMeta δ)
  | removePending

variable {δ : Type}

def OutputFiles.apply (files : OutputFiles δ) : FsStep δ → OutputFiles δ
  | .writeData b => { files with output := files.output ++ b }
  | .renamePending outputMeta => { files with pendingMeta := some outputMeta }
  | .renameTail tail => { files with output := tail }
  | .renameMeta outputMeta => { files with finalMeta := some outputMeta }
  | .removePending => { files with pendingMeta := none }

/-- What the step adds to the stream. -/
def FsStep.bytes : FsStep δ → Bytes
  | .writeData b => b
  | _ => []

/-- The files that a crash leaves, and the bytes that had reached the stream. -/
inductive Crashed : OutputFiles δ → List (FsStep δ) → OutputFiles δ → Bytes → Prop
  | here (files : OutputFiles δ) (steps : List (FsStep δ)) : Crashed files steps files []
  | torn (files : OutputFiles δ) (b : Bytes) (k : Nat) (steps : List (FsStep δ)) :
      Crashed files (.writeData b :: steps) (files.apply (.writeData (b.take k))) (b.take k)
  | later {files left : OutputFiles δ} {step : FsStep δ} {steps : List (FsStep δ)}
      {reached : Bytes} (h : Crashed (files.apply step) steps left reached) :
      Crashed files (step :: steps) left (step.bytes ++ reached)

variable [DecidableEq δ] (sha256 : Bytes → δ)

/-! ## Writing -/

namespace OutputStore

/-- The prune rewrites the file. -/
def compacts (o : OutputStore) : Bool := 0 < o.capBytes && o.compactAt < o.file.length

/-- The metadata that a compaction writes ahead of its tail. -/
def pendingMeta (pruned : OutputStore) : OutputMeta δ :=
  { totalBytes := pruned.total
    retainedStart := pruned.retainedStart
    retainedStartPartial := some pruned.retainedStartPartial
    retainedSHA256 := some (sha256 pruned.file) }

/-- The steps of `pruneLocked` that makes `pruned` of the store. -/
def pruneSteps (o pruned : OutputStore) : List (FsStep δ) :=
  if o.compacts then [.renamePending (pruned.pendingMeta sha256), .renameTail pruned.file] else []

/-- The steps of `persistMetaLocked`. -/
def persistSteps (o : OutputStore) : List (FsStep δ) :=
  [.renameMeta (o.outputMetaLocked sha256), .removePending]

/-- The steps of `Append`, up to the first error. -/
def appendSteps (o : OutputStore) (b : Bytes) : List (FsStep δ) :=
  .writeData b ::
    match (o.appended b).pruneLocked with
    | none => []
    | some pruned =>
      (o.appended b).pruneSteps sha256 pruned ++
        match pruned.refreshVisibleLocked with
        | none => []
        | some seen => seen.persistSteps sha256

/-- An output that has just been created. -/
def created (capBytes : Int) : OutputStore :=
  { file := []
    capBytes := capBytes
    total := 0
    retainedStart := 0
    retainedStartPartial := false
    visibleStart := 0
    visiblePartial := false
    retainedHash := [] }

def createOutput (capBytes : Int) : Option (Retained δ) := (created capBytes).settle sha256

end OutputStore

/-- The files between two calls. -/
def Retained.files (r : Retained δ) : OutputFiles δ := ⟨r.store.file, some r.outputMeta, none⟩

/-- Create an output and append to it. -/
def runAppends (capBytes : Int) (appends : List Bytes) : Option (Retained δ) :=
  OutputStore.createOutput sha256 capBytes >>= fun r =>
    appends.foldlM (fun r b => r.store.append sha256 b) r

/-! ## Reading -/

/-- `errOutputPendingHandoff`, "output metadata does not match retained output" and a hash over
    bytes that are not there. -/
inductive OutputMetaError where
  | pendingHandoff
  | mismatch
  | shortRead
deriving DecidableEq

def outputMetaRetainedBytes (outputMeta : OutputMeta δ) : Except OutputMetaError Nat :=
  if outputMeta.totalBytes < outputMeta.retainedStart then throw .mismatch
  else pure (outputMeta.totalBytes - outputMeta.retainedStart)

def outputFileHasPrefixSHA256 (file : Bytes) (n : Nat) (want : Option δ) :
    Except OutputMetaError Bool :=
  if file.length < n then throw .shortRead else pure (some (sha256 (file.take n)) == want)

def outputFileHasSuffixSHA256 (file : Bytes) (start n : Nat) (want : Option δ) :
    Except OutputMetaError Bool :=
  if file.length < start + n then throw .shortRead
  else pure (some (sha256 ((file.drop start).take n)) == want)

/-- `pendingOverOldFile`: the metadata of a file that a compaction has not yet replaced. -/
def pendingOverOldFile (pending final : OutputMeta δ) (fileSize : Nat) (hash : δ) : OutputMeta δ :=
  let previous := final.outputViewOf
  let visible :=
    if pending.retainedStart < previous.visibleStart then
      (previous.visibleStart, previous.visiblePartial)
    else (pending.retainedStart, pending.startPartial)
  { pending with
    retainedStart := pending.totalBytes - fileSize
    retainedStartPartial := some final.startPartial
    retainedSHA256 := some hash
    visibleStart := some visible.1
    visibleStartPartial := some visible.2 }

def pendingOutputMetadataHandoff (finalMeta pendingMeta : OutputMeta δ) (retained : Nat)
    (outputHash : δ) : Bool :=
  match outputMetaRetainedBytes finalMeta, outputMetaRetainedBytes pendingMeta with
  | .ok finalRetained, .ok pendingRetained =>
    let totalDelta : Int := pendingMeta.totalBytes - finalMeta.totalBytes
    let retainedStartDelta : Int := pendingMeta.retainedStart - finalMeta.retainedStart
    finalRetained == retained && pendingRetained == retained && 0 < totalDelta &&
      0 < retainedStartDelta && totalDelta == retainedStartDelta &&
      (pendingMeta.retainedSHA256 == some outputHash || finalMeta.retainedSHA256 == some outputHash)
  | _, _ => false

/-- `readValidPendingOutputMeta` where the pending tail is not yet the file. -/
def readPendingOverOldFile (files : OutputFiles δ) (outputMeta : OutputMeta δ)
    (metaRetained : Nat) : Except OutputMetaError (OutputMeta δ) := do
  let retained := files.output.length
  let prefixLen := retained - metaRetained
  unless ← outputFileHasSuffixSHA256 sha256 files.output prefixLen metaRetained
    outputMeta.retainedSHA256 do throw .mismatch
  if outputMeta.totalBytes < retained then throw .mismatch
  match files.finalMeta with
  | none => throw .mismatch
  | some finalMeta =>
    let finalRetained ← outputMetaRetainedBytes finalMeta
    if retained < finalRetained ∨
        outputMeta.retainedStart ≠ finalMeta.retainedStart + prefixLen ∨
        outputMeta.totalBytes - retained ≠ finalMeta.retainedStart then throw .mismatch
    unless ← outputFileHasPrefixSHA256 sha256 files.output finalRetained
      finalMeta.retainedSHA256 do throw .mismatch
    pure (pendingOverOldFile outputMeta finalMeta retained (sha256 files.output))

def readValidPendingOutputMeta (files : OutputFiles δ) :
    Except OutputMetaError (Option (OutputMeta δ)) :=
  match files.pendingMeta with
  | none => pure none
  | some outputMeta => do
    let retained := files.output.length
    let metaRetained ← outputMetaRetainedBytes outputMeta
    if metaRetained < retained then
      let outputMeta ← readPendingOverOldFile sha256 files outputMeta metaRetained
      pure (some outputMeta)
    else if retained < metaRetained then throw .mismatch
    else if outputMeta.retainedSHA256 ≠ some (sha256 files.output) then
      match files.finalMeta with
      | some finalMeta =>
        if pendingOutputMetadataHandoff finalMeta outputMeta retained (sha256 files.output) then
          throw .pendingHandoff
        else throw .mismatch
      | none => throw .mismatch
    else pure (some outputMeta)

def readOutputMetaRecordForFile (files : OutputFiles δ) :
    Except OutputMetaError (OutputMeta δ) := do
  match ← readValidPendingOutputMeta sha256 files with
  | some pending => pure pending
  | none =>
    match OutputMeta.readOutputMetaRecord sha256 files.finalMeta files.output with
    | some outputMeta => pure outputMeta
    | none => throw .mismatch

/-- `OpenOutput` on these files. -/
def openOutputFiles (files : OutputFiles δ) (capBytes : Int) : Option (Retained δ) :=
  match readOutputMetaRecordForFile sha256 files with
  | .ok outputMeta => (OutputStore.described files.output outputMeta capBytes).settle sha256
  | .error _ => none

end Evener.Jobstore
