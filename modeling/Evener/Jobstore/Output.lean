/-
  The retained output of a job: a log file that keeps the tail of a byte stream.

  Offsets count the bytes of the lifetime stream. Pending metadata is gone before a call succeeds,
  so that only the final metadata is modelled.
-/
import Evener.Lib.Lines
import Evener.Lib.CheckedFold
import Evener.Lib.RuneCut

namespace Evener.Jobstore

open Evener.Lib

def utfMax : Nat := 4

structure OutputMeta (δ : Type) where
  totalBytes : Nat
  retainedStart : Nat
  retainedStartPartial : Option Bool
  retainedSHA256 : Option δ
  visibleStart : Option Nat := none
  visibleStartPartial : Option Bool := none

/-- `retainedHash` is the text fed to the running checksum. -/
structure OutputStore where
  file : Bytes
  capBytes : Int
  total : Nat
  retainedStart : Nat
  retainedStartPartial : Bool
  visibleStart : Nat
  visiblePartial : Bool
  retainedHash : Bytes

structure OutputView where
  total : Nat
  fileStart : Nat
  visibleStart : Nat
  visiblePartial : Bool

/-- The open store and its metadata file. -/
structure Retained (δ : Type) where
  store : OutputStore
  outputMeta : OutputMeta δ

variable {δ : Type} [DecidableEq δ] (sha256 : Bytes → δ)

namespace OutputMeta

def startPartial (outputMeta : OutputMeta δ) : Bool :=
  match outputMeta.retainedStartPartial with
  | some startPartial => startPartial
  | none => 0 < outputMeta.retainedStart

def outputViewOf (outputMeta : OutputMeta δ) : OutputView :=
  let view : OutputView :=
    { total := outputMeta.totalBytes
      fileStart := outputMeta.retainedStart
      visibleStart := outputMeta.retainedStart
      visiblePartial := outputMeta.startPartial }
  match outputMeta.visibleStart with
  | none => view
  | some visibleStart =>
    if outputMeta.retainedStart < visibleStart ∧ visibleStart ≤ outputMeta.totalBytes then
      { view with
        visibleStart := visibleStart
        visiblePartial := outputMeta.visibleStartPartial.getD true }
    else view

/-- The metadata of an output file, `none` where they do not describe it. -/
def readOutputMetaRecord (outputMeta : Option (OutputMeta δ)) (file : Bytes) : Option (OutputMeta δ) :=
  match outputMeta with
  | none => some
      { totalBytes := file.length
        retainedStart := 0
        retainedStartPartial := none
        retainedSHA256 := none }
  | some outputMeta =>
    if outputMeta.totalBytes < outputMeta.retainedStart then none
    else
      let metaRetained := outputMeta.totalBytes - outputMeta.retainedStart
      if metaRetained < file.length then
        if outputMeta.retainedSHA256 ≠ some (sha256 (file.take metaRetained)) then none
        else
          some { outputMeta with
            totalBytes := outputMeta.retainedStart + file.length
            retainedSHA256 := some (sha256 file) }
      else if metaRetained ≠ file.length ∨ outputMeta.retainedSHA256 ≠ some (sha256 file) then none
      else some outputMeta

end OutputMeta

namespace OutputStore

/-- Twice the cap, as a 64-bit integer. -/
def compactAt (o : OutputStore) : Int := (2 * o.capBytes).bmod (2 ^ 64)

/-- The bytes that compaction would keep, before it drops a rune cut in two. -/
def rawTail (o : OutputStore) : Bytes := o.file.drop (o.file.length - o.capBytes.toNat)

/-- The byte before the kept ones; `none` where it cannot be read. -/
def prunedByte (o : OutputStore) : Option UInt8 :=
  let droppedLeading := o.rawTail.length - (trimLeadingPartial o.rawTail).length
  if 0 < droppedLeading then o.rawTail[droppedLeading - 1]?
  else if o.file.length ≤ o.rawTail.length then none
  else o.file[o.file.length - o.rawTail.length - 1]?

def pruneLocked (o : OutputStore) : Option OutputStore :=
  if o.capBytes ≤ 0 then some o
  else if o.file.length ≤ o.compactAt then
    some { o with retainedStart := o.total - o.file.length }
  else if o.file.length < o.capBytes.toNat then none
  else
    let tail := trimLeadingPartial o.rawTail
    let retainedStart := o.total - tail.length
    let startPartial :=
      if 0 < tail.length ∧ 0 < retainedStart then o.prunedByte.map fun previous => previous != newline
      else some false
    startPartial.map fun startPartial =>
      { o with
        file := tail
        retainedStart := retainedStart
        retainedStartPartial := startPartial
        retainedHash := tail }

/-- Nothing before the file's first byte is visible. -/
def clampVisible (o : OutputStore) : OutputStore :=
  if o.visibleStart ≤ o.retainedStart then
    { o with visibleStart := o.retainedStart, visiblePartial := o.retainedStartPartial }
  else o

def refreshVisibleLocked (o : OutputStore) : Option OutputStore :=
  let o := o.clampVisible
  if o.capBytes ≤ 0 ∨ (o.total : Int) - o.capBytes ≤ o.visibleStart then some o
  else
    let start := o.total - o.capBytes.toNat
    match (o.file.drop (start - o.retainedStart - 1)).take utfMax with
    | [] => none
    | previous :: rest =>
      let dropped := rest.length - (trimLeadingPartial rest).length
      let previous := if 0 < dropped then (rest[dropped - 1]?).getD previous else previous
      some { o with visibleStart := start + dropped, visiblePartial := previous != newline }

def outputMetaLocked (o : OutputStore) : OutputMeta δ :=
  { totalBytes := o.total
    retainedStart := o.retainedStart
    retainedStartPartial := some o.retainedStartPartial
    retainedSHA256 := some (sha256 o.retainedHash)
    visibleStart := if o.retainedStart < o.visibleStart then some o.visibleStart else none
    visibleStartPartial :=
      if o.retainedStart < o.visibleStart then some o.visiblePartial else none }

/-- Prune, move the visible start and write the metadata. -/
def settle (o : OutputStore) : Option (Retained δ) :=
  (o.pruneLocked >>= refreshVisibleLocked).map fun o => ⟨o, o.outputMetaLocked sha256⟩

/-- The store before it is pruned. -/
def appended (o : OutputStore) (b : Bytes) : OutputStore :=
  { o with
    file := o.file ++ b
    total := o.total + b.length
    retainedHash := o.retainedHash ++ b }

def append (o : OutputStore) (b : Bytes) : Option (Retained δ) := (o.appended b).settle sha256

/-- The store that the metadata describe, before it is pruned. -/
def described (file : Bytes) (outputMeta : OutputMeta δ) (capBytes : Int) : OutputStore :=
  { file := file
    capBytes := capBytes
    total := outputMeta.outputViewOf.total
    retainedStart := outputMeta.outputViewOf.fileStart
    retainedStartPartial := outputMeta.startPartial
    visibleStart := outputMeta.outputViewOf.visibleStart
    visiblePartial := outputMeta.outputViewOf.visiblePartial
    retainedHash := file }

def openOutput (file : Bytes) (outputMeta : Option (OutputMeta δ)) (capBytes : Int) :
    Option (Retained δ) :=
  OutputMeta.readOutputMetaRecord sha256 outputMeta file >>= fun outputMeta =>
    (described file outputMeta capBytes).settle sha256

end OutputStore

inductive OutputCall where
  | append (b : Bytes)
  | reopen (capBytes : Int)
deriving DecidableEq

/-- What a call makes of an open output; `none` where it does not succeed. -/
def Retained.next (r : Retained δ) : OutputCall → Option (Retained δ)
  | .append b => r.store.append sha256 b
  | .reopen capBytes => OutputStore.openOutput sha256 r.store.file (some r.outputMeta) capBytes

/-- Open a fresh path and make the calls. -/
def runOutput (capBytes : Int) (calls : List OutputCall) : Option (Retained δ) :=
  OutputStore.openOutput sha256 [] none capBytes >>= fun r => calls.foldlM (Retained.next sha256) r

/-- The bytes that a call adds to the stream. -/
def OutputCall.bytes : OutputCall → Bytes
  | .append b => b
  | .reopen _ => []

end Evener.Jobstore
