/-
  The delegate store: a log of batches, one line each, under a version header.

  `Disk` gives the outcome of every file system call by its number. A volume is the bytes a read
  sees and what a crash can leave: the bytes settled by a sync and any prefix of the last record.
  `encoding/json` is the parameter `Codec`. Nobody else writes the file.
-/
import Evener.Delegatestore.Apply
import Evener.Lib.Transaction

namespace Evener.Delegatestore

open Evener.Lib

/-! ## State -/

structure Volume where
  file : Bytes := []
  settled : Bytes := []
  loose : Bytes := []

/-- `Store` has one file, whose path is fixed. -/
structure Store where
  seq : Nat := 0
  unusable : Option Failure := none
  closed : Bool := false

/-- The volume, the store over it, and the number of file system calls made so far. -/
structure World where
  volume : Volume := {}
  store : Store := {}
  calls : Nat := 0

abbrev StoreTx := Tx World Failure

structure Disk where
  fails : Nat → Option Failure
  taken : Nat → Nat

/-- `encoding/json` on a version record and on a batch record. -/
structure Codec where
  marshalVersion : Int → Except Failure Bytes
  decodeVersion : Bytes → Except Failure Int
  marshalBatch : List Event → Except Failure Bytes
  decodeBatch : Bytes → Except Failure (List Event)

def currentVersion : Int := 1

/-! ## File system calls -/

section Calls

variable (disk : Disk)

def nextCall : StoreTx Nat := do
  let w ← Tx.read
  Tx.write fun w => { w with calls := w.calls + 1 }
  return w.calls

/-- The outcome of call `n`, its error wrapped in `format`. -/
def outcome (n : Nat) (format : String) : StoreTx Unit :=
  match disk.fails n with
  | some err => Tx.abort (.errorf format [] (some err))
  | none => return ()

/-- A call that changes nothing. -/
def call (format : String) : StoreTx Unit := do
  outcome disk (← nextCall) format

/-- A write at the end of the file; it may take a part of `data`, and then it has failed. -/
def writeFile (format : String) (data : Bytes) : StoreTx Unit := do
  let n ← nextCall
  let taken := data.take (disk.taken n)
  Tx.write fun w => { w with volume := ⟨w.volume.file ++ taken, w.volume.file, taken⟩ }
  outcome disk n format
  if taken.length ≠ data.length then
    Tx.abort (.errorf format [] (some (.errorf "short write" [] none)))
  else return ()

def syncFile (format : String) : StoreTx Unit := do
  outcome disk (← nextCall) format
  Tx.write fun w => { w with volume := ⟨w.volume.file, w.volume.file, []⟩ }

def truncateFile (format : String) (offset : Nat) : StoreTx Unit := do
  outcome disk (← nextCall) format
  Tx.write fun w => { w with volume := { w.volume with file := w.volume.file.take offset } }

end Calls

/-! ## Decoding -/

def decodeBatches (codec : Codec) : Nat → List Bytes → Except Failure (List Event)
  | _, [] => .ok []
  | i, line :: lines => do
    let batch ← wrapping "delegatestore: decode batch line %d: %w" [toString (i + 2)]
      (codec.decodeBatch line)
    failIf (batch = []) "delegatestore: batch line %d has no events" [toString (i + 2)]
    return batch ++ (← decodeBatches codec (i + 1) lines)

/-- `decodeLog` on a whole log, which ends with a newline. -/
def decodeLog (codec : Codec) (raw : Bytes) : Except Failure (List Event) := do
  failIf (raw = []) "delegatestore: missing version header"
  failIf (raw.getLast? ≠ some newline) "delegatestore: unterminated trailing batch"
  match (splitLines raw).1 with
  | [] => fail "delegatestore: missing version header"
  | header :: lines =>
    let version ← wrapping "delegatestore: decode version header: %w" []
      (codec.decodeVersion header)
    failIf (version ≠ currentVersion) "delegatestore: unsupported version %d" [toString version]
    decodeBatches codec 0 lines

/-! ## Open -/

section Store

variable (disk : Disk) (codec : Codec) (json : Json)

/-- A pure check inside a body. -/
def check {α : Type} (x : Except Failure α) : StoreTx α :=
  match x with
  | .ok a => return a
  | .error err => Tx.abort err

def modifyStore (f : Store → Store) : StoreTx Unit :=
  Tx.write fun w => { w with store := f w.store }

def writeVersionHeader : StoreTx Unit := do
  let header ← check (wrapping "delegatestore: marshal version header: %w" []
    (codec.marshalVersion currentVersion))
  writeFile disk "delegatestore: write version header: %w" (header ++ [newline])
  syncFile disk "delegatestore: sync version header: %w"

/-- The checks of a log that is there, and the cut of its unterminated tail. -/
def recoverLog (committed : Bytes) (torn : Bool) : StoreTx Unit := do
  let events ← check (decodeLog codec committed)
  let _ ← check (wrapping "delegatestore: fold: %w" [] (fold json events))
  if torn then
    truncateFile disk "delegatestore: truncate unterminated trailing batch: %w" committed.length
    syncFile disk "delegatestore: sync trailing-batch recovery: %w"
  else pure ()
  call disk "delegatestore: seek end: %w"
  match events.getLast? with
  | some event => modifyStore fun s => { s with seq := event.seq }
  | none => return ()

def initializeOrRecover : StoreTx Unit := do
  call disk "delegatestore: stat %s: %w"
  if (← Tx.read).volume.file = [] then writeVersionHeader disk codec
  else do
    call disk "delegatestore: read %s: %w"
    let raw := (← Tx.read).volume.file
    if raw.getLast? ≠ some newline then
      match (splitLines raw).1 with
      | [] => do
        truncateFile disk "delegatestore: truncate torn version header: %w" 0
        writeVersionHeader disk codec
      | lines => recoverLog disk codec json (joinLines lines) true
    else recoverLog disk codec json raw false

/-- `Open`, on a path that is not empty. -/
def openStore : StoreTx Unit := do
  call disk "delegatestore: create parent directory: %w"
  call disk "delegatestore: open %s: %w"
  initializeOrRecover disk codec json

/-! ## Append -/

def ensureUsableLocked : StoreTx Unit := do
  let store := (← Tx.read).store
  if store.closed then Tx.abort (.errorf "delegatestore: store is closed" [] none)
  else
    match store.unusable with
    | some err => Tx.abort (.errorf "delegatestore: store is unusable after failed rollback: %w" []
        (some err))
    | none => return ()

/-- `errors.Join`: the second error behind the causes of the first. -/
def joined : Failure → Failure → Failure
  | .errorf format args none, err => .errorf format args (some err)
  | .errorf format args (some cause), err => .errorf format args (some (joined cause err))

def latchRollbackFailureLocked {α : Type} (operationErr rollbackErr : Failure) : StoreTx α := do
  let combined := joined operationErr rollbackErr
  modifyStore fun s => { s with unusable := some combined }
  Tx.abort (.errorf "delegatestore: append failed and rollback failed: %w" [] (some combined))

/-- The failed operation's error, after the log is cut back to `offset`. -/
def rollbackLocked {α : Type} (offset : Nat) (operationErr : Failure) : StoreTx α := do
  let rolledBack ← Tx.attempt do
    truncateFile disk "delegatestore: rollback truncate: %w" offset
    call disk "delegatestore: rollback seek: %w"
    syncFile disk "delegatestore: rollback sync: %w"
  match rolledBack with
  | .ok _ => Tx.abort operationErr
  | .error rollbackErr => latchRollbackFailureLocked operationErr rollbackErr

/-- `cloneEvent`: only a created descriptor does not read as before. -/
def cloneEvent (event : Event) : Event :=
  { event with
    created := event.created.map fun payload => ⟨cloneDescriptor payload.descriptor⟩ }

def cloneState (state : State) : State := rewrite (fun _ aggregate => cloneAggregate aggregate) state

/-- The batch with the numbers that follow `seq`. -/
def assign (seq : Nat) (events : List Event) : List Event :=
  events.zipIdx.map fun entry => { cloneEvent entry.1 with seq := seq + entry.2 + 1 }

/-- The preflight: every event applied to the clone of the supplied state. -/
def preflight (accepted : State) (assigned : List Event) : Except Failure State :=
  assigned.foldlM (fun accepted event =>
    match apply json accepted event with
    | (accepted, none) => .ok accepted
    | (_, some err) =>
      .error (.errorf "delegatestore: preflight event %d: %w" [toString event.seq] (some err)))
    accepted

/-- The record of a batch, with the state it leads to. -/
def prepare (seq : Nat) (state : State) (events : List Event) :
    Except Failure (List Event × State × Bytes) := do
  let assigned := assign seq events
  let accepted ← preflight json (cloneState state) assigned
  let record ← wrapping "delegatestore: marshal batch: %w" [] (codec.marshalBatch assigned)
  return (assigned, accepted, record ++ [newline])

/-- Write and sync a record, or roll the log back. -/
def appendRecord (record : Bytes) : StoreTx Unit := do
  call disk "delegatestore: seek append start: %w"
  let offset := (← Tx.read).volume.file.length
  match ← Tx.attempt (writeFile disk "delegatestore: write batch: %w" record) with
  | .error err => rollbackLocked disk offset err
  | .ok _ =>
    match ← Tx.attempt (syncFile disk "delegatestore: sync batch: %w") with
    | .error err => rollbackLocked disk offset err
    | .ok _ => return ()

def appendBatch (state : State) (events : List Event) : StoreTx (List Event × State) := do
  ensureUsableLocked
  if events = [] then return ([], cloneState state)
  else do
    let seq := (← Tx.read).store.seq
    let (assigned, accepted, record) ← check (prepare codec json seq state events)
    appendRecord disk record
    modifyStore fun s => { s with seq := s.seq + assigned.length }
    return (assigned, accepted)

def close : StoreTx Unit := do
  if (← Tx.read).store.closed then return ()
  else do
    modifyStore fun s => { s with closed := true }
    call disk "delegatestore: close %s: %w"

end Store

end Evener.Delegatestore
