/-
  The store of the job journal: appends, the tail cursor over the log file, and the fold cache.

  The log file is its bytes and its modification time, and is never removed. `Disk` gives the
  outcome of every file system call by its number: whether it fails, how many bytes a write takes
  and which modification time a change leaves. `encoding/json` is the parameter `Codec`.
  `sc.Buffer` bounds a line at 8 MiB with its terminator. Deep copies do not show in values.
-/
import Evener.Lib.Lines
import Evener.Lib.Transaction
import Evener.Jobstore.Fold

namespace Evener.Jobstore

open Evener.Lib

/-! ## State -/

structure File where
  bytes : Bytes := []
  mtime : Int := 0

/-- What a stat shows of the file: its size and its modification time. -/
def File.stamp (file : File) : Nat × Int := (file.bytes.length, file.mtime)

structure FileCursor where
  events : List Event := []
  offset : Nat := 0
  lines : Nat := 0
  size : Nat := 0
  mod : Int := 0
  valid : Bool := false
  disabled : Bool := false

/-- The last fold of each kind, when there is one. -/
structure FoldCache where
  gen : Nat := 0
  jobs : Option JobRecords := none
  ordered : Option (List JobRecord) := none
  watches : Option WatchRecords := none
  sends : Option WatchSendRecord := none

structure Store where
  seq : Int := 0
  unusable : Bool := false
  closed : Bool := false
  foldGen : Nat := 0
  folds : FoldCache := {}
  disableSync : Bool := false
  cursor : FileCursor := {}

/-- The file, the store over it, and the number of file system calls made so far. -/
structure World where
  file : File := {}
  store : Store := {}
  calls : Nat := 0

inductive StoreError where
  | storeClosed
  | unusable
  | failed (operation : String)
  | shortWrite
  | parseEventLine (line : Nat)
  | lineTooLong
deriving DecidableEq

abbrev StoreTx := Tx World StoreError

/-- The outcomes of the file system's calls, by their number. -/
structure Disk where
  fails : Nat → Bool
  taken : Nat → Nat
  mtime : Nat → Int

/-- An error of `json.Unmarshal`; a syntax error has an offset. -/
structure DecodeError where
  message : String
  syntaxOffset : Option Nat

/-- `encoding/json` on the events of the journal. -/
structure Codec where
  marshal : Event → Option Bytes
  unmarshal : Bytes → Except DecodeError Event

/-! ## File system calls -/

section Calls

variable (disk : Disk)

/-- The number of the next call. -/
def nextCall : StoreTx Nat := do
  let w ← Tx.read
  Tx.write fun w => { w with calls := w.calls + 1 }
  return w.calls

/-- A call that changes nothing. -/
def call (operation : String) : StoreTx Unit := do
  if disk.fails (← nextCall) then Tx.abort (.failed operation) else return ()

def stat : StoreTx File := do
  call disk "stat"
  return (← Tx.read).file

/-- `Seek(0, io.SeekEnd)`: the file's size. -/
def seekEnd (operation : String) : StoreTx Nat := do
  call disk operation
  return (← Tx.read).file.bytes.length

def truncate (operation : String) (offset : Nat) : StoreTx Unit := do
  let n ← nextCall
  if disk.fails n then Tx.abort (.failed operation)
  else Tx.write fun w => { w with file := ⟨w.file.bytes.take offset, disk.mtime n⟩ }

/-- A body over an open file: a failing close is an error only when the body was none. -/
def closing {α : Type} (operation : String) (x : StoreTx α) : StoreTx α := do
  let result ← Tx.attempt x
  let closed ← Tx.attempt (call disk operation)
  match result, closed with
  | .ok a, .ok _ => return a
  | .ok _, .error e => Tx.abort e
  | .error e, _ => Tx.abort e

def syncLocked (operation : String) : StoreTx Unit := do
  if (← Tx.read).store.disableSync then return () else call disk operation

/-- The write loop, for lines of at most `fuel` bytes. -/
def writeLoop : Nat → Bytes → StoreTx Unit
  | 0, _ => return ()
  | fuel + 1, line =>
    if line.isEmpty then return ()
    else do
      let n ← nextCall
      let taken := min (disk.taken n) line.length
      Tx.write fun w => { w with file := ⟨w.file.bytes ++ line.take taken, disk.mtime n⟩ }
      if disk.fails n then Tx.abort (.failed "write")
      else if taken = 0 then Tx.abort .shortWrite
      else writeLoop fuel (line.drop taken)

def writeLineLocked (line : Bytes) : StoreTx Unit := writeLoop disk line.length line

end Calls

/-! ## The cursor -/

def ensureOpenLocked : StoreTx Unit := do
  let store := (← Tx.read).store
  if store.closed then Tx.abort .storeClosed
  else if store.unusable then Tx.abort .unusable
  else return ()

def modifyStore (f : Store → Store) : StoreTx Unit :=
  Tx.write fun w => { w with store := f w.store }

/-- A new generation; no cached fold survives it. -/
def Store.nextGen (s : Store) : Store :=
  { s with foldGen := s.foldGen + 1, folds := { gen := s.foldGen + 1 } }

def Store.resetCursor (s : Store) : Store :=
  { s with cursor := { disabled := s.cursor.disabled }, folds := {} }

def Store.invalidateCursor (s : Store) : Store :=
  { s with cursor := { s.cursor with valid := false } }.nextGen

def cursorTrustedLocked (cursor : FileCursor) (info : File) : Bool :=
  cursor.valid && !cursor.disabled && info.bytes.length = cursor.size && info.mtime = cursor.mod

section Cursor

variable (disk : Disk) (codec : Codec)

def verifyCursorBeforeAppendLocked : StoreTx Unit := do
  let cursor := (← Tx.read).store.cursor
  if cursor.valid then
    match ← Tx.attempt (stat disk) with
    | .ok info =>
      if cursorTrustedLocked cursor info then return () else modifyStore Store.invalidateCursor
    | .error _ => modifyStore Store.invalidateCursor
  else return ()

/-- The cursor after the store's own append, whose stat showed `info`. -/
def Store.noteAppended (s : Store) (startOffset endOffset : Nat) (info : File) : Store :=
  if info.bytes.length ≠ endOffset then { s with cursor := { s.cursor with valid := false } }
  else if endOffset ≠ startOffset && info.mtime = s.cursor.mod then
    { s with cursor := { s.cursor with disabled := true, valid := false } }
  else { s with cursor := { s.cursor with size := info.bytes.length, mod := info.mtime } }

def noteAppendedLocked (startOffset endOffset : Nat) : StoreTx Unit := do
  modifyStore Store.nextGen
  let cursor := (← Tx.read).store.cursor
  if !cursor.valid then return ()
  else if startOffset ≠ cursor.size then
    modifyStore fun s => { s with cursor := { s.cursor with valid := false } }
  else
    match ← Tx.attempt (stat disk) with
    | .error _ => modifyStore fun s => { s with cursor := { s.cursor with valid := false } }
    | .ok info => modifyStore fun s => s.noteAppended startOffset endOffset info

def rollbackAppendLocked (startOffset : Nat) : StoreTx Unit := do
  modifyStore Store.invalidateCursor
  let truncated ← Tx.attempt (truncate disk "truncate" startOffset)
  let sought ← Tx.attempt (seekEnd disk "seek eof")
  match truncated, sought with
  | .ok _, .ok _ => syncLocked disk "sync rollback truncate"
  | .error e, _ => Tx.abort e
  | .ok _, .error e => Tx.abort e

/-- A failed append: roll back, and give the store up when that fails. -/
def appendFailureLocked {α : Type} (operation : String) (startOffset : Nat) : StoreTx α := do
  match ← Tx.attempt (rollbackAppendLocked disk startOffset) with
  | .ok _ => Tx.abort (.failed operation)
  | .error _ =>
    modifyStore fun s => { s with unusable := true }
    Tx.abort (.failed operation)

/-! ## Appends -/

/-- Write one event's line, or roll the append back. -/
def writeEventLocked (startOffset : Nat) (line : Bytes) : StoreTx Unit := do
  match ← Tx.attempt (writeLineLocked disk line) with
  | .ok _ => return ()
  | .error _ => appendFailureLocked disk "write event" startOffset

/-- Sync what an append wrote and account for it. -/
def commitAppendLocked (nextSeq : Int) (startOffset endOffset : Nat) : StoreTx Unit := do
  match ← Tx.attempt (syncLocked disk "sync event") with
  | .error _ => appendFailureLocked disk "sync event" startOffset
  | .ok _ =>
    modifyStore fun s => { s with seq := nextSeq }
    noteAppendedLocked disk startOffset endOffset

def append (e : Event) : StoreTx Unit := do
  ensureOpenLocked
  verifyCursorBeforeAppendLocked disk
  let nextSeq := (← Tx.read).store.seq + 1
  match codec.marshal { e with seq := nextSeq } with
  | none => Tx.abort (.failed "marshal event")
  | some b =>
    let startOffset ← seekEnd disk "seek append start"
    writeEventLocked disk startOffset (b ++ [newline])
    commitAppendLocked disk nextSeq startOffset (startOffset + (b ++ [newline]).length)

/-- The events of a batch from `nextSeq` on, with the bytes written so far. -/
def writeBatch (startOffset : Nat) : List Event → Int → Nat → StoreTx (Int × Nat)
  | [], nextSeq, written => return (nextSeq, written)
  | e :: events, nextSeq, written => do
    match codec.marshal { e with seq := nextSeq + 1 } with
    | none => appendFailureLocked disk "marshal event" startOffset
    | some b =>
      writeEventLocked disk startOffset (b ++ [newline])
      writeBatch startOffset events (nextSeq + 1) (written + (b ++ [newline]).length)

def appendBatch (events : List Event) : StoreTx Unit := do
  if events.isEmpty then
    let store := (← Tx.read).store
    if store.closed then return ()
    else if store.unusable then Tx.abort .unusable
    else return ()
  else
    ensureOpenLocked
    verifyCursorBeforeAppendLocked disk
    let startOffset ← seekEnd disk "seek append start"
    let seq := (← Tx.read).store.seq
    let (nextSeq, written) ← writeBatch disk codec startOffset events seq 0
    commitAppendLocked disk nextSeq startOffset (startOffset + written)

/-! ## The trailing line -/

def isSpace (b : UInt8) : Bool := b = 32 || (9 ≤ b && b ≤ 13)

/-- `bytes.TrimSpace` on ASCII text. -/
def trimSpace (line : Bytes) : Bytes :=
  ((line.dropWhile isSpace).reverse.dropWhile isSpace).reverse

def containsText (text part : String) : Bool := decide (part.toList <:+: text.toList)

def isIncompleteTrailingJSON (line : Bytes) (err : DecodeError) : Bool :=
  let trimmed := trimSpace line
  if trimmed.isEmpty then false
  else if err.message = "unexpected end of JSON input" then true
  else if line.getLast?.any fun b => b = 32 || b = 9 || b = 13 || b = 10 then false
  else match err.syntaxOffset with
    | none => false
    | some offset =>
      if offset < line.length then false
      else if trimmed.getLast? = some 125 || trimmed.getLast? = some 93 then false
      else containsText err.message "literal" &&
        containsText err.message "invalid character ' '"

def finishTrailingJSONLineLocked : StoreTx Unit := do
  modifyStore Store.invalidateCursor
  let _ ← seekEnd disk "seek after trailing recovery"
  writeLineLocked disk [newline]
  syncLocked disk "sync trailing recovery"

def recoverTrailingJSONLineLocked (line : Bytes) (offset : Nat) : StoreTx Unit := do
  match codec.unmarshal line with
  | .ok _ => finishTrailingJSONLineLocked disk
  | .error err =>
    if isIncompleteTrailingJSON line err then
      modifyStore Store.invalidateCursor
      truncate disk "truncate trailing partial line" offset
      let _ ← seekEnd disk "seek after trailing recovery"
      syncLocked disk "sync trailing recovery"
    else return ()

def recoverTrailingPartialLineLocked : StoreTx Unit := do
  let info ← stat disk
  if info.bytes.isEmpty then return ()
  else
    call disk "inspect"
    closing disk "close" do
      call disk "inspect trailing byte"
      call disk "read trailing byte"
      if info.bytes.getLast? = some newline then return ()
      else
        call disk "read"
        let raw := (← Tx.read).file.bytes
        let line := (splitLines raw).2
        recoverTrailingJSONLineLocked disk codec line (raw.length - line.length)

/-! ## Reads -/

/-- The longest line `sc.Buffer` holds, with its terminator. -/
def maxLine : Nat := 8 * 1024 * 1024

/-- `trimLineTerminator` after its newline is gone: one carriage return goes too. -/
def trimCarriageReturn (line : Bytes) : Bytes :=
  if line.getLast? = some 13 then line.dropLast else line

/-- The event of a line, none when it is empty. -/
def decodeLine (line : Bytes) : Except DecodeError (List Event) :=
  let line := trimCarriageReturn line
  if line.isEmpty then .ok [] else (codec.unmarshal line).map ([·])

/-- Scan one terminated line into the cursor. -/
def scanLine (line : Bytes) : StoreTx Unit := do
  let cursor := (← Tx.read).store.cursor
  if maxLine < line.length + 1 then Tx.abort .lineTooLong
  else match decodeLine codec line with
    | .error _ => Tx.abort (.parseEventLine (cursor.lines + 1))
    | .ok events => modifyStore fun s =>
      { s with
        cursor := { s.cursor with
          lines := s.cursor.lines + 1
          offset := s.cursor.offset + (line.length + 1)
          events := s.cursor.events ++ events } }

/-- The event of an unterminated last line, which the cursor does not keep. -/
def scanTail (tail : Bytes) : StoreTx (List Event) := do
  let cursor := (← Tx.read).store.cursor
  if maxLine ≤ tail.length then Tx.abort .lineTooLong
  else match decodeLine codec tail with
    | .error _ => Tx.abort (.parseEventLine (cursor.lines + 1))
    | .ok events => return events

def advanceCursorLocked : StoreTx (List Event) := do
  call disk "read"
  closing disk "close" do
    let w ← Tx.read
    if 0 < w.store.cursor.offset then call disk "seek" else pure ()
    let (lines, tail) := splitLines (w.file.bytes.drop w.store.cursor.offset)
    Tx.each (scanLine codec) lines
    let events ← scanTail codec tail
    call disk "scan"
    return events

/-- What a load keeps of its stat. -/
def Store.noteRead (s : Store) (info : File) : Store :=
  { s with
    cursor := { s.cursor with size := info.bytes.length, mod := info.mtime, valid := true } }

/-- Read what the cursor has not accounted for, from its offset to the end of the file. -/
def rescanLocked : StoreTx (List Event) := do
  match ← Tx.attempt (advanceCursorLocked disk codec) with
  | .error e =>
    modifyStore Store.resetCursor
    Tx.abort e
  | .ok tail =>
    modifyStore Store.nextGen
    return tail

/-- A load over the cursor its stat left: the read is skipped only when the file is the very one
    already decoded to its end. -/
def readCursorLocked (info : File) (trusted : Bool) : StoreTx (List Event) := do
  let offset := (← Tx.read).store.cursor.offset
  let tail ← if !trusted || info.bytes.length ≠ offset then rescanLocked disk codec else pure []
  modifyStore fun s => s.noteRead info
  return (← Tx.read).store.cursor.events ++ tail

def readAllLocked : StoreTx (List Event) := do
  recoverTrailingPartialLineLocked disk codec
  match ← Tx.attempt (stat disk) with
  | .error e =>
    modifyStore Store.resetCursor
    Tx.abort e
  | .ok info =>
    if cursorTrustedLocked (← Tx.read).store.cursor info then readCursorLocked disk codec info true
    else
      modifyStore Store.resetCursor
      readCursorLocked disk codec info false

def openFs : StoreTx Unit := do
  let info ← stat disk
  if info.bytes.isEmpty then return ()
  else
    let existing ← readAllLocked disk codec
    modifyStore fun s => { s with seq := existing.foldl (fun seq e => max seq e.seq) s.seq }

/-! ## Loads -/

def foldCurrentLocked : StoreTx Bool := do
  let cursor := (← Tx.read).store.cursor
  if cursor.disabled then return false
  else
    let info ← stat disk
    return cursorTrustedLocked cursor info && info.bytes.length = cursor.offset

/-- One kind of fold: its function and its place in the cache. -/
structure FoldSlot (α : Type) where
  fold : List Event → α
  get : FoldCache → Option α
  set : α → FoldCache → FoldCache

/-- `Load` and its siblings: the cached fold when it is current, a fresh one otherwise. -/
def loadFold {α : Type} (slot : FoldSlot α) : StoreTx α := do
  ensureOpenLocked
  let store := (← Tx.read).store
  let hit ← match slot.get store.folds with
    | none => pure none
    | some folded =>
      if store.folds.gen ≠ store.foldGen then pure none
      else if ← foldCurrentLocked disk then pure (some folded)
      else pure none
  match hit with
  | some folded => return folded
  | none =>
    let folded := slot.fold (← readAllLocked disk codec)
    modifyStore fun s => { s with folds := slot.set folded { s.folds with gen := s.foldGen } }
    return folded

def jobsSlot : FoldSlot JobRecords where
  fold := fold
  get := FoldCache.jobs
  set folded folds := { folds with jobs := some folded }

def orderedSlot : FoldSlot (List JobRecord) where
  fold := foldOrdered
  get := FoldCache.ordered
  set folded folds := { folds with ordered := some folded }

def watchesSlot : FoldSlot WatchRecords where
  fold := foldWatches
  get := FoldCache.watches
  set folded folds := { folds with watches := some folded }

def sendsSlot : FoldSlot WatchSendRecord where
  fold := foldWatchSends
  get := FoldCache.sends
  set folded folds := { folds with sends := some folded }

def load : StoreTx JobRecords := loadFold disk codec jobsSlot

def loadOrdered : StoreTx (List JobRecord) := loadFold disk codec orderedSlot

def loadWatches : StoreTx WatchRecords := loadFold disk codec watchesSlot

def loadWatchSends : StoreTx WatchSendRecord := loadFold disk codec sendsSlot

def loadEvents : StoreTx (List Event) := do
  ensureOpenLocked
  readAllLocked disk codec

def checkRetirementReady : StoreTx Unit := do
  ensureOpenLocked
  modifyStore Store.resetCursor
  let _ ← readAllLocked disk codec

def close : StoreTx Unit := do
  if (← Tx.read).store.closed then Tx.abort .storeClosed
  else
    call disk "close"
    modifyStore fun s => { s with closed := true }.resetCursor

end Cursor

/-! ## Runs -/

inductive StoreOp where
  | append (e : Event)
  | appendBatch (events : List Event)
  | load
  | loadOrdered
  | loadWatches
  | loadWatchSends
  | loadEvents
  | checkRetirementReady
  | close

inductive StoreReply where
  | done
  | jobs (records : JobRecords)
  | ordered (records : List JobRecord)
  | watches (records : WatchRecords)
  | sends (record : WatchSendRecord)
  | events (events : List Event)

/-- A call of the store, or a write by anyone else. -/
inductive StoreStep where
  | call (op : StoreOp)
  | foreign (file : File)

section Runs

variable (disk : Disk) (codec : Codec)

def execStore : StoreOp → StoreTx StoreReply
  | .append e => do
    append disk codec e
    return .done
  | .appendBatch events => do
    appendBatch disk codec events
    return .done
  | .load => do return .jobs (← load disk codec)
  | .loadOrdered => do return .ordered (← loadOrdered disk codec)
  | .loadWatches => do return .watches (← loadWatches disk codec)
  | .loadWatchSends => do return .sends (← loadWatchSends disk codec)
  | .loadEvents => do return .events (← loadEvents disk codec)
  | .checkRetirementReady => do
    checkRetirementReady disk codec
    return .done
  | .close => do
    close disk
    return .done

def stepStore (w : World) : StoreStep → World
  | .call op => (execStore disk codec op w).2
  | .foreign file => { w with file := file }

def runStore (w : World) (steps : List StoreStep) : World := steps.foldl (stepStore disk codec) w

end Runs

end Evener.Jobstore
