/-
  `Cache.Get`, as programs of atomic steps: each look at a file, each `extend` and each section
  under the cache's lock is one step.

  `front` is what a call does before it joins a flight, and `refresh` is the body of the flight.
-/
import Evener.Lib.Interleaving
import Evener.Foldcache.Records

namespace Evener.Foldcache

open Evener.Lib Evener.Lib.Prog

variable {T : Type} (disk : Disk) (maxEntries : Int) (zero : T) (extend : Extend T)

abbrev Body (T α : Type) := Tx (World T) Failure α

abbrev Program (T α : Type) := Prog (World T) Failure α

/-! ## Looking at files -/

/-- One system call, which the operating system may refuse. -/
def call : Body T Unit := fun w =>
  match disk.call w.calls with
  | some text => (.error (.errno text), { w with calls := w.calls + 1 })
  | none => (.ok (), { w with calls := w.calls + 1 })

def fileAt (path : String) : Body T (Option File) := do
  let w ← Tx.read
  return w.files path

def statFile (path : String) : Body T FileInfo := do
  call disk
  match ← fileAt path with
  | none => Tx.abort .notExist
  | some file => return file.info

/-- `f.ReadAt` of `n` bytes, which fails on a shorter file. -/
def readAt (bytes : Bytes) (start n : Nat) : Body T (Option Bytes) := fun w =>
  let got := (bytes.drop start).take n
  (.ok (if got.length = n ∧ disk.readAt w.calls = none then some got else none),
    { w with calls := w.calls + 1 })

/-- Whether the recorded bytes are still where they were, and what the handle's `Stat` says. -/
def probeTailFromHandle (path : String) (offset : Nat) (want : Bytes) :
    Body T (Bool × Option FileInfo) := do
  call disk
  match ← fileAt path with
  | none => return (false, none)
  | some file =>
    call disk
    if want = [] then return (true, some file.info)
    else if offset < want.length then return (false, some file.info)
    else
      let got ← readAt disk file.bytes (offset - want.length) want.length
      -- a read that fails is taken for a file that is too short
      return (decide (got = some want), some file.info)

def tailProbeMatches (path : String) (offset : Nat) (want : Bytes) : Program T Bool :=
  if want.isEmpty then pure true
  else do
    let (isMatch, _) ← atomic (probeTailFromHandle disk path offset want)
    return isMatch

/-- `io.ReadFull` of the bytes from `start` to `offset`. -/
def readFull (bytes : Bytes) (start offset : Nat) : Body T Bytes :=
  let got := (bytes.drop start).take (offset - start)
  if got.length = offset - start then return got
  else if got = [] then Tx.abort .eof
  else Tx.abort .unexpectedEOF

def readTail (path : String) (offset : Nat) : Body T Bytes := do
  call disk
  match ← fileAt path with
  | none => return []
  | some file =>
    -- the seek and the read
    call disk
    call disk
    readFull file.bytes (offset - tailProbeBytes) offset

def captureTailProbe (path : String) (offset : Nat) : Program T Bytes :=
  if offset = 0 then pure [] else atomic (readTail disk path offset)

def runExtend (path : String) (fromOffset : Nat) (prior : T) : Body T (T × Nat) := do
  call disk
  let w ← Tx.read
  match extend path ((w.files path).map File.bytes) fromOffset prior with
  | .error e => Tx.abort e
  | .ok folded => return folded

/-! ## The flight -/

/-- What the comparisons settle: the cached fold, or where to fold from. -/
inductive Verdict (T : Type) where
  | hit (result : Result T)
  | fold (epoch fromOffset : Nat) (prior : T)

/-- The cached fold, where it is the one the recorded state describes. -/
def resident (st : EpochState) (entry : Option (Entry T)) : Option (Entry T) :=
  entry.filter fun e => e.valid && e.offset == st.offset

def sameSizeAmbiguous (path : String) (info : FileInfo) (st : EpochState)
    (entry : Option (Entry T)) : Program T (Verdict T) := do
  let (isMatch, probed) ← atomic (probeTailFromHandle disk path st.offset st.tail)
  if isMatch = false then return .fold (st.epoch + 1) 0 zero
  else if st.mod = info.modTime ∧ probed = some ⟨st.size, st.mod⟩ then
    match resident st entry with
    | some e => return .hit { value := e.value, offset := e.offset, epoch := st.epoch }
    | none => return .fold st.epoch 0 zero
  else
    -- a torn stat or a rewrite of the same length: a second stat tells
    let fresh ← atomic (statFile disk path)
    if fresh.size ≤ st.size then return .fold (st.epoch + 1) 0 zero
    else
      let regrown ← tailProbeMatches disk path st.offset st.tail
      return .fold (if regrown then st.epoch else st.epoch + 1) 0 zero

def growth (path : String) (info : FileInfo) (st : EpochState) (entry : Option (Entry T)) :
    Program T (Verdict T) := do
  if st.mod = info.modTime then
    -- growth that did not move the mtime is never resumed
    let isMatch ← tailProbeMatches disk path st.offset st.tail
    return .fold (if isMatch then st.epoch else st.epoch + 1) 0 zero
  else
    let isMatch ← tailProbeMatches disk path st.offset st.tail
    if isMatch = false then return .fold (st.epoch + 1) 0 zero
    else
      match resident st entry with
      | some e => return .fold st.epoch e.offset e.value
      | none => return .fold st.epoch 0 zero

def compare (path : String) (info : FileInfo) (st : Option EpochState) (entry : Option (Entry T)) :
    Program T (Verdict T) :=
  match st with
  | none => pure (.fold 0 0 zero)
  | some st =>
    if st.absent then pure (.fold st.epoch 0 zero)
    else if info.size < st.size then pure (.fold (st.epoch + 1) 0 zero)
    else if info.size = st.size then sameSizeAmbiguous disk zero path info st entry
    else growth disk zero path info st entry

/-- The mtime that goes with the recorded size: the stat's, unless the fold read past it. -/
def recordedMod (path : String) (info : FileInfo) (offset : Nat) : Program T Int :=
  if info.size < offset then do
    let fresh ← atomic (statFile disk path)
    return fresh.modTime
  else pure info.modTime

def publish (path : String) (st : EpochState) (value : T) : Body T Unit :=
  Tx.write fun w => { w with
    cache := Cache.publishLocked maxEntries
      { path := path, value := value, offset := st.offset, valid := true }
      { w.cache with epochStates := Function.update w.cache.epochStates path (some st) } }

def foldFrom (path : String) (info : FileInfo) (epoch fromOffset : Nat) (prior : T) :
    Program T (Result T) := do
  let (value, offset) ← atomic (runExtend disk extend path fromOffset prior)
  let tail ← captureTailProbe disk path offset
  let mod ← recordedMod disk path info offset
  atomic (publish maxEntries path
    { size := max info.size offset, mod := mod, offset := offset, tail := tail, epoch := epoch } value)
  return { value := value, offset := offset, epoch := epoch }

/-- What is recorded for a path. -/
def recorded (path : String) : Body T (Option EpochState × Option (Entry T)) := do
  let w ← Tx.read
  return (w.cache.epochStates path, w.cache.entry path)

def refresh (path : String) (info : FileInfo) : Program T (Result T) := do
  let (st, entry) ← atomic (recorded path)
  match ← compare disk zero path info st entry with
  | .hit result => return result
  | .fold epoch fromOffset prior =>
    foldFrom disk maxEntries extend path info epoch fromOffset prior

/-! ## The call -/

/-- The entry and the state, where neither the size nor the mtime disagrees. -/
def candidate (path : String) (info : FileInfo) : Body T (Option (Entry T × EpochState)) := do
  let (st, entry) ← recorded path
  match entry, st with
  | some e, some st =>
    if e.valid = false ∨ st.size ≠ info.size ∨ st.mod ≠ info.modTime then return none
    else return some (e, st)
  | _, _ => return none

/-- Whether the entry is still the live one, which then becomes the most recently used. -/
def reverify (path : String) (element : Nat) : Body T Bool := do
  let w ← Tx.read
  match w.cache.entry path with
  | some e =>
    if e.element = element then
      Tx.write fun w => { w with cache := w.cache.moveToFront e }
      return true
    else return false
  | none => return false

def tryFastHit (path : String) (info : FileInfo) : Program T (Option (Result T)) := do
  match ← atomic (candidate path info) with
  | none => return none
  | some (e, st) =>
    let (isMatch, probed) ← atomic (probeTailFromHandle disk path e.offset st.tail)
    if isMatch = false ∨ probed ≠ some ⟨st.size, st.mod⟩ then return none
    else
      let live ← atomic (reverify path e.element)
      return if live then some { value := e.value, offset := e.offset, epoch := st.epoch } else none

def readUncached (path : String) : Program T (Result T) := do
  match ← atomic (Tx.attempt (statFile disk path)) with
  | .error .notExist => return { value := zero, absent := true }
  | .error e => raise e
  | .ok _ =>
    let (value, offset) ← atomic (runExtend disk extend path 0 zero)
    return { value := value, offset := offset }

def drop (path : String) : Body T Nat := do
  let w ← Tx.read
  Tx.write fun w => { w with cache := (w.cache.drop path).2 }
  return (w.cache.drop path).1

/-- What a call comes to by itself: its answer, or the stat it joins a flight with. -/
inductive Arrival (T : Type) where
  | answer (result : Result T)
  | join (info : FileInfo)

def front (canceled : Bool) (path : String) : Program T (Arrival T) := do
  if canceled then raise .canceled
  else if maxEntries ≤ 0 then
    let result ← readUncached disk zero extend path
    return .answer result
  else
    match ← atomic (Tx.attempt (statFile disk path)) with
    | .error .notExist =>
      let epoch ← atomic (drop path)
      return .answer { value := zero, absent := true, epoch := epoch }
    | .error e => raise e
    | .ok info =>
      match ← tryFastHit disk path info with
      | some result => return .answer result
      | none => return .join info

/-- A call with no other call in between: it owns the flight that it joins. -/
def get (canceled : Bool) (path : String) : Program T (Result T) := do
  match ← front disk maxEntries zero extend canceled path with
  | .answer result => return result
  | .join info => refresh disk maxEntries zero extend path info

end Evener.Foldcache
