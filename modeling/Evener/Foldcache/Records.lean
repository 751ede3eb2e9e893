/-
  The data of the fold cache: files as a stat and a read see them, the cached entries in
  recency order, and the staleness record of a path, which outlives its entry.
-/
import Mathlib.Logic.Function.Basic
import Evener.Lib.Lines

namespace Evener.Foldcache

open Evener.Lib

/-! ## Files -/

structure FileInfo where
  size : Nat
  modTime : Int
deriving DecidableEq

structure File where
  bytes : Bytes
  modTime : Int
deriving DecidableEq

def File.info (file : File) : FileInfo := ⟨file.bytes.length, file.modTime⟩

inductive Failure where
  | canceled
  | notExist
  | eof
  | unexpectedEOF
  | errno (text : String)
deriving DecidableEq

/-- What the operating system refuses, by the number of the call: `call` for a stat, an open
    and a buffered read, `readAt` for the read of a tail probe. -/
structure Disk where
  call : Nat → Option String
  readAt : Nat → Option String

/-- `Extend`: from the file at a path, an offset and the fold of what is before it. -/
abbrev Extend (T : Type) := String → Option Bytes → Nat → T → Except Failure (T × Nat)

/-! ## The cache -/

structure Result (T : Type) where
  value : T
  offset : Nat := 0
  absent : Bool := false
  epoch : Nat := 0
deriving DecidableEq

def tailProbeBytes : Nat := 64

structure EpochState where
  size : Nat := 0
  mod : Int := 0
  offset : Nat := 0
  tail : Bytes := []
  epoch : Nat := 0
  absent : Bool := false
deriving DecidableEq

/-- An entry; `element` tells the list elements apart. -/
structure Entry (T : Type) where
  path : String
  value : T
  offset : Nat
  valid : Bool
  element : Nat := 0

/-- `order` holds the entries, the most recently used first; `elements` is the next fresh
    list element. -/
structure Cache (T : Type) where
  order : List (Entry T) := []
  epochStates : String → Option EpochState := fun _ => none
  elements : Nat := 0

variable {T : Type}

/-- `c.entries[path]`. -/
def Cache.entry (cache : Cache T) (path : String) : Option (Entry T) :=
  cache.order.find? fun e => e.path == path

def Cache.moveToFront (cache : Cache T) (entry : Entry T) : Cache T :=
  { cache with order := entry :: cache.order.filter fun e => e.path != entry.path }

/-- Write over the entry of the path in place, or make room and add one. -/
def Cache.publishLocked (maxEntries : Int) (entry : Entry T) (cache : Cache T) : Cache T :=
  match cache.entry entry.path with
  | some old => cache.moveToFront { entry with element := old.element }
  | none =>
    { cache with
      -- the oldest go until fewer than `maxEntries` are left
      order := { entry with element := cache.elements } :: cache.order.take (maxEntries - 1).toNat
      elements := cache.elements + 1 }

/-- Forget the entry of a missing path and leave a tombstone; the first look at an absence
    advances the generation. -/
def Cache.drop (path : String) (cache : Cache T) : Nat × Cache T :=
  let kept := { cache with order := cache.order.filter fun e => e.path != path }
  match cache.epochStates path with
  | none => (0, kept)
  | some st =>
    if st.absent then (st.epoch, kept)
    else
      (st.epoch + 1, { kept with
        epochStates := Function.update cache.epochStates path
          (some { epoch := st.epoch + 1, absent := true }) })

/-- Everything the calls share: the files, the number of system calls made, the cache. -/
structure World (T : Type) where
  files : String → Option File
  calls : Nat := 0
  cache : Cache T := {}

/-! ## Tail probes -/

/-- The last bytes before an offset, as a probe records them. -/
def tailBefore (offset : Nat) (bytes : Bytes) : Bytes :=
  (bytes.take offset).drop (offset - tailProbeBytes)

end Evener.Foldcache
