/-
  The cache of remote rows: one snapshot, published whole, and a generation for every registered
  source. Rows of a source whose generation has moved since a walk read them are dropped.

  A slice or a map is `none` where the source's is nil.
-/
import Mathlib.Logic.Function.Basic
import Mathlib.Data.List.Infix
import Evener.Lib.KeyedList

namespace Evener.Hubcore

open Evener.Lib

variable {β : Type} [DecidableEq β]

/-! ## Rows and their sources -/

/-- A thread row: what names its source, and everything else it carries. -/
structure RemoteThread (β : Type) where
  source : String
  /-- `Evener.Ref` -/
  ref : String
  rest : β
  deriving DecidableEq

/-- One character of `refPartPattern`. -/
def refPartChar (c : Char) : Bool :=
  c.isAlphanum || c = '.' || c = '_' || c = '~' || c = '-'

def validRefPart (part : List Char) : Bool := !part.isEmpty && part.all refPartChar

/-- The source id of a ref that parses (`appwire.ParseRef`). -/
def parseRef (raw : String) : Option String :=
  match raw.toList.span (· ≠ ':') with
  | (_, []) => none
  | (sourceID, _ :: threadID) =>
    if !validRefPart sourceID || !validRefPart threadID then none
    else if ['.', '.'] <:+: threadID then none
    else some (String.ofList sourceID)

/-- `none` when neither the row nor its ref names a source. -/
def remoteThreadSourceID (thread : RemoteThread β) : Option String :=
  if thread.source ≠ "" then some thread.source else parseRef thread.ref

def remoteThreadSourceStale (thread : RemoteThread β) (sourceStale : String → Bool) : Bool :=
  match remoteThreadSourceID thread with
  | none => false
  | some sourceID => sourceStale sourceID

def remoteThreadOwnedBySource (thread : RemoteThread β) (sourceID : String) : Bool :=
  match remoteThreadSourceID thread with
  | none => false
  | some owner => owner = sourceID

/-! ## Snapshots -/

structure RemoteSourceSnapshot (β : Type) where
  threads : Option (List (RemoteThread β))
  complete : Bool
  incompleteIDs : Option (List String)
  tombstoned : Bool
  rowsTruncated : Bool
  deriving DecidableEq

abbrev RemoteSources (β : Type) := List (String × RemoteSourceSnapshot β)

structure RemoteThreadSnapshot (β : Type) where
  threads : Option (List (RemoteThread β))
  complete : Bool
  sources : Option (RemoteSources β)
  generation : Nat
  deriving DecidableEq

def RemoteSourceSnapshot.normalize (source : RemoteSourceSnapshot β) : RemoteSourceSnapshot β :=
  { source with
    threads := some (source.threads.getD [])
    incompleteIDs := some (source.incompleteIDs.getD []) }

def normalizeSources (sources : RemoteSources β) : RemoteSources β :=
  sources.map (Prod.map id RemoteSourceSnapshot.normalize)

def normalizeRemoteThreadSnapshot (snapshot : RemoteThreadSnapshot β) : RemoteThreadSnapshot β :=
  { snapshot with
    threads := some (snapshot.threads.getD [])
    sources := some (normalizeSources (snapshot.sources.getD [])) }

/-- `append([]string(nil), ids...)`: an empty slice comes back nil. -/
def cloneIDs (ids : Option (List String)) : Option (List String) :=
  if ids.getD [] = [] then none else ids

def RemoteSourceSnapshot.clone (source : RemoteSourceSnapshot β) : RemoteSourceSnapshot β :=
  { source with incompleteIDs := cloneIDs source.incompleteIDs }

def cloneRemoteThreadSnapshot (snapshot : RemoteThreadSnapshot β) : RemoteThreadSnapshot β :=
  { snapshot with
    sources := snapshot.sources.map (·.map (Prod.map id RemoteSourceSnapshot.clone)) }

/-- `reflect.DeepEqual` of two maps: the same value under every key that either holds. -/
def sameSources (a b : RemoteSources β) : Bool :=
  ((a ++ b).map Prod.fst).all fun id => lookup Prod.fst id a = lookup Prod.fst id b

/-! ## The cache -/

structure RemoteThreadCache (β : Type) where
  snapshot : RemoteThreadSnapshot β
  generations : String → Option Nat
  nextGeneration : Nat

namespace RemoteThreadCache

def empty : RemoteThreadCache β where
  snapshot := { threads := none, complete := false, sources := none, generation := 0 }
  generations := fun _ => none
  nextGeneration := 0

def registerSource (c : RemoteThreadCache β) (sourceID : String) : RemoteThreadCache β :=
  if sourceID = "" then c
  else
    { c with
      nextGeneration := c.nextGeneration + 1
      generations := Function.update c.generations sourceID (some (c.nextGeneration + 1)) }

def sourceGeneration (c : RemoteThreadCache β) (sourceID : String) : Option Nat :=
  c.generations sourceID

/-- `normalizeRemoteThreadSnapshot` writes through the map of the snapshot that the cache
holds, also when nothing is published. -/
def settled (c : RemoteThreadCache β) : RemoteThreadCache β :=
  { c with snapshot := { c.snapshot with sources := c.snapshot.sources.map normalizeSources } }

def tombstonedIn (sources : Option (RemoteSources β)) (sourceID : String) : Bool :=
  ((lookup Prod.fst sourceID (sources.getD [])).map (·.2.tombstoned)).getD false

/-- The closure `sourceStale` of `withoutStaleSources`. -/
def sourceStale (c : RemoteThreadCache β) (sources : Option (RemoteSources β))
    (captured : String → Option Nat) (sourceID : String) : Bool :=
  if tombstonedIn sources sourceID then
    -- owned by the tombstone until the name registers again
    (c.generations sourceID).isSome
  else
    match captured sourceID with
    | none => true
    -- a missing entry reads as zero
    | some generation => (c.generations sourceID).getD 0 ≠ generation

def withoutStaleSources (c : RemoteThreadCache β) (snapshot : RemoteThreadSnapshot β)
    (captured : Option (String → Option Nat)) : RemoteThreadSnapshot β :=
  match captured with
  | none => snapshot
  | some captured =>
    { snapshot with
      threads := some ((snapshot.threads.getD []).filter fun thread =>
        !remoteThreadSourceStale thread (c.sourceStale snapshot.sources captured))
      sources := snapshot.sources.map fun sources =>
        sources.filter fun entry => !c.sourceStale snapshot.sources captured entry.1 }

def publish (c : RemoteThreadCache β) (snapshot : RemoteThreadSnapshot β)
    (captured : Option (String → Option Nat)) : RemoteThreadCache β :=
  let snapshot := normalizeRemoteThreadSnapshot (c.withoutStaleSources snapshot captured)
  let previous := normalizeRemoteThreadSnapshot c.snapshot
  if previous.threads = snapshot.threads ∧ previous.complete = snapshot.complete ∧
      sameSources (previous.sources.getD []) (snapshot.sources.getD []) then
    c.settled
  else
    { c with
      snapshot := cloneRemoteThreadSnapshot
        { snapshot with generation := c.snapshot.generation + 1 } }

def storeWalkSnapshot (c : RemoteThreadCache β) (snapshot : RemoteThreadSnapshot β)
    (sourceGenerations : String → Option Nat) : RemoteThreadCache β :=
  c.publish snapshot (some sourceGenerations)

def removeSource (c : RemoteThreadCache β) (sourceID : String) : RemoteThreadCache β :=
  if sourceID = "" then c
  else
    let c := { c with generations := Function.update c.generations sourceID none }
    let previous := normalizeRemoteThreadSnapshot c.snapshot
    let rows := previous.threads.getD []
    let sources := previous.sources.getD []
    let threads := rows.filter fun thread => !remoteThreadOwnedBySource thread sourceID
    if lookup Prod.fst sourceID sources = none ∧ threads.length = rows.length then c.settled
    else
      { c with
        snapshot := cloneRemoteThreadSnapshot
          { threads := some threads
            complete := previous.complete
            sources := some (erase Prod.fst sourceID sources)
            generation := c.snapshot.generation + 1 } }

end RemoteThreadCache

end Evener.Hubcore
