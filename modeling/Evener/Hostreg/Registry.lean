/-
  The registry of remote hosts: the identity of a host, reserved by a stamp or minted by the call
  that lands it, and the upstream edges that the cycle check walks.
-/
import Evener.Lib.CheckedFold
import Evener.Lib.KeyedList
import Evener.Lib.DepthFirst
import Evener.Lib.Text
import Mathlib.Logic.Function.Basic

namespace Evener.Hostreg

open Evener.Lib

structure Host where
  name : String
  ssh : String
  user : String := ""
  evenerPath : String := ""
  configPath : String := ""
  addr : String := ""
  roots : List String := []
  keyPath : String := ""
  generation : UInt64 := 0
  incarnationID : String := ""
  presenceEpoch : UInt64 := 0
deriving DecidableEq

structure Identity where
  generation : UInt64
  incarnationID : String
  presenceEpoch : UInt64
deriving DecidableEq

/-- The first three are `ErrInvalidName`. -/
inductive RegistryError where
  | invalidName (name : String)
  | notUsable (name : String)
  | containsDots (name : String)
  | reservedName (name : String)
  | missingSSH (name : String)
  | ambiguousSSHUser (name ssh : String)
  | emptyRoot (name : String)
  | invalidKeyPath (name keyPath : String)
  | duplicateHost (name : String)
  | unknownHost (name : String)
  | hostCycle (candidate : String)
  | staleStamp (generation : UInt64) (name : String) (live : UInt64)
  | generationExhausted
  | presenceExhausted (name : String)
  | mintIncarnationID
deriving DecidableEq

structure HighWater where
  generation : UInt64
  presenceEpoch : UInt64
deriving DecidableEq

structure Registry where
  hosts : String → Option Host := fun _ => none
  edges : List (String × List String) := []
  gen : UInt64 := 0
  presence : String → UInt64 := fun _ => 0
  pending : String → Option Identity := fun _ => none

/-! ## Entries -/

def reservedName : String := "local"

def validRefPart (s : String) : Bool :=
  !s.toList.isEmpty && s.toList.all fun c => c.isAlphanum || ['.', '_', '~', '-'].contains c

def validateName (name : String) : Except RegistryError Unit :=
  if name = "" then .error (.invalidName name)
  else if name = reservedName then .error (.reservedName name)
  else if validRefPart name = false then .error (.invalidName name)
  else if name = "." then .error (.notUsable name)
  else if ['.', '.'] <:+: name.toList then .error (.containsDots name)
  else .ok ()

def normalize (entry : Host) : Host :=
  { entry with
    name := trimSpace entry.name
    ssh := trimSpace entry.ssh
    user := trimSpace entry.user
    evenerPath := trimSpace entry.evenerPath
    configPath := trimSpace entry.configPath
    addr := trimSpace entry.addr
    roots := entry.roots.map trimSpace
    keyPath := trimSpace entry.keyPath }

/-- The configured content is the same. -/
def Host.equal (h other : Host) : Bool :=
  h.name = other.name && h.ssh = other.ssh && h.user = other.user &&
    h.evenerPath = other.evenerPath && h.configPath = other.configPath &&
    h.addr = other.addr && h.keyPath = other.keyPath && h.roots = other.roots

def validateEntry (entry : Host) : Except RegistryError Unit := do
  validateName entry.name
  if entry.ssh = "" then .error (.missingSSH entry.name)
  else if entry.user ≠ "" ∧ '@' ∈ entry.ssh.toList then
    .error (.ambiguousSSHUser entry.name entry.ssh)
  else if "" ∈ entry.roots then .error (.emptyRoot entry.name)
  else if entry.keyPath ≠ "" ∧ startsWith entry.keyPath "/" = false then
    .error (.invalidKeyPath entry.name entry.keyPath)
  else .ok ()

def normalizeUpstreams (names : List String) : Except RegistryError (List String) := do
  (names.map trimSpace).forM validateName
  return names.map trimSpace

/-! ## Identities -/

/-- `math.MaxUint64`. -/
def maxUint64 : UInt64 := 18446744073709551615

/-- A counter after a value that it must not stay below. -/
def raised (counter value : UInt64) : UInt64 := if counter < value then value else counter

section Registry

variable (r : Registry)

def Registry.nextGenerationLocked : Except RegistryError UInt64 :=
  if r.gen = maxUint64 then .error .generationExhausted else .ok (r.gen + 1)

def Registry.nextPresenceLocked (name : String) : Except RegistryError UInt64 :=
  let next :=
    match r.hosts name with
    | some live => raised (r.presence name) live.presenceEpoch
    | none => r.presence name
  if next = maxUint64 then .error (.presenceExhausted name) else .ok (next + 1)

/-- `id` is what the generator gives, where it gives anything. -/
def mintIncarnationID (id : Option String) : Except RegistryError String :=
  match id with
  | none => .error .mintIncarnationID
  | some id => .ok id

def Registry.mintIdentityLocked (name : String) (id : Option String) :
    Except RegistryError Identity := do
  let generation ← r.nextGenerationLocked
  let presenceEpoch ← r.nextPresenceLocked name
  let incarnationID ← mintIncarnationID id
  return { generation, incarnationID, presenceEpoch }

def Registry.stamp (entry : Host) (id : Option String) :
    Except RegistryError (Identity × Registry) := do
  let entry := normalize entry
  validateEntry entry
  let generation ← r.nextGenerationLocked
  let identity ← (
    match r.hosts entry.name with
    | some live =>
      return { generation, incarnationID := live.incarnationID, presenceEpoch := live.presenceEpoch }
    | none => do
      let presenceEpoch ← r.nextPresenceLocked entry.name
      let incarnationID ← mintIncarnationID id
      return { generation, incarnationID, presenceEpoch } : Except RegistryError Identity)
  return (identity,
    { r with
      gen := identity.generation
      presence := Function.update r.presence entry.name
        (raised (r.presence entry.name) identity.presenceEpoch)
      pending := Function.update r.pending entry.name (some identity) })

/-- The stamp that is pending for the name of the entry, where the entry carries it. -/
def Registry.peekStampLocked (entry : Host) : Option Identity :=
  match r.pending entry.name with
  | none => none
  | some pending =>
    if entry.generation ≠ pending.generation ∨ entry.incarnationID ≠ pending.incarnationID ∨
        entry.presenceEpoch ≠ pending.presenceEpoch then none
    else some pending

def Registry.consumeStampLocked (entry : Host) : Option Identity × Registry :=
  match r.peekStampLocked entry with
  | some identity =>
    (some identity, { r with pending := Function.update r.pending entry.name none })
  | none => (none, r)

/-! ## Edges -/

def Registry.upstreams (name : String) : List String :=
  ((lookup Prod.fst name r.edges).map Prod.snd).getD []

/-- No walk passes through more names than these. -/
def Registry.names (upstreamNames : List String) : List String :=
  reached r.upstreams (upstreamNames ++ r.edges.map Prod.fst)

def Registry.checkCycleLocked (candidate : String) (upstreamNames : List String) :
    Except RegistryError Unit :=
  match upstreamNames.foldlM (fun done name =>
      if name ∈ [candidate] then .error .cycle
      else if name ∈ done then .ok done
      else dfs r.upstreams (r.names upstreamNames).length [candidate] done name) [] with
  | .ok _ => .ok ()
  | .error _ => .error (.hostCycle candidate)

/-! ## Calls -/

def Registry.insertLocked (entry : Host) (id : Option String) : Except RegistryError Registry := do
  let (stamped, r) := r.consumeStampLocked entry
  let identity ← (
    match stamped with
    | some identity => return identity
    | none => r.mintIdentityLocked entry.name id : Except RegistryError Identity)
  let entry := { entry with
    generation := identity.generation
    incarnationID := identity.incarnationID
    presenceEpoch := identity.presenceEpoch }
  return { r with
    gen := raised r.gen entry.generation
    presence := Function.update r.presence entry.name
      (raised (r.presence entry.name) entry.presenceEpoch)
    hosts := Function.update r.hosts entry.name (some entry) }

def Registry.addWithUpstreams (entry : Host) (upstreamNames : List String) (id : Option String) :
    Except RegistryError Registry := do
  let entry := normalize entry
  validateEntry entry
  let upstreamNames ← normalizeUpstreams upstreamNames
  if (r.hosts entry.name).isSome then .error (.duplicateHost entry.name)
  else
    r.checkCycleLocked entry.name upstreamNames
    let r ← r.insertLocked entry id
    return { r with edges := put Prod.fst (entry.name, upstreamNames) r.edges }

def Registry.update (entry : Host) : Except RegistryError Registry := do
  let entry := normalize entry
  validateEntry entry
  match r.hosts entry.name with
  | none => .error (.unknownHost entry.name)
  | some live =>
    let (generation, pending) ← (
      match r.peekStampLocked entry with
      | some identity =>
        if live.generation < identity.generation then
          return (identity.generation, Function.update r.pending entry.name none)
        else .error (.staleStamp identity.generation entry.name live.generation)
      | none => do
        let generation ← r.nextGenerationLocked
        return (generation, r.pending) : Except RegistryError (UInt64 × (String → Option Identity)))
    let entry := { entry with
      generation := generation
      incarnationID := live.incarnationID
      presenceEpoch := live.presenceEpoch }
    return { r with
      pending := pending
      gen := raised r.gen entry.generation
      presence := Function.update r.presence entry.name
        (raised (r.presence entry.name) entry.presenceEpoch)
      hosts := Function.update r.hosts entry.name (some entry) }

def Registry.setUpstreams (name : String) (upstreamNames : List String) :
    Except RegistryError Registry := do
  let name := trimSpace name
  validateName name
  let upstreamNames ← normalizeUpstreams upstreamNames
  if (r.hosts name).isNone then .error (.unknownHost name)
  else
    r.checkCycleLocked name upstreamNames
    return { r with edges := put Prod.fst (name, upstreamNames) r.edges }

def Registry.get (name : String) : Option Host := r.hosts (trimSpace name)

def sameRegistration (a b : Host) : Bool :=
  a.equal b && a.generation = b.generation && a.incarnationID = b.incarnationID

def Registry.sameRegistration (name : String) (captured : Host) : Bool :=
  match r.get name with
  | some current => Hostreg.sameRegistration current captured
  | none => false

def Registry.remove (name : String) : Except RegistryError Registry := do
  let name := trimSpace name
  validateName name
  if (r.hosts name).isNone then .error (.unknownHost name)
  else
    let presence ← r.nextPresenceLocked name
    return { r with
      hosts := Function.update r.hosts name none
      edges := erase Prod.fst name r.edges
      pending := Function.update r.pending name none
      presence := Function.update r.presence name presence }

def Registry.rebaseBootCollision (name : String) (id : Option String) :
    Except RegistryError (Host × Registry) := do
  let name := trimSpace name
  match r.hosts name with
  | none => .error (.unknownHost name)
  | some entry =>
    let generation ← r.nextGenerationLocked
    let presence ← r.nextPresenceLocked name
    let incarnation ← mintIncarnationID id
    let entry := { entry with
      generation := generation
      incarnationID := incarnation
      presenceEpoch := presence }
    return (entry,
      { r with
        gen := raised r.gen generation
        presence := Function.update r.presence name (raised (r.presence name) presence)
        hosts := Function.update r.hosts name (some entry)
        pending := Function.update r.pending name none })

/-! ## Boot -/

def Registry.seedMark (name : String) (mark : HighWater) : Registry :=
  let presence := raised (r.presence name) mark.presenceEpoch
  { r with
    gen := raised r.gen mark.generation
    presence := Function.update r.presence name presence
    hosts :=
      match r.hosts name with
      | none => r.hosts
      | some live =>
        Function.update r.hosts name (some { live with
          presenceEpoch := raised live.presenceEpoch presence
          generation := raised live.generation mark.generation }) }

def Registry.seedHighWater (marks : List (String × HighWater)) : Registry :=
  marks.foldl (fun r mark => r.seedMark mark.1 mark.2) r

/-- A refusal here leaves what was written before it. -/
def Registry.seedLocked (entry : Host) (id : Option String) :
    Except RegistryError Unit × Registry :=
  match if entry.generation = 0 then r.nextGenerationLocked else .ok entry.generation with
  | .error err => (.error err, r)
  | .ok generation =>
    let r := { r with gen := raised r.gen generation }
    match if entry.incarnationID = "" then mintIncarnationID id else .ok entry.incarnationID with
    | .error err => (.error err, r)
    | .ok incarnation =>
      match if entry.presenceEpoch = 0 then r.nextPresenceLocked entry.name
        else .ok entry.presenceEpoch with
      | .error err => (.error err, r)
      | .ok presence =>
        (.ok (), { r with
          presence := Function.update r.presence entry.name
            (raised (r.presence entry.name) presence)
          hosts := Function.update r.hosts entry.name (some { entry with
            generation := generation
            incarnationID := incarnation
            presenceEpoch := presence }) })

def Registry.seed (entry : Host) (id : Option String) : Except RegistryError Unit × Registry :=
  let entry := normalize entry
  match validateEntry entry with
  | .error err => (.error err, r)
  | .ok () =>
    if (r.hosts entry.name).isSome then (.error (.duplicateHost entry.name), r)
    else r.seedLocked entry id

end Registry

/-- `New` and `NewSeeded` are the marks and then every entry; `AddRestored` is one entry. -/
inductive Seed where
  | highWater (marks : List (String × HighWater))
  | restored (entry : Host) (id : Option String)

def boot (seeds : List Seed) : Registry :=
  seeds.foldl (fun r seed =>
    match seed with
    | .highWater marks => r.seedHighWater marks
    | .restored entry id => (r.seed entry id).2) {}

/-! ## Runs -/

inductive Op where
  | stamp (entry : Host) (id : Option String)
  | addWithUpstreams (entry : Host) (upstreamNames : List String) (id : Option String)
  | update (entry : Host)
  | remove (name : String)
  | setUpstreams (name : String) (upstreamNames : List String)
  | rebaseBootCollision (name : String) (id : Option String)

inductive Reply where
  | done
  | identity (identity : Identity)
  | host (host : Host)
deriving DecidableEq

def Registry.apply (r : Registry) : Op → Except RegistryError (Reply × Registry)
  | .stamp entry id => (r.stamp entry id).map fun s => (.identity s.1, s.2)
  | .addWithUpstreams entry upstreamNames id =>
    (r.addWithUpstreams entry upstreamNames id).map fun r => (.done, r)
  | .update entry => (r.update entry).map fun r => (.done, r)
  | .remove name => (r.remove name).map fun r => (.done, r)
  | .setUpstreams name upstreamNames =>
    (r.setUpstreams name upstreamNames).map fun r => (.done, r)
  | .rebaseBootCollision name id =>
    (r.rebaseBootCollision name id).map fun s => (.host s.1, s.2)

def Registry.step (r : Registry) (op : Op) : Except RegistryError Reply × Registry :=
  match r.apply op with
  | .error err => (.error err, r)
  | .ok (reply, r') => (.ok reply, r')

structure Event where
  before : Registry
  op : Op
  reply : Except RegistryError Reply
  after : Registry

def history (r : Registry) : List Op → List Event
  | [] => []
  | op :: ops =>
    { before := r, op, reply := (r.step op).1, after := (r.step op).2 } ::
      history (r.step op).2 ops

def run (r : Registry) (ops : List Op) : Registry := ops.foldl (fun r op => (r.step op).2) r

end Evener.Hostreg
