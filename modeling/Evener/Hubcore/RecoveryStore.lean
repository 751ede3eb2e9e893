/-
  The hub's recovery store: the file that a commit replaces, and how the next hub reads it.

  The file's JSON is read back as it was written; maps are lists of records keyed by alias.
-/
import Mathlib.Data.String.Basic
import Evener.Lib.StableSort
import Evener.Lib.CheckedFold
import Evener.Lib.Text

namespace Evener.Hubcore

open Evener.Lib
open List hiding lookup

/-- `ownerStartedAt` is an instant. -/
structure RecoveryAuthority where
  exitConfirmed : Bool := false
  group : String := ""
  sessionID : String := ""
  ownerPID : Int := 0
  ownerStateDir : String := ""
  ownerStartedAt : Int := 0
deriving DecidableEq

def RecoveryAuthority.sameAuthority (a b : RecoveryAuthority) : Bool :=
  a.exitConfirmed = b.exitConfirmed && a.group = b.group && a.sessionID = b.sessionID &&
    a.ownerPID = b.ownerPID && a.ownerStateDir = b.ownerStateDir &&
    a.ownerStartedAt = b.ownerStartedAt

theorem RecoveryAuthority.sameAuthority_iff {a b : RecoveryAuthority} :
    a.sameAuthority b = true ↔ a = b := by
  cases a
  cases b
  simp [sameAuthority, and_assoc]

structure RecoveryRecord where
  aliasID : String
  authority : RecoveryAuthority
deriving DecidableEq

def validRecoveryAlias (aliasID : String) : Bool :=
  aliasID ≠ "" && aliasID ≠ "." && aliasID ≠ ".." && trimSpace aliasID = aliasID &&
    -- none of slash, backslash, colon and NUL
    !aliasID.toList.any fun c => c.toNat = 0x2f || c.toNat = 0x5c || c.toNat = 0x3a || c.toNat = 0

/-- How writing the file ends: before its rename, after it, or synced. -/
inductive Write where
  | failed (err : String)
  | unsynced (err : String)
  | synced
deriving DecidableEq

def Write.renamed : Write → Bool
  | .failed _ => false
  | .unsynced _ => true
  | .synced => true

def Write.err : Write → Option String
  | .failed err => some ("persist recovery state: " ++ err)
  | .unsynced err => some ("persist recovery state: " ++ err)
  | .synced => none

structure RecoveryStore where
  file : Option (List RecoveryRecord) := none
  state : List RecoveryRecord := []

namespace RecoveryStore

def readRecord (read : List RecoveryRecord × List RecoveryAuthority) (record : RecoveryRecord) :
    Except String (List RecoveryRecord × List RecoveryAuthority) :=
  let (state, targets) := read
  if !validRecoveryAlias record.aliasID || trimSpace record.authority.group = "" ||
      !validRecoveryAlias record.authority.sessionID then
    .error "invalid recovery alias or group"
  else if (lookup RecoveryRecord.aliasID record.aliasID state).isSome then
    .error ("duplicate recovery alias " ++ record.aliasID)
  else if (lookup RecoveryAuthority.group record.authority.group targets).any fun target =>
      !target.sameAuthority record.authority then
    .error "recovery group has conflicting exit or session authority"
  else
    .ok (put RecoveryRecord.aliasID record state,
      put RecoveryAuthority.group record.authority targets)

/-- What a hub start makes of the file. -/
def openRecoveryStore (file : Option (List RecoveryRecord)) : Except String (List RecoveryRecord) :=
  match file with
  | none => .ok []
  | some records => (records.foldlM readRecord ([], [])).map Prod.fst

def commit (s : RecoveryStore) (next : List RecoveryRecord) (write : Write) : RecoveryStore :=
  if write.renamed then { file := some (sortBy RecoveryRecord.aliasID next), state := next } else s

/-! ## Files that a hub accepts -/

/-- One authority for each group, in records that are valid by themselves. -/
structure Readable (state : List RecoveryRecord) : Prop where
  keys : KeysNodup RecoveryRecord.aliasID state
  aliasID : ∀ record ∈ state, validRecoveryAlias record.aliasID = true
  group : ∀ record ∈ state, trimSpace record.authority.group ≠ ""
  session : ∀ record ∈ state, validRecoveryAlias record.authority.sessionID = true
  one : ∀ record ∈ state, ∀ record' ∈ state,
    record.authority.group = record'.authority.group → record.authority = record'.authority

theorem Readable.perm {state state' : List RecoveryRecord} (h : Readable state)
    (hp : state.Perm state') : Readable state' where
  keys := h.keys.perm hp
  aliasID record hmem := h.aliasID record (hp.mem_iff.mpr hmem)
  group record hmem := h.group record (hp.mem_iff.mpr hmem)
  session record hmem := h.session record (hp.mem_iff.mpr hmem)
  one record hmem record' hmem' := h.one record (hp.mem_iff.mpr hmem) record' (hp.mem_iff.mpr hmem')

/-- The records read so far, with the authorities of their groups. -/
def ReadSo (l : List RecoveryRecord) (read : List RecoveryRecord × List RecoveryAuthority) : Prop :=
  read.1 = l ∧ ∀ target ∈ read.2, ∃ record ∈ l, record.authority = target

theorem readRecord_readable {l rest : List RecoveryRecord} {record : RecoveryRecord}
    {read : List RecoveryRecord × List RecoveryAuthority} (h : Readable (l ++ record :: rest))
    (hread : ReadSo l read) :
    ∃ read', readRecord read record = .ok read' ∧ ReadSo (l ++ [record]) read' := by
  obtain ⟨state, targets⟩ := read
  obtain ⟨hstate, htargets⟩ := hread
  dsimp only at hstate htargets
  subst hstate
  have hmem : record ∈ state ++ record :: rest := mem_append_right _ mem_cons_self
  have hvalid : (!validRecoveryAlias record.aliasID || trimSpace record.authority.group = "" ||
      !validRecoveryAlias record.authority.sessionID) = false := by
    rw [h.aliasID _ hmem, h.session _ hmem]
    simpa using h.group _ hmem
  have hnew : ∀ r ∈ state, r.aliasID ≠ record.aliasID := by
    have hkeys : ((state ++ record :: rest).map RecoveryRecord.aliasID).Nodup := h.keys
    rw [map_append, nodup_append] at hkeys
    intro r hr
    exact hkeys.2.2 _ (mem_map.mpr ⟨r, hr, rfl⟩) _
      (mem_map.mpr ⟨record, mem_cons_self, rfl⟩)
  have hone : ∀ target,
      lookup RecoveryAuthority.group record.authority.group targets = some target →
      target = record.authority := by
    intro target htarget
    obtain ⟨r, hr, rfl⟩ := htargets target (mem_of_lookup htarget)
    exact h.one r (mem_append_left _ hr) record hmem (key_of_lookup htarget)
  refine ⟨(put RecoveryRecord.aliasID record state,
    put RecoveryAuthority.group record.authority targets), ?_, put_eq_append hnew, ?_⟩
  · unfold readRecord
    dsimp only
    rw [hvalid, if_neg Bool.false_ne_true, lookup_eq_none.mpr hnew, if_neg (by simp), if_neg]
    intro hconflict
    obtain ⟨target, htarget, hdiffers⟩ := (Option.any_eq_true _ _).mp hconflict
    rw [hone target htarget, RecoveryAuthority.sameAuthority_iff.mpr rfl] at hdiffers
    cases hdiffers
  · intro target htarget
    rcases mem_of_mem_put htarget with rfl | htarget
    · exact ⟨record, mem_append_right _ (mem_singleton.mpr rfl), rfl⟩
    · obtain ⟨r, hr, hsame⟩ := htargets target htarget
      exact ⟨r, mem_append_left _ hr, hsame⟩

theorem openRecoveryStore_readable {records : List RecoveryRecord} (h : Readable records) :
    openRecoveryStore (some records) = .ok records := by
  have hfold : ∀ (rest l : List RecoveryRecord) (read : List RecoveryRecord × List RecoveryAuthority),
      Readable (l ++ rest) → ReadSo l read →
      ∃ read', rest.foldlM readRecord read = .ok read' ∧ ReadSo (l ++ rest) read' := by
    intro rest
    induction rest with
    | nil =>
      intro l read _ hread
      rw [append_nil]
      exact ⟨read, rfl, hread⟩
    | cons record rest ih =>
      intro l read hl hread
      obtain ⟨read₁, hok, hread₁⟩ := readRecord_readable hl hread
      obtain ⟨read', hrest, hread'⟩ := ih (l ++ [record]) read₁ (by simpa using hl) hread₁
      refine ⟨read', ?_, by simpa using hread'⟩
      rw [foldlM_cons, hok]
      exact hrest
  obtain ⟨read, hok, hstate, _⟩ := hfold records [] ([], []) h ⟨rfl, fun _ h => nomatch h⟩
  unfold openRecoveryStore
  dsimp only
  rw [hok]
  exact congrArg Except.ok hstate

end RecoveryStore

end Evener.Hubcore
