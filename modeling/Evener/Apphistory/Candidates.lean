/-
  Items with their positions: from turn fragments and back. Regrouping candidates keeps their
  items in order.
-/
import Mathlib.Data.List.Forall2
import Mathlib.Data.List.SplitBy
import Evener.Lib.CheckedFold
import Evener.Apphistory.Records

namespace Evener.Apphistory

open Evener.Lib List

structure TranscriptItemCandidate where
  turnID : String
  turn : Turn
  item : ThreadItem
  position : ThreadItemPosition
  hasEarlierItems : Bool := false
  hasLaterItems : Bool := false
deriving DecidableEq

def comparePosition (a b : ThreadItemPosition) : Ordering :=
  ((compare a.entry b.entry).then (compare a.item b.item)).then (compare a.sub b.sub)

/-! ## From the turns of a page -/

def candidatesFromItems (turn : Turn) : Nat → List ThreadItem →
    Except Failure (List TranscriptItemCandidate)
  | _, [] => .ok []
  | itemIndex, item :: items =>
    match item.position with
    | some position =>
      if item.transcriptKey = "" then
        .error (.errorf "item-mode response turn %q contains an unpositioned item at ordinal %d"
          [turn.id, toString itemIndex])
      else do
        let rest ← candidatesFromItems turn (itemIndex + 1) items
        return {
          turnID := turn.id
          turn := turn
          item := item
          position := position
          hasEarlierItems := turn.hasEarlierItems || decide (0 < itemIndex)
          hasLaterItems := turn.hasLaterItems || !items.isEmpty } :: rest
    | none =>
      .error (.errorf "item-mode response turn %q contains an unpositioned item at ordinal %d"
        [turn.id, toString itemIndex])

def candidatesFromTurnsAt : Nat → List Turn → Except Failure (List TranscriptItemCandidate)
  | _, [] => .ok []
  | turnIndex, turn :: turns =>
    if turn.id = "" then
      .error (.errorf "item-mode response contains a turn without an id at ordinal %d"
        [toString turnIndex])
    else do
      let here ← candidatesFromItems turn 0 turn.items
      let rest ← candidatesFromTurnsAt (turnIndex + 1) turns
      return here ++ rest

def candidatesFromTurns (turns : List Turn) : Except Failure (List TranscriptItemCandidate) :=
  candidatesFromTurnsAt 0 turns

/-! ## The checks -/

def validateFrom (i : Nat) (seenKeys : List String) (previous : Option ThreadItemPosition) :
    List TranscriptItemCandidate → Except Failure Unit
  | [] => .ok ()
  | candidate :: candidates =>
    if candidate.turnID = "" then .error (.errorf "candidate %d has empty turn id" [toString i])
    else if candidate.item.transcriptKey = "" then
      .error (.errorf "candidate %d has empty transcript key" [toString i])
    else if candidate.item.position = none then
      .error (.errorf "candidate %d has nil item position" [toString i])
    else if candidate.item.position ≠ some candidate.position then
      .error (.errorf "candidate %d item position disagrees with candidate position" [toString i])
    else if candidate.item.transcriptKey ∈ seenKeys then
      .error (.errorf "candidate %d repeats transcript key" [toString i])
    else if previous.any fun p => comparePosition p candidate.position ≠ .lt then
      .error (.errorf "candidate positions are not strictly increasing at %d" [toString i])
    else
      validateFrom (i + 1) (candidate.item.transcriptKey :: seenKeys) (some candidate.position)
        candidates

def validateCandidates (candidates : List TranscriptItemCandidate) : Except Failure Unit :=
  validateFrom 0 [] none candidates

/-! ## Back to turn fragments -/

def turnRuns (candidates : List TranscriptItemCandidate) : List (List TranscriptItemCandidate) :=
  candidates.splitBy fun a b => a.turnID == b.turnID

/-- The completeness of a run stands at its ends. -/
def normalizeRun (run : List TranscriptItemCandidate) : List TranscriptItemCandidate :=
  run.zipIdx.map fun (candidate, i) =>
    { candidate with
      hasEarlierItems := i == 0 && candidate.hasEarlierItems
      hasLaterItems := i + 1 == run.length && candidate.hasLaterItems }

def normalizeProjectedItemCompleteness (candidates : List TranscriptItemCandidate) :
    List TranscriptItemCandidate :=
  ((turnRuns candidates).map normalizeRun).flatten

def regroupRun : List TranscriptItemCandidate → List Turn
  | [] => []
  | first :: rest =>
    [{ first.turn with
      id := first.turnID
      items := (first :: rest).map TranscriptItemCandidate.item
      itemsView := "fragment"
      hasEarlierItems := (first :: rest).any TranscriptItemCandidate.hasEarlierItems
      hasLaterItems := (first :: rest).any TranscriptItemCandidate.hasLaterItems }]

def regroupTurnFragments (candidates : List TranscriptItemCandidate) : Except Failure (List Turn) := do
  validateCandidates candidates
  return (turnRuns candidates).flatMap regroupRun

/-! ## Regrouping -/

/-- Candidates with the items, positions and turns of others. -/
structure Mirrors (c d : TranscriptItemCandidate) : Prop where
  item : c.item = d.item
  position : c.position = d.position
  turnID : c.turnID = d.turnID

theorem normalizeRun_mirrors (run : List TranscriptItemCandidate) :
    List.Forall₂ Mirrors (normalizeRun run) run := by
  unfold normalizeRun
  rw [forall₂_map_left_iff]
  have hzip : ∀ (l : List TranscriptItemCandidate) (k n : Nat),
      List.Forall₂ (fun (p : TranscriptItemCandidate × Nat) c => Mirrors
        { p.1 with
          hasEarlierItems := p.2 == 0 && p.1.hasEarlierItems
          hasLaterItems := p.2 + 1 == n && p.1.hasLaterItems } c) (l.zipIdx k) l := by
    intro l
    induction l with
    | nil => exact fun _ _ => .nil
    | cons c cs ih => exact fun k n => .cons ⟨rfl, rfl, rfl⟩ (ih (k + 1) n)
  exact hzip run 0 run.length

theorem normalize_mirrors (candidates : List TranscriptItemCandidate) :
    List.Forall₂ Mirrors (normalizeProjectedItemCompleteness candidates) candidates := by
  have hflat : ∀ runs : List (List TranscriptItemCandidate),
      List.Forall₂ Mirrors (runs.map normalizeRun).flatten runs.flatten := by
    intro runs
    induction runs with
    | nil => exact .nil
    | cons run runs ih =>
      rw [map_cons, flatten_cons, flatten_cons]
      exact rel_append (normalizeRun_mirrors run) ih
  have hruns := hflat (turnRuns candidates)
  unfold turnRuns at hruns
  rwa [flatten_splitBy] at hruns

theorem Mirrors.items {cs ds : List TranscriptItemCandidate} (h : List.Forall₂ Mirrors cs ds) :
    cs.map TranscriptItemCandidate.item = ds.map TranscriptItemCandidate.item := by
  induction h with
  | nil => rfl
  | cons h _ ih => rw [map_cons, map_cons, h.item, ih]

theorem regroupRun_items (run : List TranscriptItemCandidate) :
    (regroupRun run).flatMap Turn.items = run.map TranscriptItemCandidate.item := by
  cases run with
  | nil => rfl
  | cons c cs => simp [regroupRun]

end Evener.Apphistory
