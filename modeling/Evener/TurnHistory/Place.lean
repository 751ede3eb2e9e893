/-
  Placement of the coalesced turns: the turns with a fresh fragment stand in the order of the
  fresh page, and the turns only the older page has are put into the gaps between them.
-/
import Evener.TurnHistory.Coalesce

namespace Evener.TurnHistory

open Evener.Lib
open Evener.Lib.JsValue

/-! ## Positions of turns -/

def positionBefore (p q : Int × Int) : Bool := p.1 < q.1 || (p.1 = q.1 && p.2 < q.2)

def firstTurnPosition (turn : TurnModel) : Option (Int × Int) :=
  turn.items.foldl (fun first item =>
    match item.position, first with
    | none, first => first
    | some position, none => some position
    | some position, some first => some (if positionBefore position first then position else first))
    none

def compareTurnPositions (left right : TurnModel) : Option Int :=
  match firstTurnPosition left, firstTurnPosition right with
  | some left, some right =>
    some (if left.1 - right.1 ≠ 0 then left.1 - right.1 else left.2 - right.2)
  | _, _ => none

/-- `nextPositionedTurn`, on the turns from its start on. -/
def nextPositionedTurn (turns : List CoalescedTurn) : Option CoalescedTurn :=
  turns.find? fun turn => firstTurnPosition turn.turn ≠ none

/-- The turn a run is compared by: its head, or the next one that has a position. -/
def comparisonTurn : List CoalescedTurn → Option CoalescedTurn
  | [] => none
  | turn :: turns =>
    if firstTurnPosition turn.turn = none then nextPositionedTurn (turn :: turns) else some turn

/-! ## Weaving a gap -/

/-- The older run goes before the fresh turn. -/
def olderFirst (preferOlderWithoutPositions : Bool) (freshComparisonTurn : Option CoalescedTurn)
    (older : List CoalescedTurn) : Bool :=
  let comparison :=
    match comparisonTurn older, freshComparisonTurn with
    | some olderTurn, some freshTurn => compareTurnPositions olderTurn.turn freshTurn.turn
    | _, _ => none
  match comparison with
  | some comparison => comparison < 0
  | none => preferOlderWithoutPositions

/-- The inner loop: the older turns that go before the fresh one, and those that are left. -/
def takeOlder (preferOlderWithoutPositions : Bool) (freshComparisonTurn : Option CoalescedTurn) :
    List CoalescedTurn → List CoalescedTurn × List CoalescedTurn
  | [] => ([], [])
  | olderTurn :: older =>
    if olderFirst preferOlderWithoutPositions freshComparisonTurn (olderTurn :: older) then
      let rest := takeOlder preferOlderWithoutPositions freshComparisonTurn older
      (olderTurn :: rest.1, rest.2)
    else ([], olderTurn :: older)

def weaveTurnGap (preferOlderWithoutPositions : Bool) :
    List CoalescedTurn → List CoalescedTurn → List CoalescedTurn
  | [], older => older
  | freshTurn :: fresh, older =>
    let taken := takeOlder preferOlderWithoutPositions (comparisonTurn (freshTurn :: fresh)) older
    taken.1 ++ freshTurn :: weaveTurnGap preferOlderWithoutPositions fresh taken.2

/-! ## Gaps -/

def CoalescedTurn.hasFresh (group : CoalescedTurn) : Bool := group.freshIndexes ≠ []

def freshGroups (groups : List CoalescedTurn) : List CoalescedTurn :=
  sortBy (fun group => group.freshIndexes.headD 0) (groups.filter CoalescedTurn.hasFresh)

def retainedGroups (groups : List CoalescedTurn) : List CoalescedTurn :=
  sortBy (fun group => group.olderIndexes.headD 0) (groups.filter fun group => !group.hasFresh)

/-- The fresh rank of the group each older turn went to, `-1` where it went to a retained one. -/
def oldAnchorFreshIndexes (fresh : List CoalescedTurn) (olderCount : Nat) : List Int :=
  fresh.zipIdx.foldl (fun ranks entry =>
    entry.1.olderIndexes.foldl (fun ranks olderIndex => ranks.set olderIndex entry.2) ranks)
    (List.replicate olderCount (-1))

def previousAnchorRank (ranks : List Int) (olderIndex : Nat) : Int :=
  (ranks.take olderIndex).foldl max (-1)

/-- The least of the ranks above `previousAnchor`. -/
def leastAbove (previousAnchor : Int) (ranks : List Int) : Option Int :=
  ranks.foldl (fun earliest rank =>
    if previousAnchor < rank ∧ (earliest = none ∨ earliest.any (rank < ·)) then some rank
    else earliest) none

/-- The gap of a retained group whose first older index is `olderIndex`. -/
def gapAt (ranks : List Int) (freshCount olderIndex : Nat) : Int :=
  let previousAnchor := previousAnchorRank ranks olderIndex
  if previousAnchor = -1 then 0
  else (leastAbove previousAnchor (ranks.drop (olderIndex + 1))).getD freshCount

/-- `retainedByFreshGap.get(gap) ?? []`: the retained groups of a gap, in their order. -/
def retainedInGap (ranks : List Int) (freshCount : Nat) (retained : List CoalescedTurn) (gap : Int) :
    List CoalescedTurn :=
  retained.filter fun group =>
    match group.olderIndexes with
    | [] => false
    | olderIndex :: _ => gapAt ranks freshCount olderIndex = gap

/-- The fresh ranks with older fragments. -/
def anchorRanks (fresh : List CoalescedTurn) : List Int :=
  (fresh.zipIdx.filter fun entry => entry.1.olderIndexes ≠ []).map fun entry => (entry.2 : Int)

/-- The loop over the boundaries after `previousAnchor`. -/
def placeFrom (fresh : List CoalescedTurn) (gapRun : Int → List CoalescedTurn) :
    Int → List Int → List CoalescedTurn
  | _, [] => []
  | previousAnchor, nextAnchor :: boundaries =>
    weaveTurnGap (previousAnchor = -1)
        ((fresh.take nextAnchor.toNat).drop (previousAnchor + 1).toNat)
        (gapRun (if previousAnchor = -1 then 0 else nextAnchor)) ++
      (if nextAnchor < fresh.length then fresh[nextAnchor.toNat]?.toList else []) ++
      placeFrom fresh gapRun nextAnchor boundaries

def placedGroups (groups : List CoalescedTurn) (olderCount : Nat) : List CoalescedTurn :=
  let fresh := freshGroups groups
  let ranks := oldAnchorFreshIndexes fresh olderCount
  placeFrom fresh (retainedInGap ranks fresh.length (retainedGroups groups)) (-1)
    (anchorRanks fresh ++ [(fresh.length : Int)])

def placeCoalescedTurns (groups : List CoalescedTurn) (olderCount : Nat) : List TurnModel :=
  (placedGroups groups olderCount).map CoalescedTurn.turn

end Evener.TurnHistory
