/-
  Coalescing of turn fragments: the turns of two pages that stand for one recorded turn are put in
  one group and merged.

  Groups are told apart by their place in the list.
-/
import Evener.TurnHistory.Items

namespace Evener.TurnHistory

open Evener.Lib
open Evener.Lib.JsValue

/-! ## Matching and conflicting turns -/

def turnsShareItemIdentity (left right : TurnModel) : Bool :=
  left.items.any fun leftItem => right.items.any fun rightItem =>
    itemIdentityMatches leftItem.toItemValue rightItem.toItemValue

def turnsMatch (left right : TurnModel) : Bool :=
  left.id = right.id || turnsShareItemIdentity left right

/-- Two items of one id under two different keys. -/
def itemsConflict (left right : ItemValue) : Bool :=
  left.id = right.id && truthy left.transcriptKey && truthy right.transcriptKey &&
    left.transcriptKey ≠ right.transcriptKey

def turnsCarryConflictingKeys (left right : TurnModel) : Bool :=
  left.items.any fun leftItem => right.items.any fun rightItem =>
    itemsConflict leftItem.toItemValue rightItem.toItemValue

inductive FragmentSource where
  | older
  | fresh
deriving DecidableEq

structure TurnFragment where
  turn : TurnModel
  source : FragmentSource
  index : Nat
  order : Nat

structure TurnFragmentGroup where
  fragments : List TurnFragment
  firstOrder : Nat

structure CoalescedTurn where
  turn : TurnModel
  olderIndexes : List Nat
  freshIndexes : List Nat

def fragmentsCarryConflictingKeys (left right : List TurnFragment) : Bool :=
  left.any fun leftFragment => right.any fun rightFragment =>
    turnsCarryConflictingKeys leftFragment.turn rightFragment.turn

/-- `groupConflictsWithFragment`. -/
def groupConflictsWithFragment (group : TurnFragmentGroup) (fragment : TurnFragment) : Bool :=
  group.fragments.any fun existing => turnsCarryConflictingKeys existing.turn fragment.turn

def groupMatchesFragment (group : TurnFragmentGroup) (fragment : TurnFragment) : Bool :=
  group.fragments.any fun existing => turnsMatch existing.turn fragment.turn

/-- The fragment can join the group. -/
def joinable (fragment : TurnFragment) (group : TurnFragmentGroup) : Bool :=
  groupMatchesFragment group fragment && !groupConflictsWithFragment group fragment

/-! ## Adding a fragment -/

/-- The loop over the other matching groups: the fragments of the target as it grows, and the
    groups that stay apart from it. -/
@[grind] def absorb (fragment : TurnFragment) :
    List TurnFragment → List TurnFragmentGroup → List TurnFragment × List TurnFragmentGroup
  | grown, [] => (grown, [])
  | grown, group :: groups =>
    if groupMatchesFragment group fragment && !fragmentsCarryConflictingKeys grown group.fragments
    then absorb fragment (grown ++ group.fragments) groups
    else
      let rest := absorb fragment grown groups
      (rest.1, group :: rest.2)

/-- A group of these fragments, in their order. -/
def orderedGroup (fragments : List TurnFragment) (firstOrder : Nat) : TurnFragmentGroup :=
  let fragments := sortBy TurnFragment.order fragments
  { fragments := fragments
    firstOrder := (fragments.head?.map TurnFragment.order).getD firstOrder }

def addFragment (groups : List TurnFragmentGroup) (fragment : TurnFragment) :
    List TurnFragmentGroup :=
  match groups.dropWhile fun group => !joinable fragment group with
  | [] => groups ++ [{ fragments := [fragment], firstOrder := fragment.order }]
  | target :: later =>
    let earlier := groups.takeWhile fun group => !joinable fragment group
    let fromEarlier := absorb fragment (target.fragments ++ [fragment]) earlier
    let fromLater := absorb fragment fromEarlier.1 later
    fromEarlier.2 ++ orderedGroup fromLater.1 target.firstOrder :: fromLater.2

/-- The fragments in the order they are added: the older turns, then the fresh ones. -/
def inputFragments (older fresh : List TurnModel) : List TurnFragment :=
  older.zipIdx.map (fun entry =>
    { turn := entry.1, source := .older, index := entry.2, order := entry.2 }) ++
  fresh.zipIdx.map fun entry =>
    { turn := entry.1, source := .fresh, index := entry.2, order := older.length + entry.2 }

def fragmentGroups (older fresh : List TurnModel) : List TurnFragmentGroup :=
  (inputFragments older fresh).foldl addFragment []

/-! ## The coalesced turns -/

def fragmentsOf (source : FragmentSource) (group : TurnFragmentGroup) : List TurnFragment :=
  group.fragments.filter fun fragment => fragment.source = source

/-- The older fragments are merged first, then the fresh ones. -/
def coalesceGroup (context : Bool) (group : TurnFragmentGroup) : Option CoalescedTurn :=
  match fragmentsOf .older group ++ fragmentsOf .fresh group with
  | [] => none
  | first :: rest =>
    some
      { turn := rest.foldl (fun current fragment => mergePageTurn context current fragment.turn)
          first.turn
        olderIndexes := (fragmentsOf .older group).map TurnFragment.index
        freshIndexes := (fragmentsOf .fresh group).map TurnFragment.index }

def coalesceTurnFragments (context : Bool) (older fresh : List TurnModel) : List CoalescedTurn :=
  (sortBy TurnFragmentGroup.firstOrder (fragmentGroups older fresh)).filterMap
    (coalesceGroup context)

end Evener.TurnHistory
