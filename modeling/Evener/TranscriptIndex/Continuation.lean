/-
  Answer continuation: is one execution answered, step by step, from another?

  The cut is what the index holds: turn and item records and the transcript entries behind them.
  Nothing is cancelled, the index is not contended, and every read succeeds; a name is the text
  that its record refers to.
-/
import Evener.Lib.Lines
import Evener.Lib.Worklist

namespace Evener.TranscriptIndex

open Evener.Lib List

inductive TurnRecordKind where
  | legacy | execution | gap | delivery | prelude | unreadable
deriving DecidableEq

structure TurnRecord where
  id : Bytes
  kind : TurnRecordKind
  firstOrdinal : Nat
deriving DecidableEq

/-- Where an entry is in the transcript. -/
structure EntryRef where
  offset : Nat
  length : Nat
deriving DecidableEq

structure ItemRecord where
  turn : Nat
  opener : EntryRef
deriving DecidableEq

inductive EntryKind where
  | userInput | steering | other
deriving DecidableEq

structure Entry where
  kind : EntryKind
  answerToTurnIDs : List Bytes
deriving DecidableEq

structure SnapshotIdentity where
  incarnation : Bytes
  length : Nat
deriving DecidableEq

structure Cut where
  identity : SnapshotIdentity
  turns : List TurnRecord
  items : List ItemRecord
  readEntry : EntryRef → Entry

inductive ContinuationError where
  /-- "answer continuation requires both execution IDs" -/
  | invalidParams
  | cursorStale
  /-- "execution %q absent at cut" -/
  | absent (id : Bytes)
  /-- "%q is not an execution" -/
  | notExecution (id : Bytes)
  /-- "non-earlier edge %q to %q" -/
  | nonEarlierEdge (id parent : Bytes)
deriving DecidableEq

namespace Cut

variable (x : Cut)

def chunk : Nat := 256

/-! ## Lookup -/

/-- The newest slot of the name from `start` up to before `slot`. -/
def findDown (id : Bytes) (start : Nat) : Nat → Option Nat
  | 0 => none
  | slot + 1 =>
    if slot < start then none
    else
      match x.turns[slot]? with
      | none => none
      | some record =>
        if record.kind = .legacy ∨ record.id.length ≠ id.length then findDown id start slot
        else if record.id = id then some slot
        else findDown id start slot

/-- The chunks before `stop`, the newest first. -/
def findChunks (id : Bytes) : Nat → Nat → Option Nat
  | 0, _ => none
  | fuel + 1, stop =>
    if stop = 0 then none
    else
      let start := stop - min stop chunk
      match x.findDown id start stop with
      | some slot => some slot
      | none => findChunks id fuel start

def findTurn (id : Bytes) : Option Nat := x.findChunks id x.turns.length x.turns.length

def load (id : Bytes) : Except ContinuationError (Nat × TurnRecord) :=
  match x.findTurn id with
  | none => throw (.absent id)
  | some slot =>
    match x.turns[slot]? with
    | none => throw (.absent id)
    | some rec => if rec.kind = .execution then pure (slot, rec) else throw (.notExecution id)

/-! ## Edges -/

def checkParent (id : Bytes) (rec : TurnRecord) (parent : Bytes) : Except ContinuationError Unit :=
  x.load parent >>= fun prior =>
    if rec.firstOrdinal ≤ prior.2.firstOrdinal then throw (.nonEarlierEdge id parent) else pure ()

/-- The parents that one item names, each of them checked. -/
def scanItem (id : Bytes) (slot : Nat) (rec : TurnRecord) (item : ItemRecord) :
    Except ContinuationError (List Bytes) :=
  if item.turn ≠ slot then pure []
  else
    let entry := x.readEntry item.opener
    if entry.kind ≠ .userInput ∧ entry.kind ≠ .steering then pure []
    else entry.answerToTurnIDs.forM (x.checkParent id rec) >>= fun _ => pure entry.answerToTurnIDs

def scanItems (id : Bytes) (slot : Nat) (rec : TurnRecord) :
    List ItemRecord → Except ContinuationError (List Bytes)
  | [] => pure []
  | item :: items => do
    let here ← x.scanItem id slot rec item
    let rest ← scanItems id slot rec items
    pure (here ++ rest)

/-- The item records from `start` on, in chunks. -/
def scanChunks (id : Bytes) (slot : Nat) (rec : TurnRecord) :
    Nat → Nat → Except ContinuationError (List Bytes)
  | 0, _ => pure []
  | fuel + 1, start =>
    if x.items.length ≤ start then pure []
    else do
      let count := min chunk (x.items.length - start)
      let here ← x.scanItems id slot rec ((x.items.drop start).take count)
      let rest ← scanChunks id slot rec fuel (start + count)
      pure (here ++ rest)

/-- One execution: the parents that its inputs name. -/
def visit (id : Bytes) : Except ContinuationError (List Bytes) :=
  x.load id >>= fun found => x.scanChunks id found.1 found.2 x.items.length 0

/-! ## The walk -/

/-- `none` where the walk goes on. The end of the pending list is its head here. -/
def walk (ancestor : Bytes) : Nat → List Bytes → List Bytes → Bool →
    Option (Except ContinuationError Bool)
  | 0, _, _, _ => none
  | _ + 1, [], _, matched => some (.ok matched)
  | fuel + 1, id :: pending, seen, matched =>
    if id ∈ seen then walk ancestor fuel pending seen matched
    else
      match x.visit id with
      | .error e => some (.error e)
      | .ok parents =>
        walk ancestor fuel ((parents.filter (· ∉ id :: seen)).reverse ++ pending) (id :: seen)
          (matched || id = ancestor)

/-- The held cut is not a cut of this index. -/
def stale (held : Option SnapshotIdentity) : Prop :=
  ∃ cut, held = some cut ∧ (cut.incarnation ≠ x.identity.incarnation ∨ x.identity.length < cut.length)

instance (held : Option SnapshotIdentity) : Decidable (x.stale held) :=
  match held with
  | none => isFalse fun ⟨_, h, _⟩ => nomatch h
  | some cut =>
    decidable_of_iff (cut.incarnation ≠ x.identity.incarnation ∨ x.identity.length < cut.length)
      ⟨fun h => ⟨cut, rfl, h⟩, fun ⟨_, h, h'⟩ => Option.some.inj h ▸ h'⟩

def answerContinuation (fuel : Nat) (ancestor candidate : Bytes) (held : Option SnapshotIdentity) :
    Option (Except ContinuationError (Bool × SnapshotIdentity)) :=
  if ancestor = [] ∨ candidate = [] then some (.error .invalidParams)
  else if x.stale held then some (.error .cursorStale)
  else
    match x.load ancestor with
    | .error e => some (.error e)
    | .ok _ =>
      (x.walk ancestor fuel [candidate] [] false).map fun r =>
        r.map fun matched => (matched, x.identity)

/-! ## What is asked -/

/-- The newest record of the name is an execution. -/
def Execution (id : Bytes) (slot : Nat) (rec : TurnRecord) : Prop :=
  x.turns[slot]? = some rec ∧ rec.kind = .execution ∧ rec.id = id ∧
    ∀ later rec', slot < later → x.turns[later]? = some rec' → rec'.kind ≠ .legacy → rec'.id ≠ id

/-- An input that opened an item of the execution answers the parent. -/
def Answers (id parent : Bytes) : Prop :=
  ∃ slot rec item, x.Execution id slot rec ∧ item ∈ x.items ∧ item.turn = slot ∧
    ((x.readEntry item.opener).kind = .userInput ∨ (x.readEntry item.opener).kind = .steering) ∧
    parent ∈ (x.readEntry item.opener).answerToTurnIDs

/-- Both are executions, the parent's the earlier one. -/
def Earlier (parent id : Bytes) : Prop :=
  ∃ slot rec slot' prior, x.Execution id slot rec ∧ x.Execution parent slot' prior ∧
    prior.firstOrdinal < rec.firstOrdinal

/-- No execution, or one with an edge to no earlier execution. -/
def Broken (id : Bytes) : Prop :=
  (¬ ∃ slot rec, x.Execution id slot rec) ∨ ∃ parent, x.Answers id parent ∧ ¬ x.Earlier parent id

/-! ## Lookup -/

variable {x} {id : Bytes}

/-- The record of the slot has the name. -/
def Hit (x : Cut) (id : Bytes) (slot : Nat) : Prop :=
  ∃ rec, x.turns[slot]? = some rec ∧ rec.kind ≠ .legacy ∧ rec.id = id

/-- The newest hit before `stop`, down to `start`. -/
def NewestHit (x : Cut) (id : Bytes) (start stop : Nat) : Option Nat → Prop
  | some slot => start ≤ slot ∧ slot < stop ∧ x.Hit id slot ∧
      ∀ later, slot < later → later < stop → ¬ x.Hit id later
  | none => ∀ slot, start ≤ slot → slot < stop → ¬ x.Hit id slot

theorem NewestHit.succ {start stop : Nat} {found : Option Nat}
    (h : NewestHit x id start stop found) (hmiss : ¬ x.Hit id stop) :
    NewestHit x id start (stop + 1) found := by
  cases found with
  | some slot =>
    obtain ⟨hstart, hstop, hhit, hnewest⟩ := h
    refine ⟨hstart, by omega, hhit, fun later hlater hbefore => ?_⟩
    rcases Nat.lt_succ_iff_lt_or_eq.mp hbefore with hbefore | rfl
    · exact hnewest later hlater hbefore
    · exact hmiss
  | none =>
    intro slot hstart hbefore
    rcases Nat.lt_succ_iff_lt_or_eq.mp hbefore with hbefore | rfl
    · exact h slot hstart hbefore
    · exact hmiss

theorem findDown_spec (start : Nat) {stop : Nat} (hstop : stop ≤ x.turns.length) :
    NewestHit x id start stop (x.findDown id start stop) := by
  induction stop with
  | zero => exact fun slot _ h => absurd h (Nat.not_lt_zero slot)
  | succ stop ih =>
    have hrest := ih (by omega)
    rw [findDown]
    split
    · next hless => exact fun slot hstart h => by omega
    · next hge =>
      have hget := getElem?_eq_getElem (by omega : stop < x.turns.length)
      rw [hget]
      dsimp only
      have hother : x.turns[stop].kind = .legacy ∨ x.turns[stop].id ≠ id → ¬ x.Hit id stop := by
        rintro hother ⟨rec, hrec, hkind, hname⟩
        rw [hget] at hrec
        cases hrec
        rcases hother with hlegacy | hname'
        · exact hkind hlegacy
        · exact hname' hname
      split
      · next hskip =>
        refine hrest.succ (hother (hskip.imp (fun h => h) fun hlength hname => ?_))
        exact hlength (by rw [hname])
      · next hlive =>
        rw [not_or] at hlive
        split
        · next hname =>
          exact ⟨by omega, by omega, ⟨_, hget, hlive.1, hname⟩, fun later h h' => by omega⟩
        · next hname => exact hrest.succ (hother (Or.inr hname))

theorem findChunks_spec {fuel stop : Nat} (hfuel : stop ≤ fuel) (hstop : stop ≤ x.turns.length) :
    NewestHit x id 0 stop (x.findChunks id fuel stop) := by
  induction fuel generalizing stop with
  | zero =>
    intro slot _ h
    omega
  | succ fuel ih =>
    rw [findChunks]
    split
    · next hzero => exact fun slot _ h => by omega
    · next hpos =>
      dsimp only
      have hchunk : 0 < min stop chunk := by
        unfold chunk
        omega
      have hdown : NewestHit x id (stop - min stop chunk) stop
          (x.findDown id (stop - min stop chunk) stop) := findDown_spec _ hstop
      split
      · next slot hfound =>
        rw [hfound] at hdown
        exact ⟨Nat.zero_le _, hdown.2⟩
      · next hfound =>
        rw [hfound] at hdown
        have hrest : NewestHit x id 0 (stop - min stop chunk)
            (x.findChunks id fuel (stop - min stop chunk)) := ih (by omega) (by omega)
        cases hresult : x.findChunks id fuel (stop - min stop chunk) with
        | some slot =>
          rw [hresult] at hrest
          obtain ⟨hstart, hbefore, hhit, hnewest⟩ := hrest
          refine ⟨hstart, by omega, hhit, fun later hlater hbefore' => ?_⟩
          by_cases hchunked : later < stop - min stop chunk
          · exact hnewest later hlater hchunked
          · exact hdown later (by omega) hbefore'
        | none =>
          rw [hresult] at hrest
          intro slot hstart hbefore
          by_cases hchunked : slot < stop - min stop chunk
          · exact hrest slot hstart hchunked
          · exact hdown slot (by omega) hbefore

theorem Execution.unique {slot slot' : Nat} {rec rec' : TurnRecord} (h : x.Execution id slot rec)
    (h' : x.Execution id slot' rec') : slot = slot' ∧ rec = rec' := by
  obtain ⟨hget, hkind, hname, hnewest⟩ := h
  obtain ⟨hget', hkind', hname', hnewest'⟩ := h'
  have hsame : slot = slot' := by
    rcases Nat.lt_trichotomy slot slot' with hless | hsame | hless
    · exact absurd hname' (hnewest slot' rec' hless hget' (by rw [hkind']; decide))
    · exact hsame
    · exact absurd hname (hnewest' slot rec hless hget (by rw [hkind]; decide))
  subst hsame
  rw [hget] at hget'
  exact ⟨rfl, Option.some.inj hget'⟩

/-- `load` finds the execution of a name, and nothing else. -/
theorem load_spec (x : Cut) (id : Bytes) :
    (∃ slot rec, x.load id = .ok (slot, rec) ∧ x.Execution id slot rec) ∨
      ((∃ e, x.load id = .error e) ∧ ¬ ∃ slot rec, x.Execution id slot rec) := by
  have hfind : NewestHit x id 0 x.turns.length (x.findTurn id) :=
    findChunks_spec (Nat.le_refl _) (Nat.le_refl _)
  have hlt : ∀ {slot rec}, x.turns[slot]? = some rec → slot < x.turns.length :=
    fun h => (List.getElem?_eq_some_iff.mp h).1
  unfold load
  cases hfound : x.findTurn id with
  | none =>
    rw [hfound] at hfind
    refine Or.inr ⟨⟨_, rfl⟩, ?_⟩
    rintro ⟨slot, rec, hget, hkind, hname, _⟩
    exact hfind slot (Nat.zero_le _) (hlt hget) ⟨rec, hget, by rw [hkind]; decide, hname⟩
  | some slot =>
    rw [hfound] at hfind
    obtain ⟨_, _, ⟨rec, hget, hlive, hname⟩, hnewest⟩ := hfind
    dsimp only
    rw [hget]
    dsimp only
    have hlast : ∀ later rec', slot < later → x.turns[later]? = some rec' → rec'.kind ≠ .legacy →
        rec'.id ≠ id := fun later rec' hlater hget' hlive' hname' =>
      hnewest later hlater (hlt hget') ⟨rec', hget', hlive', hname'⟩
    by_cases hkind : rec.kind = .execution
    · rw [if_pos hkind]
      exact Or.inl ⟨slot, rec, rfl, hget, hkind, hname, hlast⟩
    · rw [if_neg hkind]
      refine Or.inr ⟨⟨_, rfl⟩, ?_⟩
      rintro ⟨slot', rec', hget', hkind', hname', hnewest'⟩
      rcases Nat.lt_trichotomy slot slot' with hless | rfl | hless
      · exact hlast slot' rec' hless hget' (by rw [hkind']; decide) hname'
      · rw [hget] at hget'
        cases hget'
        exact hkind hkind'
      · exact hnewest' slot rec hless hget hlive hname

/-! ## Edges -/

/-- The item is an input of the slot that answers the parent. -/
def Names (x : Cut) (slot : Nat) (item : ItemRecord) (parent : Bytes) : Prop :=
  item.turn = slot ∧
    ((x.readEntry item.opener).kind = .userInput ∨ (x.readEntry item.opener).kind = .steering) ∧
    parent ∈ (x.readEntry item.opener).answerToTurnIDs

variable {slot : Nat} {rec : TurnRecord}

theorem checkParent_spec (h : x.Execution id slot rec) (parent : Bytes) :
    (x.checkParent id rec parent = .ok () ∧ x.Earlier parent id) ∨
      ((∃ e, x.checkParent id rec parent = .error e) ∧ ¬ x.Earlier parent id) := by
  unfold checkParent
  rcases load_spec x parent with ⟨slot', prior, hload, hprior⟩ | ⟨⟨e, hload⟩, hnone⟩
  · rw [hload]
    dsimp only [bind, Except.bind]
    by_cases hearlier : rec.firstOrdinal ≤ prior.firstOrdinal
    · rw [if_pos hearlier]
      refine Or.inr ⟨⟨_, rfl⟩, ?_⟩
      rintro ⟨slot₁, rec₁, slot₂, prior₁, hrec₁, hprior₁, hless⟩
      rw [(h.unique hrec₁).2, (hprior.unique hprior₁).2] at hearlier
      omega
    · rw [if_neg hearlier]
      exact Or.inl ⟨rfl, slot, rec, slot', prior, h, hprior, by omega⟩
  · rw [hload]
    refine Or.inr ⟨⟨e, rfl⟩, ?_⟩
    rintro ⟨_, _, slot₂, prior, _, hprior, _⟩
    exact hnone ⟨slot₂, prior, hprior⟩

theorem checkParents_spec (h : x.Execution id slot rec) (parents : List Bytes) :
    (parents.forM (x.checkParent id rec) = .ok () ∧ ∀ parent ∈ parents, x.Earlier parent id) ∨
      ((∃ e, parents.forM (x.checkParent id rec) = .error e) ∧
        ∃ parent ∈ parents, ¬ x.Earlier parent id) := by
  induction parents with
  | nil => exact Or.inl ⟨rfl, fun _ h => nomatch h⟩
  | cons parent parents ih =>
    have hcons : (parent :: parents).forM (x.checkParent id rec) =
        (x.checkParent id rec parent >>= fun _ => parents.forM (x.checkParent id rec)) := rfl
    rw [hcons]
    rcases checkParent_spec h parent with ⟨hok, hearlier⟩ | ⟨⟨e, herror⟩, hlate⟩
    · rw [hok]
      rcases ih with ⟨hrest, hall⟩ | ⟨hrest, late, hmem, hlate⟩
      · refine Or.inl ⟨hrest, fun p hp => ?_⟩
        rcases mem_cons.mp hp with rfl | hp
        · exact hearlier
        · exact hall p hp
      · exact Or.inr ⟨hrest, late, mem_cons_of_mem _ hmem, hlate⟩
    · rw [herror]
      exact Or.inr ⟨⟨e, rfl⟩, parent, mem_cons_self, hlate⟩

/-- What a scan of some items comes to. -/
inductive Scans (x : Cut) (id : Bytes) (slot : Nat) (items : List ItemRecord) :
    Except ContinuationError (List Bytes) → Prop where
  | ok {parents : List Bytes}
      (hmem : ∀ parent, parent ∈ parents ↔ ∃ item ∈ items, x.Names slot item parent)
      (hall : ∀ parent ∈ parents, x.Earlier parent id) : Scans x id slot items (.ok parents)
  | error {e : ContinuationError} {item : ItemRecord} {parent : Bytes} (hitem : item ∈ items)
      (hnames : x.Names slot item parent) (hlate : ¬ x.Earlier parent id) :
      Scans x id slot items (.error e)

theorem scanItem_spec (h : x.Execution id slot rec) (item : ItemRecord) :
    Scans x id slot [item] (x.scanItem id slot rec item) := by
  have hnothing : (∀ parent, ¬ x.Names slot item parent) → Scans x id slot [item] (.ok []) := by
    intro hnone
    refine .ok (fun parent => ?_) (fun _ h => nomatch h)
    simp [hnone]
  unfold scanItem
  by_cases hturn : item.turn = slot
  · rw [if_neg (not_not.mpr hturn)]
    by_cases hkind : (x.readEntry item.opener).kind ≠ .userInput ∧
        (x.readEntry item.opener).kind ≠ .steering
    · rw [if_pos hkind]
      refine hnothing fun parent hnames => ?_
      rcases hnames.2.1 with hinput | hsteering
      · exact hkind.1 hinput
      · exact hkind.2 hsteering
    · rw [if_neg hkind]
      have hinput : (x.readEntry item.opener).kind = .userInput ∨
          (x.readEntry item.opener).kind = .steering := by
        by_contra hneither
        rw [not_or] at hneither
        exact hkind hneither
      rcases checkParents_spec h (x.readEntry item.opener).answerToTurnIDs with
        ⟨hok, hall⟩ | ⟨⟨e, herror⟩, parent, hmem, hlate⟩
      · rw [hok]
        refine .ok (fun parent => ?_) hall
        simp [Names, hturn, hinput]
      · rw [herror]
        exact .error (mem_singleton_self item) ⟨hturn, hinput, hmem⟩ hlate
  · rw [if_pos hturn]
    exact hnothing fun parent hnames => hturn hnames.1

theorem Scans.append {items items' : List ItemRecord}
    {here rest : Except ContinuationError (List Bytes)} (h : Scans x id slot items here)
    (h' : Scans x id slot items' rest) :
    Scans x id slot (items ++ items')
      (here >>= fun here => rest >>= fun rest => pure (here ++ rest)) := by
  cases h with
  | error hitem hnames hlate => exact .error (mem_append_left _ hitem) hnames hlate
  | @ok here hmem hall =>
    cases h' with
    | error hitem hnames hlate => exact .error (mem_append_right _ hitem) hnames hlate
    | @ok rest hmem' hall' =>
      refine .ok (fun parent => ?_) fun parent hparent => ?_
      · rw [mem_append, hmem, hmem']
        constructor
        · rintro (⟨item, hitem, hnames⟩ | ⟨item, hitem, hnames⟩)
          · exact ⟨item, mem_append_left _ hitem, hnames⟩
          · exact ⟨item, mem_append_right _ hitem, hnames⟩
        · rintro ⟨item, hitem, hnames⟩
          rcases mem_append.mp hitem with hitem | hitem
          · exact Or.inl ⟨item, hitem, hnames⟩
          · exact Or.inr ⟨item, hitem, hnames⟩
      · rcases mem_append.mp hparent with hparent | hparent
        · exact hall parent hparent
        · exact hall' parent hparent

theorem Scans.none : Scans x id slot [] (.ok []) :=
  .ok (fun _ => by simp) fun _ h => nomatch h

theorem scanItems_spec (h : x.Execution id slot rec) (items : List ItemRecord) :
    Scans x id slot items (x.scanItems id slot rec items) := by
  induction items with
  | nil => exact .none
  | cons item items ih => exact (scanItem_spec h item).append ih

theorem scanChunks_spec (h : x.Execution id slot rec) {fuel start : Nat}
    (hfuel : x.items.length - start ≤ fuel) :
    Scans x id slot (x.items.drop start) (x.scanChunks id slot rec fuel start) := by
  induction fuel generalizing start with
  | zero =>
    rw [drop_eq_nil_of_le (by omega)]
    exact .none
  | succ fuel ih =>
    rw [scanChunks]
    split
    · next hend =>
      rw [drop_eq_nil_of_le hend]
      exact .none
    · next hmore =>
      have hchunk : 0 < min chunk (x.items.length - start) := by
        unfold chunk
        omega
      have hsplit : x.items.drop start =
          (x.items.drop start).take (min chunk (x.items.length - start)) ++
            x.items.drop (start + min chunk (x.items.length - start)) := by
        rw [← drop_drop, take_append_drop]
      have hrest : Scans x id slot (x.items.drop (start + min chunk (x.items.length - start)))
          (x.scanChunks id slot rec fuel (start + min chunk (x.items.length - start))) :=
        ih (by omega)
      have hboth := (scanItems_spec h
        ((x.items.drop start).take (min chunk (x.items.length - start)))).append hrest
      rw [← hsplit] at hboth
      exact hboth

/-- One visit: the parents of an execution, or an error where it is broken. -/
theorem visit_spec (x : Cut) (id : Bytes) :
    (∃ parents, x.visit id = .ok parents ∧ ¬ x.Broken id ∧
      ∀ parent, parent ∈ parents ↔ x.Answers id parent) ∨
      ((∃ e, x.visit id = .error e) ∧ x.Broken id) := by
  unfold visit
  rcases load_spec x id with ⟨slot, rec, hload, hexecution⟩ | ⟨⟨e, hload⟩, hnone⟩
  · rw [hload]
    dsimp only [bind, Except.bind]
    have hanswers : ∀ parent, x.Answers id parent ↔
        ∃ item ∈ x.items, x.Names slot item parent := by
      intro parent
      constructor
      · rintro ⟨slot', rec', item, hexecution', hitem, hturn, hkind, hmem⟩
        obtain ⟨rfl, _⟩ := hexecution.unique hexecution'
        exact ⟨item, hitem, hturn, hkind, hmem⟩
      · rintro ⟨item, hitem, hturn, hkind, hmem⟩
        exact ⟨slot, rec, item, hexecution, hitem, hturn, hkind, hmem⟩
    have hscan := scanChunks_spec hexecution (Nat.sub_le x.items.length 0)
    rw [drop_zero] at hscan
    generalize x.scanChunks id slot rec x.items.length 0 = r at hscan
    cases hscan with
    | @ok parents hmem hall =>
      refine Or.inl ⟨parents, rfl, ?_, fun parent => by rw [hmem, hanswers]⟩
      rintro (hmissing | ⟨parent, hedge, hlate⟩)
      · exact hmissing ⟨slot, rec, hexecution⟩
      · exact hlate (hall parent ((hmem parent).mpr ((hanswers parent).mp hedge)))
    | @error e item parent hitem hnames hlate =>
      exact Or.inr ⟨⟨e, rfl⟩,
        Or.inr ⟨parent, (hanswers parent).mpr ⟨item, hitem, hnames⟩, hlate⟩⟩
  · rw [hload]
    exact Or.inr ⟨⟨e, rfl⟩, Or.inl hnone⟩

/-! ## The walk -/

theorem walk_eq (x : Cut) (ancestor : Bytes) (fuel : Nat) (pending seen : List Bytes) :
    x.walk ancestor fuel pending seen (ancestor ∈ seen) =
      (explore x.visit fuel pending seen).map fun r => r.map fun all => decide (ancestor ∈ all) := by
  induction fuel generalizing pending seen with
  | zero => rfl
  | succ fuel ih =>
    cases pending with
    | nil => rfl
    | cons id pending =>
      rw [walk, explore]
      split
      · exact ih pending seen
      · cases x.visit id with
        | error e => rfl
        | ok parents =>
          have hmatched : (decide (ancestor ∈ seen) || decide (id = ancestor)) =
              decide (ancestor ∈ id :: seen) := by
            rw [Bool.or_comm, ← Bool.decide_or]
            simp [eq_comm]
          dsimp only
          rw [hmatched, ih]
          congr!

theorem visit_nodes {next : List Bytes} (h : x.visit id = .ok next) :
    id ∈ x.turns.map TurnRecord.id := by
  rcases load_spec x id with ⟨slot, rec, _, hget, _, hname, _⟩ | ⟨⟨e, hload⟩, _⟩
  · exact mem_map.mpr ⟨rec, mem_of_getElem? hget, hname⟩
  · unfold visit at h
    rw [hload] at h
    cases h

theorem expands_iff {next : Bytes} : Expands x.visit id next ↔ x.Answers id next ∧ ¬ x.Broken id := by
  rcases visit_spec x id with ⟨parents, hvisit, hwhole, hmem⟩ | ⟨⟨e, hvisit⟩, hbroken⟩
  · constructor
    · rintro ⟨next', hnext, hin⟩
      rw [hvisit] at hnext
      cases hnext
      exact ⟨(hmem next).mp hin, hwhole⟩
    · rintro ⟨hanswers, _⟩
      exact ⟨parents, hvisit, (hmem next).mpr hanswers⟩
  · constructor
    · rintro ⟨next', hnext, _⟩
      rw [hvisit] at hnext
      cases hnext
    · rintro ⟨_, hwhole⟩
      exact absurd hbroken hwhole

/-- Reached along edges alone: reached by the walk, or behind something broken that is. -/
theorem reaches_of_answers {candidate : Bytes}
    (h : Relation.ReflTransGen x.Answers candidate id) :
    Reaches x.visit candidate id ∨ ∃ broken, Reaches x.visit candidate broken ∧ x.Broken broken := by
  induction h with
  | refl => exact Or.inl .refl
  | @tail a b _ hedge ih =>
    rcases ih with hreached | hbroken
    · by_cases hbroken : x.Broken a
      · exact Or.inr ⟨a, hreached, hbroken⟩
      · exact Or.inl (hreached.tail (expands_iff.mpr ⟨hedge, hbroken⟩))
    · exact Or.inr hbroken

theorem answers_of_reaches {candidate : Bytes} (h : Reaches x.visit candidate id) :
    Relation.ReflTransGen x.Answers candidate id := by
  induction h with
  | refl => exact .refl
  | tail _ hstep ih => exact ih.tail (expands_iff.mp hstep).1

theorem answerContinuation_spec (x : Cut) {ancestor candidate : Bytes}
    {held : Option SnapshotIdentity} (hancestor : ancestor ≠ []) (hcandidate : candidate ≠ [])
    (hheld : ¬ x.stale held) :
    ∃ bound r, (∀ fuel, bound ≤ fuel →
        x.answerContinuation fuel ancestor candidate held = some r) ∧
      ((∃ e, r = .error e) ↔ (¬ ∃ slot rec, x.Execution ancestor slot rec) ∨
        ∃ id, Relation.ReflTransGen x.Answers candidate id ∧ x.Broken id) ∧
      ∀ matched identity, r = .ok (matched, identity) → identity = x.identity ∧
        (matched = true ↔ Relation.ReflTransGen x.Answers candidate ancestor) := by
  have hboth : ¬ (ancestor = [] ∨ candidate = []) := fun h => h.elim hancestor hcandidate
  rcases load_spec x ancestor with ⟨slot, rec, hload, hexecution⟩ | ⟨⟨e, hload⟩, hnone⟩
  · obtain ⟨bound, r, hwalk⟩ := explore_result (x.turns.map TurnRecord.id)
      (fun _ _ hvisit => visit_nodes hvisit) [candidate] []
    have hresult : ∀ fuel, bound ≤ fuel → x.walk ancestor fuel [candidate] [] false =
        some (r.map fun all => decide (ancestor ∈ all)) := by
      intro fuel hfuel
      have heq := walk_eq x ancestor fuel [candidate] []
      rw [hwalk fuel hfuel] at heq
      exact heq
    refine ⟨bound, r.map fun all => (decide (ancestor ∈ all), x.identity), fun fuel hfuel => ?_, ?_⟩
    · unfold answerContinuation
      rw [if_neg hboth, if_neg hheld, hload]
      rw [hresult fuel hfuel]
      cases r <;> rfl
    · rcases explore_spec (Explored.initial candidate) (hwalk bound (Nat.le_refl bound)) with
        ⟨all, rfl, hall, hexpand⟩ | ⟨e, id, rfl, hreached, herror⟩
      · have hwhole : ∀ id, Reaches x.visit candidate id → ¬ x.Broken id := by
          intro id hreached hbroken
          obtain ⟨next, hnext⟩ := hexpand id ((hall id).mpr hreached)
          rcases visit_spec x id with ⟨_, _, hfine, _⟩ | ⟨⟨e, hvisit⟩, _⟩
          · exact hfine hbroken
          · rw [hvisit] at hnext
            cases hnext
        have hreach : ∀ id, Reaches x.visit candidate id ↔
            Relation.ReflTransGen x.Answers candidate id := by
          intro id
          refine ⟨answers_of_reaches, fun hreached => ?_⟩
          rcases reaches_of_answers hreached with hreached | ⟨broken, hreached, hbroken⟩
          · exact hreached
          · exact absurd hbroken (hwhole broken hreached)
        refine ⟨⟨fun herror => ?_, fun hbad => ?_⟩, fun matched identity hr => ?_⟩
        · obtain ⟨e, he⟩ := herror
          cases he
        · rcases hbad with hnone | ⟨id, hreached, hbroken⟩
          · exact absurd ⟨slot, rec, hexecution⟩ hnone
          · exact absurd hbroken (hwhole id ((hreach id).mpr hreached))
        · obtain ⟨rfl, rfl⟩ := Prod.mk.inj (Except.ok.inj hr)
          refine ⟨rfl, ?_⟩
          rw [decide_eq_true_iff, hall, hreach]
      · refine ⟨⟨fun _ => Or.inr ⟨id, answers_of_reaches hreached, ?_⟩, fun _ => ⟨e, rfl⟩⟩,
          fun _ _ hr => nomatch hr⟩
        rcases visit_spec x id with ⟨_, hvisit, _⟩ | ⟨_, hbroken⟩
        · rw [hvisit] at herror
          cases herror
        · exact hbroken
  · have hrun : ∀ fuel, x.answerContinuation fuel ancestor candidate held = some (.error e) := by
      intro fuel
      unfold answerContinuation
      rw [if_neg hboth, if_neg hheld, hload]
    exact ⟨0, .error e, fun fuel _ => hrun fuel, ⟨fun _ => Or.inl hnone, fun _ => ⟨e, rfl⟩⟩,
      fun _ _ hr => nomatch hr⟩

/-- Answer continuation ends, fails just where it is asked for a cut that is not this index's or
    where the cut is broken on the way from the candidate, and else tells whether the ancestor is
    reached. -/
theorem answer_continuation (x : Cut) (held : Option SnapshotIdentity) {ancestor candidate : Bytes}
    (hancestor : ancestor ≠ []) (hcandidate : candidate ≠ []) :
    ∃ bound r, (∀ fuel, bound ≤ fuel →
        x.answerContinuation fuel ancestor candidate held = some r) ∧
      ((∃ e, r = .error e) ↔ x.stale held ∨ (¬ ∃ slot rec, x.Execution ancestor slot rec) ∨
        ∃ id, Relation.ReflTransGen x.Answers candidate id ∧ x.Broken id) ∧
      ∀ matched identity, r = .ok (matched, identity) → identity = x.identity ∧
        (matched = true ↔ Relation.ReflTransGen x.Answers candidate ancestor) := by
  by_cases hheld : x.stale held
  · have hboth : ¬ (ancestor = [] ∨ candidate = []) := fun h => h.elim hancestor hcandidate
    have hrun : ∀ fuel, x.answerContinuation fuel ancestor candidate held =
        some (.error .cursorStale) := by
      intro fuel
      unfold answerContinuation
      rw [if_neg hboth, if_pos hheld]
    exact ⟨0, .error .cursorStale, fun fuel _ => hrun fuel,
      ⟨fun _ => Or.inl hheld, fun _ => ⟨_, rfl⟩⟩, fun _ _ hr => nomatch hr⟩
  · obtain ⟨bound, r, hrun, herror, hok⟩ :=
      answerContinuation_spec x hancestor hcandidate hheld
    refine ⟨bound, r, hrun, ?_, hok⟩
    rw [herror, or_iff_right hheld]

/-- Two executions, the second one started by an answer to the first. -/
def twoExecutions : Cut where
  identity := ⟨[1], 9⟩
  turns := [⟨[97], .execution, 1⟩, ⟨[98], .execution, 5⟩]
  items := [⟨1, ⟨4, 5⟩⟩]
  readEntry _ := ⟨.userInput, [[97]]⟩

theorem answer_continues : ∃ bound r, (∀ fuel, bound ≤ fuel →
        twoExecutions.answerContinuation fuel [97] [98] none = some r) ∧
      ((∃ e, r = .error e) ↔ twoExecutions.stale none ∨
        (¬ ∃ slot rec, twoExecutions.Execution [97] slot rec) ∨
        ∃ id, Relation.ReflTransGen twoExecutions.Answers [98] id ∧ twoExecutions.Broken id) ∧
      ∀ matched identity, r = .ok (matched, identity) → identity = twoExecutions.identity ∧
        (matched = true ↔ Relation.ReflTransGen twoExecutions.Answers [98] [97]) :=
  answer_continuation twoExecutions none (by decide) (by decide)

/-- A cut of another incarnation is refused, with nothing broken in the index. -/
theorem stale_cut_refused : ¬ ∀ (x : Cut) (held : Option SnapshotIdentity)
    (ancestor candidate : Bytes), ancestor ≠ [] → candidate ≠ [] →
    ∃ bound r, (∀ fuel, bound ≤ fuel →
        x.answerContinuation fuel ancestor candidate held = some r) ∧
      ((∃ e, r = .error e) ↔ (¬ ∃ slot rec, x.Execution ancestor slot rec) ∨
        ∃ id, Relation.ReflTransGen x.Answers candidate id ∧ x.Broken id) := by
  intro h
  let lone : Cut := ⟨⟨[1], 9⟩, [⟨[97], .execution, 1⟩], [], fun _ => ⟨.other, []⟩⟩
  obtain ⟨bound, r, hrun, herror⟩ := h lone (some ⟨[2], 9⟩) [97] [97] (by decide) (by decide)
  have hexecution : lone.Execution [97] 0 ⟨[97], .execution, 1⟩ := by
    refine ⟨rfl, rfl, rfl, fun later rec hlater hget => ?_⟩
    obtain ⟨later, rfl⟩ := Nat.exists_eq_succ_of_ne_zero (by omega : later ≠ 0)
    cases hget
  have hedges : ∀ id parent, ¬ lone.Answers id parent := by
    rintro id parent ⟨slot, rec, item, _, hitem, _⟩
    cases hitem
  have hrefused : r = .error .cursorStale := by
    have hr := hrun bound (Nat.le_refl bound)
    cases hr
    rfl
  rcases herror.mp ⟨_, hrefused⟩ with hnone | ⟨id, hreached, hbroken⟩
  · exact hnone ⟨_, _, hexecution⟩
  · rcases hreached.cases_head with rfl | ⟨parent, hedge, _⟩
    · rcases hbroken with hnone | ⟨parent, hedge, _⟩
      · exact hnone ⟨_, _, hexecution⟩
      · exact hedges _ parent hedge
    · exact hedges _ parent hedge

end Cut

end Evener.TranscriptIndex
