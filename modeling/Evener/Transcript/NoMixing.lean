/-
  Histories never mix.

  `Carried log h`: every recorded item of `h` was carried, in its current version, by a delivered
  message under `h`'s own boot generation, epoch and incarnation. Boot generations are compared up
  to `BootApplies`, not by equality: a merge keeps the held token, and a later read may install an
  equivalent one (`Carried.rename`).
-/
import Evener.Transcript.HistoryStep

namespace Evener.Transcript

open Evener.Lib List

/-! ## Messages -/

/-- What names a recorded row. -/
structure RowKey where
  turnId : String
  identity : String
  version : Option Nat
deriving DecidableEq, Repr

def rowKey (item : ItemModel) : RowKey := ⟨item.turnId, itemIdentity item, item.version⟩

theorem rowKey_of_sameRow {r i : ItemModel} (h : SameRow r i) : rowKey i = rowKey r := by
  unfold rowKey
  rw [h.1, h.2.1, h.2.2]

structure Message where
  bootGeneration : String
  epoch : Nat
  incarnation : Option String
  rows : List RowKey
deriving DecidableEq, Repr

/-- A row's key does not depend on the route its images are served under. -/
def fragmentRows (fragment : HistoryFragment) : List RowKey := fragment.items.map rowKey

theorem fragmentRows_splitWireTurns (turns : List Turn) (route : Option String) :
    fragmentRows (splitWireTurns turns route) = fragmentRows (splitWireTurns turns none) := by
  unfold fragmentRows splitWireTurns
  rw [map_flatMap, map_flatMap]
  congr 1
  funext turn
  rw [map_map, map_map]
  refine map_congr_left fun wire _ => ?_
  by_cases hid : wire.turnId.getD "" = "" <;>
    simp [wireItemToModel, rowKey, itemIdentity, hid]

theorem fragmentRows_wireFragment (turns : Option (List Turn)) (items : Option (List ThreadItem))
    (route : Option String) :
    fragmentRows (wireFragment turns items route) = fragmentRows (wireFragment turns items none) := by
  unfold fragmentRows wireFragment
  rw [map_map, map_map]
  rfl

def readMessage (resp : ThreadReadResponse) : Message where
  bootGeneration := resp.identity.bootGeneration
  epoch := resp.identity.epoch
  incarnation := resp.identity.incarnation
  rows := fragmentRows (splitWireTurns (resp.thread.turns.getD []) none) ++
    (match resp.changes with
      | some changes => fragmentRows (wireFragment changes.turns changes.items none)
      | none => [])

def updateMessage (params : HistoryUpdatedParams) : Message where
  bootGeneration := params.bootGeneration
  epoch := params.epoch
  incarnation := some params.snapshot.incarnation
  rows := fragmentRows (wireFragment params.turns params.items none)

def pageMessage (resp : ThreadTurnsListResponse) : Message where
  bootGeneration := resp.identity.bootGeneration
  epoch := resp.identity.epoch
  incarnation := resp.identity.incarnation
  rows := fragmentRows (splitWireTurns (resp.data.getD []) none)

/-- The message an operation delivers to the thread `ref`. -/
def opMessages (ref : String) : ClientOp → List Message
  | .applyReadResponse resp _ => [readMessage resp]
  | .notify (.historyUpdated params) => if params.ref = ref then [updateMessage params] else []
  | .mergeOlderItemPage resp => [pageMessage resp]
  | _ => []

def runMessages (ref : String) (ops : List (ClientOp × Nat)) : List Message :=
  ops.flatMap fun op => opMessages ref op.1

theorem runMessages_append (ref : String) (ops : List (ClientOp × Nat)) (op : ClientOp × Nat) :
    runMessages ref (ops ++ [op]) = runMessages ref ops ++ opMessages ref op.1 := by
  simp [runMessages]

/-! ## The invariant -/

/-- Every item of `turns` was carried by a delivered message of the history `identity` names. -/
def Carried (log : List Message) (identity : ReadIdentity) (turns : List TurnModel) : Prop :=
  ∀ id i, HoldsItem turns id i → ∃ msg ∈ log,
    Matches identity msg.bootGeneration msg.epoch msg.incarnation ∧ rowKey i ∈ msg.rows

structure HistoryInv (log : List Message) (h : HistoryState) : Prop where
  carried : Carried log h.toReadIdentity h.turns
  calm : h.Calm
  pages : ∀ p ∈ h.deferredPages, p.snapshot.isSome ∧ pageMessage p ∈ log

variable {identity : ReadIdentity} {log : List Message} {turns : List TurnModel} {h : HistoryState}

theorem Carried.mono {log' : List Message} (h : Carried log identity turns)
    (hsub : ∀ m ∈ log, m ∈ log') : Carried log' identity turns := by
  intro id i hi
  obtain ⟨msg, hmsg, hrest⟩ := h id i hi
  exact ⟨msg, hsub msg hmsg, hrest⟩

theorem HistoryInv.mono {log' : List Message} (hinv : HistoryInv log h) (hsub : ∀ m ∈ log, m ∈ log') :
    HistoryInv log' h :=
  ⟨hinv.carried.mono hsub, hinv.calm, fun p hp => (hinv.pages p hp).imp id (hsub _)⟩

theorem carried_nil (log : List Message) (identity : ReadIdentity) : Carried log identity [] := by
  rintro id i ⟨t, ht, -⟩
  cases ht

/-- A history may take over the identity of a read that matches it. -/
theorem Carried.rename {held : ReadIdentity} (h : Carried log held turns)
    (hm : Matches held identity.bootGeneration identity.epoch identity.incarnation) :
    Carried log identity turns := by
  intro id i hi
  obtain ⟨msg, hmsg, hmatch, hrow⟩ := h id i hi
  refine ⟨msg, hmsg, ⟨?_, ?_, ?_⟩, hrow⟩
  · exact bootApplies_trans (bootApplies_symm hm.boot) hmatch.boot
  · rw [hmatch.epoch, hm.epoch]
  · rw [hmatch.incarnation, hm.incarnation]

/-- Merging rows of a matching message keeps every item carried. -/
theorem Carried.merge (h : Carried log identity turns) {msg : Message} (hmsg : msg ∈ log)
    (hm : Matches identity msg.bootGeneration msg.epoch msg.incarnation)
    {fragment : HistoryFragment} (hrows : ∀ r ∈ fragmentRows fragment, r ∈ msg.rows)
    (heldOnly : Bool) : Carried log identity (mergeHistory turns fragment heldOnly) := by
  intro id i hi
  rcases mergeHistory_item_from hi with hheld | ⟨r, hr, -, hsame⟩
  · exact h id i hheld
  · refine ⟨msg, hmsg, hm, ?_⟩
    rw [rowKey_of_sameRow hsame]
    exact hrows _ (mem_map_of_mem hr)

theorem dropItemsInRange_holdsItem {start : ThreadItemPosition} {stop : Option ThreadItemPosition}
    {id : String} {i : ItemModel} (h : HoldsItem (dropItemsInRange turns start stop) id i) :
    HoldsItem turns id i := by
  obtain ⟨t, ht, rfl, hi⟩ := h
  unfold dropItemsInRange at ht
  obtain ⟨t', ht', heq⟩ := mem_filterMap.mp ht
  dsimp only at heq
  split at heq
  · cases heq
    exact ⟨t, ht', rfl, hi⟩
  · split at heq
    · cases heq
      exact ⟨t', ht', rfl, mem_of_mem_filter hi⟩
    · cases heq

theorem Carried.drop (h : Carried log identity turns) (start : ThreadItemPosition)
    (stop : Option ThreadItemPosition) :
    Carried log identity (dropItemsInRange turns start stop) :=
  fun id i hi => h id i (dropItemsInRange_holdsItem hi)

theorem Carried.pageTurns (h : Carried log identity turns) {page : ThreadTurnsListResponse}
    (hpage : pageMessage page ∈ log) (hm : PageMatches identity page) (route : Option String) :
    Carried log identity (pageTurns route turns page) := by
  have hrows : ∀ r ∈ fragmentRows (splitWireTurns (page.data.getD []) route),
      r ∈ (pageMessage page).rows := by
    intro r hr
    rw [fragmentRows_splitWireTurns] at hr
    exact hr
  unfold Transcript.pageTurns
  dsimp only
  split
  · exact (h.drop _ _).merge hpage hm hrows false
  · exact h.merge hpage hm hrows false

/-! ## One step -/

theorem HistoryInv.invalidated (hinv : HistoryInv log h) (signal : HistorySignal) :
    HistoryInv log (invalidated h signal) := by
  refine ⟨hinv.carried, fun hlive => ?_, hinv.pages⟩
  rw [invalidated_live] at hlive
  cases hlive

theorem HistoryInv.page (hinv : HistoryInv log h) {page : ThreadTurnsListResponse}
    (hsnap : page.snapshot.isSome) (hpage : pageMessage page ∈ log) (route : Option String) :
    HistoryInv log (pageHistory route h page) := by
  have hdeferred : ∀ pages : List ThreadTurnsListResponse, (∀ p ∈ pages, p = page) →
      ∀ p ∈ h.deferredPages ++ pages, p.snapshot.isSome ∧ pageMessage p ∈ log := by
    intro pages hpages p hp
    rcases mem_append.mp hp with hp | hp
    · exact hinv.pages p hp
    · rw [hpages p hp]
      exact ⟨hsnap, hpage⟩
  refine ⟨?_, pageHistory_calm hinv.calm, ?_⟩
  · rw [(pageHistory_sameRead route h page).identity]
    rcases pageHistory_cases route h page with heq | ⟨-, heq⟩ | ⟨ps, -, heq⟩ | ⟨hd, heq⟩
    · rw [heq]
      exact hinv.carried
    · rw [heq]
      exact hinv.carried
    · rw [heq]
      exact hinv.carried
    · rw [heq]
      have hinc : page.identity.incarnation.isSome := by
        simpa [ThreadTurnsListResponse.identity, readIdentity] using hsnap
      exact hinv.carried.pageTurns hpage (pageDisposition_merge hinv.calm hinc hd) route
  · rcases pageHistory_cases route h page with heq | ⟨-, heq⟩ | ⟨ps, hps, heq⟩ | ⟨-, heq⟩
    · rw [heq]
      exact hinv.pages
    · rw [heq]
      exact hdeferred [page] (by simp)
    · rw [heq]
      exact hdeferred ps hps
    · rw [heq]
      exact hinv.pages

/-- The turns of a read, whatever its disposition, are carried under the read's identity. -/
theorem carried_turnsAfterRead (hinv : HistoryInv log h) {resp : ThreadReadResponse}
    (hread : readMessage resp ∈ log) (disposition : ReadDisposition)
    (hdisp : readDisposition h resp.generation resp.identity = disposition) (route : Option String) :
    Carried log resp.identity (turnsAfterRead h disposition resp route) := by
  have hself : Matches resp.identity (readMessage resp).bootGeneration (readMessage resp).epoch
      (readMessage resp).incarnation := ⟨bootApplies_refl _, rfl, rfl⟩
  have hfresh : ∀ r ∈ fragmentRows (splitWireTurns (resp.thread.turns.getD []) route),
      r ∈ (readMessage resp).rows := by
    intro r hr
    rw [fragmentRows_splitWireTurns] at hr
    exact mem_append_left _ hr
  have hnew : Carried log resp.identity
      (mergeHistory [] (splitWireTurns (resp.thread.turns.getD []) route)) :=
    (carried_nil _ _).merge hread hself hfresh false
  cases disposition with
  | discard => exact hnew
  | replace => exact hnew
  | merge =>
    have hid := (readDisposition_spec (by rw [hdisp]; decide)).2
    rw [hdisp] at hid
    have hheld := hinv.carried.rename (identityDisposition_merge hid.symm).2
    have hkept : Carried log resp.identity
        (if resp.authoritative then
          dropItemsInRange h.turns (((fragmentRange (splitWireTurns (resp.thread.turns.getD [])
            route).items).map Prod.fst).getD { entry := 0, item := 0 })
        else h.turns) := by
      split
      · exact hheld.drop _ _
      · exact hheld
    have hmerged := hkept.merge hread hself hfresh false
    unfold turnsAfterRead
    cases hch : resp.changes with
    | none => exact hmerged
    | some changes =>
      refine hmerged.merge hread hself (fun r hr => ?_) true
      rw [fragmentRows_wireFragment] at hr
      refine mem_append_right _ ?_
      rw [hch]
      exact hr

theorem HistoryInv.read (hinv : HistoryInv log h) {resp : ThreadReadResponse}
    (hread : readMessage resp ∈ log) (disposition : ReadDisposition)
    (hdisp : readDisposition h resp.generation resp.identity = disposition) (route : Option String) :
    HistoryInv log (deferredHistory route resp.identity.incarnation
      (historyAfterRead h disposition resp route) h.deferredPages) := by
  have hstart : HistoryInv log (historyAfterRead h disposition resp route) :=
    ⟨carried_turnsAfterRead hinv hread disposition hdisp route, fun _ => rfl, by
      intro p hp
      cases hp⟩
  unfold deferredHistory
  refine List.foldlRecOn (motive := HistoryInv log) _ _ hstart fun history hhist page hp => ?_
  split
  · exact hhist.page (hinv.pages page hp).1 (hinv.pages page hp).2 route
  · exact hhist

theorem HistoryStep.inv {ref : String} {op : ClientOp} {h' : HistoryState}
    (hstep : HistoryStep ref op h h') (hsnap : op.NamesSnapshot) (hinv : HistoryInv log h) :
    HistoryInv (log ++ opMessages ref op) h' := by
  have hmono := hinv.mono fun m hm => mem_append_left (opMessages ref op) hm
  cases hstep with
  | same => exact hmono
  | issue => exact ⟨hmono.carried, hmono.calm, hmono.pages⟩
  | invalidate _ _ signal => exact hmono.invalidated signal
  | page resp _ route =>
    exact hmono.page hsnap (mem_append_right _ (mem_singleton.mpr rfl)) route
  | update params _ route htarget hlive hsignal =>
    have hmsg : updateMessage params ∈
        log ++ opMessages ref (.notify (.historyUpdated params)) := by
      simp [opMessages, htarget]
    have hm : Matches h.toReadIdentity params.bootGeneration params.epoch
        (some params.snapshot.incarnation) :=
      classifySignal_apply hlive (hinv.calm hlive) rfl hsignal
    refine ⟨hmono.carried.merge hmsg hm (fun r hr => ?_) false, hmono.calm, hmono.pages⟩
    rw [fragmentRows_wireFragment] at hr
    exact hr
  | fail diagnostic generation _ hfresh => exact ⟨hmono.carried, fun _ => rfl, hmono.pages⟩
  | read resp frontier _ disposition route hdisp happly =>
    exact hmono.read (mem_append_right _ (mem_singleton.mpr rfl)) disposition hdisp route

/-! ## Runs -/

/-- A model without history, or one hydrated from a read; with what was delivered by then. -/
def StartsFrom (U : UnversionedMerge) (model : ThreadModel) (log : List Message) : Prop :=
  (model.history = none ∧ log = []) ∨
    ∃ frame resp ref now frontier, model = hydrateThread U frame resp ref now frontier ∧
      log = [readMessage resp]

theorem historyInv_empty (log : List Message) : HistoryInv log emptyHistory :=
  ⟨carried_nil _ _, fun _ => rfl, fun p hp => by cases hp⟩

theorem StartsFrom.inv {U : UnversionedMerge} {model : ThreadModel} (h : StartsFrom U model log) :
    HistoryInv log (historyOf model) := by
  rcases h with ⟨hnone, -⟩ | ⟨frame, resp, ref, now, frontier, rfl, rfl⟩
  · unfold historyOf
    rw [hnone]
    exact historyInv_empty log
  · unfold hydrateThread
    split
    · exact historyInv_empty _
    · refine ⟨?_, fun _ => rfl, fun p hp => by cases hp⟩
      have hread : readMessage resp ∈ [readMessage resp] := mem_singleton.mpr rfl
      refine (carried_nil _ _).merge hread ⟨bootApplies_refl _, rfl, rfl⟩ (fun r hr => ?_) false
      rw [fragmentRows_splitWireTurns] at hr
      exact mem_append_left _ hr

theorem run_historyInv (U : UnversionedMerge) {c : Client} (hstart : StartsFrom U c.model log)
    (ops : List (ClientOp × Nat)) (hops : ∀ op ∈ ops, op.1.NamesSnapshot) :
    HistoryInv (log ++ runMessages c.model.ref ops) (historyOf (c.run U ops).model) := by
  refine run_history_induction (P := fun ops h => (∀ op ∈ ops, op.1.NamesSnapshot) →
    HistoryInv (log ++ runMessages c.model.ref ops) h) U c ?_ ?_ ops hops
  · intro _
    simpa [runMessages] using hstart.inv
  · intro ops op h h' ih hstep hops
    have hprev := ih fun o ho => hops o (mem_append_left _ ho)
    rw [runMessages_append, ← append_assoc]
    exact hstep.inv (hops op (mem_append_right _ (mem_singleton.mpr rfl))) hprev

/-- In every state a client reaches, every recorded item was carried, in its current version, by
    a delivered message of the very history that is held: its boot generation compares as
    `apply`, its epoch and its incarnation are equal. The deferred pages are delivered pages, and
    a read that applies there lets in only those of the identity it installs. -/
theorem history_never_mixes (U : UnversionedMerge) (c : Client) (log : List Message)
    (hstart : StartsFrom U c.model log) (ops : List (ClientOp × Nat))
    (hops : ∀ op ∈ ops, op.1.NamesSnapshot) (h : HistoryState)
    (hh : (c.run U ops).model.history = some h) :
    (∀ t ∈ h.turns, ∀ i ∈ t.items, ∃ msg ∈ log ++ runMessages c.model.ref ops,
      compareBootGeneration h.bootGeneration msg.bootGeneration = .apply ∧
      msg.epoch = h.epoch ∧ msg.incarnation = h.incarnation ∧ rowKey i ∈ msg.rows) ∧
    (∀ p ∈ h.deferredPages, pageMessage p ∈ log ++ runMessages c.model.ref ops) ∧
    (∀ resp frontier now, readDisposition h resp.generation resp.identity ≠ .discard →
      ∃ admitted : List ThreadTurnsListResponse, ∃ route h',
        ((c.run U ops).step U (.applyReadResponse resp frontier, now)).model.history = some h' ∧
        h'.toReadIdentity = resp.identity ∧
        admitted.Sublist h.deferredPages ∧
        (∀ p ∈ admitted, compareBootGeneration h'.bootGeneration p.identity.bootGeneration = .apply ∧
          p.identity.epoch = h'.epoch ∧ p.identity.incarnation = h'.incarnation) ∧
        h'.turns = admitted.foldl (pageTurns route)
          (turnsAfterRead h (readDisposition h resp.generation resp.identity) resp route)) := by
  have hinv := run_historyInv U hstart ops hops
  have hof := historyOf_some hh
  rw [hof] at hinv
  refine ⟨fun t ht i hi => ?_, fun p hp => (hinv.pages p hp).2, fun resp frontier now hdisp => ?_⟩
  · obtain ⟨msg, hmsg, hm, hrow⟩ := hinv.carried t.id i ⟨t, ht, rfl, hi⟩
    exact ⟨msg, hmsg, hm.boot, hm.epoch, hm.incarnation, hrow⟩
  · obtain ⟨h', route, hh', heq⟩ := applyReadResponse_applied (c.run U ops).frame hof hdisp frontier now
    have hcalm : (historyAfterRead h (readDisposition h resp.generation resp.identity) resp
        route).Calm := fun _ => rfl
    obtain ⟨admitted, hsub, hmatch, hturns, hsame, -⟩ := deferredHistory_spec route
      resp.identity.incarnation h.deferredPages (fun p hp => (hinv.pages p hp).1) hcalm
    rw [← heq] at hturns hsame
    have hid : h'.toReadIdentity = resp.identity := hsame.identity
    refine ⟨admitted, route, h', hh', hid, hsub, fun p hp => ?_, hturns⟩
    have hm := hmatch p hp
    rw [show (historyAfterRead h (readDisposition h resp.generation resp.identity) resp
      route).toReadIdentity = resp.identity from rfl, ← hid] at hm
    exact ⟨hm.boot, hm.epoch, hm.incarnation⟩

/-! ## A run through a new incarnation -/

def messageTurn (key : String) (entry : Nat) : Turn where
  id := "t1"
  status := "completed"
  version := some entry
  items := some [{
    type := "agentMessage", id := key, transcriptKey := some key, text := some key,
    position := some { entry := entry, item := 0 }, version := some entry }]

def messageRead (generation : Nat) (incarnation : String) (key : String) (entry : Nat) :
    ThreadReadResponse where
  thread := { id := "th", sessionId := "s", turns := some [messageTurn key entry] }
  requestGeneration := some generation
  bootGeneration := some "5"
  epoch := some 1
  snapshot := some ⟨incarnation, 10⟩

/-- A client of incarnation `i1`. -/
def hydratedClient : Client := ⟨1, hydrateThread plainMerge 0 (messageRead 0 "i1" "old" 3) "r" 0⟩

/-- An update announces `i2`, a page of `i2` waits, and the read of `i2` replaces the history. -/
def newIncarnationOps : List (ClientOp × Nat) :=
  [(.notify (.historyUpdated
      { ref := "r", bootGeneration := "5", epoch := 1, snapshot := ⟨"i2", 12⟩ }), 1),
    (.mergeOlderItemPage
      { data := some [messageTurn "a" 1], bootGeneration := some "5", epoch := some 1,
        snapshot := some ⟨"i2", 12⟩ }, 2),
    (.issueLatestWindowRead, 3),
    (.applyReadResponse (messageRead 1 "i2" "b" 7) "none", 4)]

theorem history_never_mixes_new_incarnation :
    ∃ h, (hydratedClient.run plainMerge newIncarnationOps).model.history = some h ∧
      h.turns.map (fun t => t.items.map (·.id)) = [["a", "b"]] ∧
      ∀ t ∈ h.turns, ∀ i ∈ t.items,
        ∃ msg ∈ readMessage (messageRead 0 "i1" "old" 3) ::
          runMessages "r" newIncarnationOps, msg.incarnation = some "i2" ∧ rowKey i ∈ msg.rows := by
  have hinc : ((hydratedClient.run plainMerge newIncarnationOps).model.history.bind
      (·.incarnation)) = some "i2" := by decide
  have hturns : ((hydratedClient.run plainMerge newIncarnationOps).model.history.map
      fun h => h.turns.map fun t => t.items.map (·.id)) = some [["a", "b"]] := by decide
  cases hh : (hydratedClient.run plainMerge newIncarnationOps).model.history with
  | none =>
    rw [hh] at hinc
    cases hinc
  | some h =>
    rw [hh] at hinc hturns
    refine ⟨h, rfl, Option.some.inj hturns, fun t ht i hi => ?_⟩
    have hmain := history_never_mixes plainMerge hydratedClient
      [readMessage (messageRead 0 "i1" "old" 3)] (Or.inr ⟨0, _, "r", 0, _, rfl, rfl⟩)
      newIncarnationOps (by simp [newIncarnationOps, ClientOp.NamesSnapshot]) h hh
    obtain ⟨msg, hmsg, -, -, hi', hrow⟩ := hmain.1 t ht i hi
    exact ⟨msg, hmsg, hi'.trans hinc, hrow⟩

end Evener.Transcript
