/-
  A selected read hands on every change of its source.

  The selected window holds all kept items of the source's window or some of them and nothing else
  (`Shown`); what it lacks `leftOut` puts among the changes, once for each key.
-/
import Mathlib.Data.List.Nodup
import Evener.Apphistory.Fill

namespace Evener.Apphistory

open Evener.Lib List Tx

/-! ## What is left out -/

/-- The items `leftOut` adds for those of `window`: none with a key in `kept`. -/
structure Added (selection : ThreadContentSelection) (window : List ThreadItem)
    (kept : List String) (added : List ThreadItem) : Prop where
  from_window : ∀ s ∈ added, ∃ i ∈ window, selection.item i = some s
  fresh : ∀ s ∈ added, s.transcriptKey ∉ kept
  distinct : (added.map ThreadItem.transcriptKey).Nodup
  covers : ∀ i ∈ window, ∀ s, selection.item i = some s →
    i.transcriptKey ∈ kept ∨ ∃ s' ∈ added, s'.transcriptKey = i.transcriptKey

variable {selection : ThreadContentSelection}

theorem added_nil (kept : List String) : Added selection [] kept [] :=
  ⟨fun _ h => absurd h not_mem_nil, fun _ h => absurd h not_mem_nil, nodup_nil,
    fun _ h => absurd h not_mem_nil⟩

/-- The keys kept after some items were added. -/
def KeptAfter (kept : List String) (added : List ThreadItem) (kept' : List String) : Prop :=
  ∀ key, key ∈ kept' ↔ key ∈ kept ∨ key ∈ added.map ThreadItem.transcriptKey

theorem Added.append {window window' : List ThreadItem} {kept kept' : List String}
    {added added' : List ThreadItem} (h : Added selection window kept added)
    (hkept : KeptAfter kept added kept') (h' : Added selection window' kept' added') :
    Added selection (window ++ window') kept (added ++ added') where
  from_window s hs := by
    rcases mem_append.mp hs with hs | hs
    · obtain ⟨i, hi, hshown⟩ := h.from_window s hs
      exact ⟨i, mem_append_left _ hi, hshown⟩
    · obtain ⟨i, hi, hshown⟩ := h'.from_window s hs
      exact ⟨i, mem_append_right _ hi, hshown⟩
  fresh s hs := by
    rcases mem_append.mp hs with hs | hs
    · exact h.fresh s hs
    · exact fun hold => h'.fresh s hs ((hkept _).mpr (Or.inl hold))
  distinct := by
    rw [map_append, nodup_append]
    refine ⟨h.distinct, h'.distinct, fun key hkey key' hkey' heq => ?_⟩
    obtain ⟨s, hs, rfl⟩ := mem_map.mp hkey'
    exact h'.fresh s hs ((hkept _).mpr (Or.inr (heq ▸ hkey)))
  covers i hi s hshown := by
    rcases mem_append.mp hi with hi | hi
    · refine (h.covers i hi s hshown).imp_right fun ⟨s', hs', hkey⟩ => ?_
      exact ⟨s', mem_append_left _ hs', hkey⟩
    · rcases h'.covers i hi s hshown with hold | ⟨s', hs', hkey⟩
      · rcases (hkept _).mp hold with hold | hnew
        · exact Or.inl hold
        · obtain ⟨s', hs', hkey⟩ := mem_map.mp hnew
          exact Or.inr ⟨s', mem_append_left _ hs', hkey⟩
      · exact Or.inr ⟨s', mem_append_right _ hs', hkey⟩

theorem KeptAfter.append {kept kept' kept'' : List String} {added added' : List ThreadItem}
    (h : KeptAfter kept added kept') (h' : KeptAfter kept' added' kept'') :
    KeptAfter kept (added ++ added') kept'' := by
  intro key
  rw [h' key, h key, map_append, mem_append, or_assoc]

/-- One item of the window. -/
def addItem (selection : ThreadContentSelection) :
    List ThreadItem × List String → ThreadItem → List ThreadItem × List String :=
  fun (items, kept) item =>
    match selection.item item with
    | some selected =>
      if item.transcriptKey ∈ kept then (items, kept)
      else (items ++ [selected], item.transcriptKey :: kept)
    | none => (items, kept)

theorem addItem_adds (items : List ThreadItem) (kept : List String) (item : ThreadItem) :
    ∃ added kept', addItem selection (items, kept) item = (items ++ added, kept') ∧
      Added selection [item] kept added ∧ KeptAfter kept added kept' := by
  unfold addItem
  cases hitem : selection.item item with
  | none =>
    refine ⟨[], kept, by rw [append_nil], ⟨?_, ?_, nodup_nil, ?_⟩, fun key => by simp⟩
    · exact fun _ h => absurd h not_mem_nil
    · exact fun _ h => absurd h not_mem_nil
    · intro i hi s hs
      rw [mem_singleton.mp hi, hitem] at hs
      exact nomatch hs
  | some selected =>
    have hkey := (ThreadContentSelection.item_same hitem).1
    dsimp only
    split
    · next hold =>
      refine ⟨[], kept, by rw [append_nil], ⟨?_, ?_, nodup_nil, ?_⟩, fun key => by simp⟩
      · exact fun _ h => absurd h not_mem_nil
      · exact fun _ h => absurd h not_mem_nil
      · intro i hi _ _
        rw [mem_singleton.mp hi]
        exact Or.inl hold
    · next hnew =>
      refine ⟨[selected], item.transcriptKey :: kept, rfl, ⟨?_, ?_, nodup_singleton _, ?_⟩, ?_⟩
      · intro s hs
        rw [mem_singleton.mp hs]
        exact ⟨item, mem_singleton_self item, hitem⟩
      · intro s hs
        rw [mem_singleton.mp hs, hkey]
        exact hnew
      · intro i hi _ _
        rw [mem_singleton.mp hi]
        exact Or.inr ⟨selected, mem_singleton_self selected, hkey⟩
      · intro key
        rw [map_singleton, hkey, mem_singleton, mem_cons, or_comm]

theorem addItems_adds (items : List ThreadItem) (kept : List String) (window : List ThreadItem) :
    ∃ added kept', window.foldl (addItem selection) (items, kept) = (items ++ added, kept') ∧
      Added selection window kept added ∧ KeptAfter kept added kept' := by
  induction window generalizing items kept with
  | nil => exact ⟨[], kept, by rw [append_nil]; rfl, added_nil kept, fun key => by simp⟩
  | cons item window ih =>
    obtain ⟨added, kept', hfirst, hadded, hkept⟩ := @addItem_adds selection items kept item
    obtain ⟨added', kept'', hrest, hadded', hkept'⟩ := ih (items ++ added) kept'
    refine ⟨added ++ added', kept'', ?_, hadded.append hkept hadded', hkept.append hkept'⟩
    rw [foldl_cons, hfirst, hrest, append_assoc]

/-- The turns `leftOut` adds: scalars of turns of the window with an id not in `kept`. -/
structure AddedTurns (window : List Turn) (kept : List String) (added : List Turn) : Prop where
  from_window : ∀ t' ∈ added, ∃ t ∈ window, t' = { t with items := [] } ∧ t.id ∉ kept
  covers : ∀ t ∈ window, t.id ∈ kept ∨ ∃ t' ∈ added, t'.id = t.id

/-- Everything `leftOut` does. -/
theorem leftOut_adds (window : List Turn) (changes : HistoryChanges)
    (kept keptTurns : List String) :
    ∃ turns items, leftOut selection window changes kept keptTurns =
        { turns := changes.turns ++ turns, items := changes.items ++ items } ∧
      AddedTurns window keptTurns turns ∧
      Added selection (window.flatMap Turn.items) kept items := by
  induction window generalizing changes kept keptTurns with
  | nil =>
    refine ⟨[], [], ?_, ⟨fun _ h => absurd h not_mem_nil, fun _ h => absurd h not_mem_nil⟩,
      added_nil kept⟩
    rw [leftOut, append_nil, append_nil]
  | cons turn window ih =>
    obtain ⟨added, kept', hfold, hadded, hkept⟩ :=
      @addItems_adds selection changes.items kept turn.items
    have hstep : ∀ turns, leftOut selection (turn :: window) changes kept keptTurns =
        leftOut selection window ⟨turns, changes.items ++ added⟩ kept' (turn.id :: keptTurns) ∨
        turns ≠ (if turn.id ∈ keptTurns then changes.turns
          else changes.turns ++ [{ turn with items := [] }]) := by
      intro turns
      by_cases hturns : turns = (if turn.id ∈ keptTurns then changes.turns
          else changes.turns ++ [{ turn with items := [] }])
      · left
        rw [leftOut, hturns]
        show (match turn.items.foldl (addItem selection) (changes.items, kept) with
          | (items, kept) => leftOut selection window ⟨_, items⟩ kept (turn.id :: keptTurns)) = _
        rw [hfold]
      · exact Or.inr hturns
    by_cases hold : turn.id ∈ keptTurns
    · have hrun := (hstep changes.turns).resolve_right (by simp [hold])
      obtain ⟨turns, items, hrest, hturns, hitems⟩ :=
        ih ⟨changes.turns, changes.items ++ added⟩ kept' (turn.id :: keptTurns)
      refine ⟨turns, added ++ items, ?_, ⟨fun t' ht' => ?_, fun t ht => ?_⟩, ?_⟩
      · rw [hrun, hrest, append_assoc]
      · obtain ⟨t, ht, hscalars, hnew⟩ := hturns.from_window t' ht'
        exact ⟨t, mem_cons_of_mem _ ht, hscalars,
          fun h => hnew (mem_cons_of_mem _ h)⟩
      · rcases mem_cons.mp ht with rfl | ht
        · exact Or.inl hold
        · rcases hturns.covers t ht with hkeptTurn | hadded'
          · rcases mem_cons.mp hkeptTurn with heq | hkeptTurn
            · exact Or.inl (heq ▸ hold)
            · exact Or.inl hkeptTurn
          · exact Or.inr hadded'
      · rw [flatMap_cons]
        exact hadded.append hkept hitems
    · have hrun := (hstep (changes.turns ++ [{ turn with items := [] }])).resolve_right
        (by simp [hold])
      obtain ⟨turns, items, hrest, hturns, hitems⟩ :=
        ih ⟨changes.turns ++ [{ turn with items := [] }], changes.items ++ added⟩ kept'
          (turn.id :: keptTurns)
      refine ⟨{ turn with items := [] } :: turns, added ++ items, ?_,
        ⟨fun t' ht' => ?_, fun t ht => ?_⟩, ?_⟩
      · rw [hrun, hrest, append_assoc, append_assoc]
        rfl
      · rcases mem_cons.mp ht' with rfl | ht'
        · exact ⟨turn, mem_cons_self, rfl, hold⟩
        · obtain ⟨t, ht, hscalars, hnew⟩ := hturns.from_window t' ht'
          exact ⟨t, mem_cons_of_mem _ ht, hscalars,
            fun h => hnew (mem_cons_of_mem _ h)⟩
      · rcases mem_cons.mp ht with rfl | ht
        · exact Or.inr ⟨_, mem_cons_self, rfl⟩
        · rcases hturns.covers t ht with hkeptTurn | ⟨t', ht', hid⟩
          · rcases mem_cons.mp hkeptTurn with heq | hkeptTurn
            · exact Or.inr ⟨_, mem_cons_self, heq.symm⟩
            · exact Or.inl hkeptTurn
          · exact Or.inr ⟨t', mem_cons_of_mem _ ht', hid⟩
      · rw [flatMap_cons]
        exact hadded.append hkept hitems

/-! ## Where a shown item comes from -/

/-- The candidate has the id and the scalars of a turn in `turns`, and an item of that turn as the
    selection shows it. -/
def Came (selection : ThreadContentSelection) (turns : Turn → Prop)
    (c : TranscriptItemCandidate) : Prop :=
  ∃ turn, turns turn ∧ c.turnID = turn.id ∧ c.turn.scalars = turn.scalars ∧
    ∃ raw ∈ turn.items, selection.item raw = some c.item

/-- A candidate read from a page. -/
structure Read (turns : List Turn) (c : TranscriptItemCandidate) : Prop where
  turn : c.turn ∈ turns
  turnID : c.turnID = c.turn.id
  item : c.item ∈ c.turn.items

variable {items : List ThreadItem} {cs : List TranscriptItemCandidate} {turns : Turn → Prop}
  {α : Type} {listSource : ListFunc} {data : List Turn}

theorem candidatesFromItems_read {turn : Turn} {i : Nat}
    (h : candidatesFromItems turn i items = .ok cs) :
    itemsOf cs = items ∧ ∀ c ∈ cs, c.turn = turn ∧ c.turnID = turn.id := by
  induction items generalizing i cs with
  | nil =>
    cases h
    exact ⟨rfl, fun _ hmem => absurd hmem not_mem_nil⟩
  | cons item items ih =>
    unfold candidatesFromItems at h
    split at h
    · split at h
      · cases h
      · obtain ⟨rest, hrest, hcs⟩ := bind_eq_ok.mp h
        obtain rfl := Except.ok.inj hcs
        obtain ⟨hitems, hall⟩ := ih hrest
        refine ⟨congrArg (item :: ·) hitems, fun c hc => ?_⟩
        rcases mem_cons.mp hc with rfl | hc
        · exact ⟨rfl, rfl⟩
        · exact hall c hc
    · cases h

theorem candidatesFromTurnsAt_read {i : Nat} {turns : List Turn}
    (h : candidatesFromTurnsAt i turns = .ok cs) :
    itemsOf cs = turns.flatMap Turn.items ∧ ∀ c ∈ cs, Read turns c := by
  induction turns generalizing i cs with
  | nil =>
    cases h
    exact ⟨rfl, fun _ hmem => absurd hmem not_mem_nil⟩
  | cons turn turns ih =>
    unfold candidatesFromTurnsAt at h
    split at h
    · cases h
    · obtain ⟨here, hhere, h⟩ := bind_eq_ok.mp h
      obtain ⟨rest, hrest, hcs⟩ := bind_eq_ok.mp h
      obtain rfl := Except.ok.inj hcs
      obtain ⟨hitems, hall⟩ := candidatesFromItems_read hhere
      obtain ⟨hitems', hall'⟩ := ih hrest
      refine ⟨?_, fun c hc => ?_⟩
      · rw [itemsOf, map_append, flatMap_cons]
        exact congrArg₂ _ hitems hitems'
      · rcases mem_append.mp hc with hc | hc
        · obtain ⟨hturn, hid⟩ := hall c hc
          refine ⟨hturn ▸ mem_cons_self, hturn ▸ hid, ?_⟩
          rw [hturn, ← hitems]
          exact mem_map_of_mem hc
        · obtain ⟨hturn, hid, hitem⟩ := hall' c hc
          exact ⟨mem_cons_of_mem _ hturn, hid, hitem⟩

theorem selectNewest_came {page : List Turn} (hpage : ∀ turn ∈ page, turns turn) {limit : Nat}
    {selected : List TranscriptItemCandidate} (hselected : ∀ c ∈ selected, Came selection turns c)
    (hcs : ∀ c ∈ cs, Read page c) :
    ∀ c ∈ selectNewest selection limit selected cs, Came selection turns c := by
  induction cs generalizing selected with
  | nil => exact hselected
  | cons c cs ih =>
    have htail : ∀ d ∈ cs, Read page d := fun d hd => hcs d (mem_cons_of_mem _ hd)
    rw [selectNewest]
    split
    · cases hitem : selection.item c.item with
      | none => exact ih hselected htail
      | some item =>
        refine ih (fun d hd => ?_) htail
        rcases mem_append.mp hd with hd | hd
        · exact hselected d hd
        · obtain ⟨hturn, hid, hmem⟩ := hcs c mem_cons_self
          rw [mem_singleton.mp hd]
          exact ⟨c.turn, hpage c.turn hturn, hid, rfl, c.item, hmem, hitem⟩
    · exact hselected

/-- The oldest position read when the items of a page are read after `oldest`. -/
def readTo (cs : List TranscriptItemCandidate) (oldest : Option ThreadItemPosition) :
    Option ThreadItemPosition :=
  (cs.head?.map TranscriptItemCandidate.position).or oldest

/-- What the loop asks for behind a page. -/
def ThreadTurnsListParams.behind (params : ThreadTurnsListParams)
    (oldest : Option ThreadItemPosition) : ThreadTurnsListParams where
  ref := params.ref
  threadID := params.threadID
  itemsView := params.itemsView
  itemLimit := transcriptItemPageLimit
  before := oldest

/-- The turns of the pages that the loop lists behind a page, from call `n` on and before call
    `last`: each is asked for behind the one before it. -/
inductive Listed (listSource : ListFunc) (params : ThreadTurnsListParams) (last : Nat) :
    Nat → List Turn → Option ThreadItemPosition → Turn → Prop
  | next {n : Nat} {page : List Turn} {oldest : Option ThreadItemPosition}
      {cs : List TranscriptItemCandidate} {answer : ThreadTurnsListResponse} {turn : Turn}
      (hpage : candidatesFromTurns page = .ok cs) (hcall : n < last)
      (hanswer : listSource n (params.behind (readTo cs oldest)) = .ok answer)
      (hturn : turn ∈ answer.data) : Listed listSource params last n page oldest turn
  | older {n : Nat} {page : List Turn} {oldest : Option ThreadItemPosition}
      {cs : List TranscriptItemCandidate} {answer : ThreadTurnsListResponse} {turn : Turn}
      (hpage : candidatesFromTurns page = .ok cs)
      (hanswer : listSource n (params.behind (readTo cs oldest)) = .ok answer)
      (hturn : Listed listSource params last (n + 1) answer.data (readTo cs oldest) turn) :
      Listed listSource params last n page oldest turn

theorem wp_check_of {x : Except Failure α} {n : Nat} {Q : α → Nat → Prop}
    (h : ∀ a, x = .ok a → Q a n) : Tx.wp (check x) n Q (fun _ _ => True) := by
  cases x with
  | ok a => exact h a rfl
  | error e => exact trivial

theorem wp_ask_of {β : Type} {answer : Nat → α → Except Failure β} {params : α} {n : Nat}
    {Q : β → Nat → Prop} (h : ∀ b, answer n params = .ok b → Q b (n + 1)) :
    Tx.wp (ask answer params) n Q (fun _ _ => True) := by
  unfold ask
  rw [wp_bind, wp_read, wp_bind, wp_write]
  exact wp_check_of h

/-- Whatever the source lists, the loop selects the newest of what is kept of its pages. -/
theorem selectItems_newest {params : ThreadTurnsListParams} {limit : Nat}
    {result : ThreadTurnsListResponse} (fuel n : Nat) (page : ThreadTurnsListResponse)
    (selected : List TranscriptItemCandidate) (oldest : Option ThreadItemPosition) (seen : List ThreadItem)
    (hselected : itemsOf selected = (seen.filterMap params.content.selection.item).reverse)
    (hroom : selected.length ≤ limit) :
    Tx.wp (selectItems listSource params limit result fuel page selected oldest) n
      (fun newest last => n ≤ last ∧
        (∀ turns : Turn → Prop, (∀ turn ∈ page.data, turns turn) →
          (∀ turn, Listed listSource params last n page.data oldest turn → turns turn) →
          (∀ c ∈ selected, Came params.content.selection turns c) →
          ∀ c ∈ newest, Came params.content.selection turns c) ∧
        ∃ older, itemsOf newest = (((older ++ (page.data.flatMap Turn.items ++ seen)).filterMap
          params.content.selection.item).reverse).take (limit + 1)) fun _ _ => True := by
  induction fuel generalizing n page selected oldest seen with
  | zero => exact trivial
  | succ fuel ih =>
    unfold selectItems
    rw [wp_bind]
    refine wp_check_of fun cs hcs => ?_
    obtain ⟨hitems, hread⟩ := candidatesFromTurnsAt_read hcs
    rw [wp_bind]
    refine wp_check_of fun _ _ => ?_
    rw [wp_ite]
    refine ⟨fun _ => trivial, fun _ => ?_⟩
    have hkept : itemsOf (selectNewest params.content.selection limit selected cs.reverse) =
        (((page.data.flatMap Turn.items ++ seen).filterMap
          params.content.selection.item).reverse).take (limit + 1) := by
      rw [selectNewest_items _ _ _ _ (by omega), hselected, filterMap_append,
        reverse_append, ← hitems]
      unfold itemsOf
      rw [map_reverse, filterMap_reverse]
    have hnextCame : ∀ turns : Turn → Prop, (∀ turn ∈ page.data, turns turn) →
        (∀ c ∈ selected, Came params.content.selection turns c) →
        ∀ c ∈ selectNewest params.content.selection limit selected cs.reverse,
          Came params.content.selection turns c :=
      fun _ hpage hcame =>
        selectNewest_came hpage hcame fun c hc => hread c (mem_reverse.mp hc)
    generalize selectNewest params.content.selection limit selected cs.reverse = next
      at hkept hnextCame ⊢
    have hlength := congrArg List.length hkept
    rw [length_take, length_reverse] at hlength
    have hnextLength : (itemsOf next).length = next.length := length_map _
    rw [wp_ite]
    refine ⟨fun _ => ⟨le_rfl, fun turns hpage _ hcame => hnextCame turns hpage hcame, [], hkept⟩,
      fun hmore => ?_⟩
    have hspace : next.length ≤ limit := by
      push Not at hmore
      exact hmore.1
    rw [wp_ite]
    refine ⟨fun _ => trivial, fun _ => ?_⟩
    rw [wp_bind]
    refine wp_ask_of fun page' hpage' => ?_
    rw [wp_ite]
    refine ⟨fun _ => trivial, fun _ => ?_⟩
    have hunfilled : itemsOf next =
        ((page.data.flatMap Turn.items ++ seen).filterMap params.content.selection.item).reverse := by
      rw [hkept, take_of_length_le]
      rw [length_reverse]
      omega
    refine wp_mono (ih (n + 1) page' next _ (page.data.flatMap Turn.items ++ seen) hunfilled
      hspace) (fun newest last hout => ?_) fun _ _ h => h
    obtain ⟨hlast, hall, older, holder⟩ := hout
    refine ⟨(Nat.le_succ n).trans hlast, fun turns hpage hlisted hcame => ?_,
      older ++ page'.data.flatMap Turn.items, by rw [append_assoc]; exact holder⟩
    exact hall turns (fun turn hturn => hlisted turn (.next hcs hlast hpage' hturn))
      (fun turn hturn => hlisted turn (.older hcs hpage' hturn)) (hnextCame turns hpage hcame)

/-! ## The shown page -/

theorem normalize_same {c : TranscriptItemCandidate} (h : c ∈ normalizeProjectedItemCompleteness cs) :
    ∃ d ∈ cs, c.turnID = d.turnID ∧ c.turn = d.turn ∧ c.item = d.item := by
  obtain ⟨run', hrun', hc⟩ := mem_flatten.mp h
  obtain ⟨run, hrun, rfl⟩ := mem_map.mp hrun'
  obtain ⟨⟨d, i⟩, hd, rfl⟩ := mem_map.mp hc
  refine ⟨d, ?_, rfl, rfl, rfl⟩
  have hmem : d ∈ (turnRuns cs).flatten :=
    mem_flatten.mpr ⟨run, hrun, (mem_zipIdx hd).2.2 ▸ getElem_mem _⟩
  unfold turnRuns at hmem
  rwa [flatten_splitBy] at hmem

/-- A turn of the page begins with a candidate: it has its id, its scalars and its item. -/
def Opens (cs : List TranscriptItemCandidate) (turn : Turn) : Prop :=
  ∃ c ∈ cs, turn.id = c.turnID ∧ turn.scalars = c.turn.scalars ∧ turn.items.head? = some c.item

theorem regroup_shows {turns : List Turn}
    (h : regroupTurnFragments (normalizeProjectedItemCompleteness cs) = .ok turns) :
    turns.flatMap Turn.items = itemsOf cs ∧ ∀ turn ∈ turns, Opens cs turn := by
  obtain ⟨_, _, hturns⟩ := bind_eq_ok.mp h
  obtain rfl := Except.ok.inj hturns
  refine ⟨?_, fun turn hturn => ?_⟩
  · rw [itemsOf, ← Mirrors.items (normalize_mirrors cs), flatMap_assoc]
    simp only [regroupRun_items]
    rw [flatMap_def, ← map_flatten]
    unfold turnRuns
    rw [flatten_splitBy]
  · obtain ⟨run, hrun, hturn⟩ := mem_flatMap.mp hturn
    cases run with
    | nil => exact absurd hturn not_mem_nil
    | cons first rest =>
      have hfirst : first ∈ (turnRuns (normalizeProjectedItemCompleteness cs)).flatten :=
        mem_flatten.mpr ⟨_, hrun, mem_cons_self⟩
      unfold turnRuns at hfirst
      rw [flatten_splitBy] at hfirst
      obtain ⟨c, hc, hid, hsame, hitem⟩ := normalize_same hfirst
      rw [mem_singleton.mp hturn]
      refine ⟨c, hc, hid, ?_, ?_⟩
      · rw [← hsame]
      · rw [← hitem]
        rfl

/-- The page shows the newest end of some candidates. -/
def ShowsEnd (cs : List TranscriptItemCandidate) (data : List Turn) : Prop :=
  ∃ m, data.flatMap Turn.items = (itemsOf cs).drop m ∧ ∀ turn ∈ data, Opens cs turn

theorem ShowsEnd.of_drop {m : Nat} (h : ShowsEnd (cs.drop m) data) : ShowsEnd cs data := by
  obtain ⟨k, hitems, hopens⟩ := h
  refine ⟨m + k, ?_, fun turn hturn => ?_⟩
  · rw [hitems, itemsOf_drop, drop_drop]
  · obtain ⟨c, hc, hopened⟩ := hopens turn hturn
    exact ⟨c, mem_of_mem_drop hc, hopened⟩

theorem cutPage_end {codec : Codec} {selected : List TranscriptItemCandidate}
    {out : List Turn × List TranscriptItemCandidate} (h : cutPage codec selected = .ok out) :
    ShowsEnd selected out.1 := by
  fun_induction cutPage codec selected generalizing out with
  | case1 first second rest ih =>
    obtain ⟨data, hdata, h⟩ := bind_eq_ok.mp h
    replace h : (if codec.turnsLength data ≤ pageContentBytes then
        pure (data, first :: second :: rest) else cutPage codec (second :: rest)) =
      Except.ok out := h
    split at h
    · obtain rfl := Except.ok.inj h
      exact ⟨0, regroup_shows hdata⟩
    · exact ShowsEnd.of_drop (m := 1) (ih h)
  | case2 selected _ =>
    obtain ⟨data, hdata, h⟩ := bind_eq_ok.mp h
    obtain rfl := Except.ok.inj h
    exact ⟨0, regroup_shows hdata⟩

theorem encodePage_end (codec : Codec) (params : ThreadTurnsListParams)
    (page : ThreadTurnsListResponse) (limit : Nat) (newest : List TranscriptItemCandidate)
    (n : Nat) :
    Tx.wp (encodePage codec params page limit newest) n
      (fun shown last => last = n ∧ ShowsEnd (newest.take limit).reverse shown.data)
      fun _ _ => True := by
  unfold encodePage
  generalize (newest.take limit).reverse = selected
  obtain ⟨m, hcut, _⟩ := cutItems_spec codec
    ((selected.map fun candidate => codec.itemLength candidate.item).sum) selected
  rw [wp_bind]
  refine wp_check_of fun out hout => ?_
  rw [hcut] at hout
  have hend := ShowsEnd.of_drop (cutPage_end hout)
  obtain ⟨data, shown⟩ := out
  rw [wp_ite]
  refine ⟨fun _ => ?_, fun _ => ⟨rfl, hend⟩⟩
  split
  · exact trivial
  · exact ⟨rfl, hend⟩
  · exact ⟨rfl, hend⟩

/-- The selected window: the newest end of what is kept of the source's window and of older items,
    in turns that have the scalars of the turn that their first item was read from. -/
structure Shown (selection : ThreadContentSelection) (turns : Turn → Prop)
    (window data : List Turn) : Prop where
  items : ∃ older, data.flatMap Turn.items <:+
    (older ++ window.flatMap Turn.items).filterMap selection.item
  turns : ∀ turn ∈ data, ∃ source, turns source ∧ turn.id = source.id ∧
    turn.scalars = source.scalars ∧
    ∃ raw ∈ source.items, turn.items.head? = selection.item raw ∧ (selection.item raw).isSome

theorem fill_shown (codec : Codec) (fuel : Nat) (params : ThreadTurnsListParams)
    (page : ThreadTurnsListResponse) (n : Nat) :
    Tx.wp (fill codec fuel listSource params page) n
      (fun shown last => Shown params.content.selection
        (fun turn => turn ∈ page.data ∨ Listed listSource params last n page.data none turn)
        page.data shown.data)
      fun _ _ => True := by
  unfold fill
  rw [wp_bind]
  refine wp_check_of fun limit _ => ?_
  rw [wp_ite]
  refine ⟨fun _ => ?_, fun _ => ?_⟩
  · rw [wp_bind]
    refine wp_mono (selectItems_newest fuel n page [] none [] rfl (Nat.zero_le _))
      (fun newest n' hnewest => ?_) fun _ _ h => h
    obtain ⟨_, hcame, older, hitems⟩ := hnewest
    rw [append_nil] at hitems
    refine wp_mono (encodePage_end codec params page limit newest n')
      (fun shown _ hshown => ?_) fun _ _ h => h
    obtain ⟨rfl, m, hdata, hopens⟩ := hshown
    refine ⟨⟨older, ?_⟩, fun turn hturn => ?_⟩
    · rw [hdata, itemsOf_selected hitems, drop_drop]
      exact drop_suffix _ _
    · obtain ⟨c, hc, hid, hscalars, hhead⟩ := hopens turn hturn
      obtain ⟨source, hsource, hid', hscalars', raw, hraw, hitem⟩ :=
        hcame _ (fun _ => Or.inl) (fun _ => Or.inr) (fun _ hmem => absurd hmem not_mem_nil)
          c (mem_of_mem_take (mem_reverse.mp hc))
      exact ⟨source, hsource, hid.trans hid', hscalars.trans hscalars', raw, hraw,
        hhead.trans hitem.symm, Option.isSome_iff_exists.mpr ⟨_, hitem⟩⟩
  · refine wp_mono (encodePage_end codec params page limit [] n)
      (fun shown _ hshown => ?_) fun _ _ h => h
    obtain ⟨_, m, hdata, hopens⟩ := hshown
    rw [take_nil, reverse_nil] at hdata hopens
    refine ⟨⟨[], ?_⟩, fun turn hturn => ?_⟩
    · rw [hdata, itemsOf, map_nil, drop_nil]
      exact nil_suffix
    · obtain ⟨c, hc, _⟩ := hopens turn hturn
      exact absurd hc not_mem_nil

/-! ## A read -/

/-- Everything that the source's window and its changes hold is handed on, and nothing else. The
    turns in `listed` are those of the pages listed behind the window. -/
structure HandedOn (selection : ThreadContentSelection) (listed : Turn → Prop)
    (window : List Turn) (changes : HistoryChanges) (shown : List Turn)
    (out : HistoryChanges) : Prop where
  items : ∀ raw ∈ window.flatMap Turn.items ++ changes.items, ∀ item,
    selection.item raw = some item → item ∈ shown.flatMap Turn.items ++ out.items
  once : ∀ key, (out.items.map ThreadItem.transcriptKey).count key ≤
    max 1 ((changes.items.map ThreadItem.transcriptKey).count key)
  turns : ∀ turn ∈ window, ∃ turn' ∈ shown ++ out.turns, turn'.id = turn.id ∧
    ((∃ source ∈ window ++ changes.turns, source.id = turn.id ∧ turn'.scalars = source.scalars) ∨
      (turn' ∈ shown ∧ ∃ source, listed source ∧ source.id = turn.id ∧
        turn'.scalars = source.scalars ∧
        ∃ raw ∈ source.items, turn'.items.head? = selection.item raw ∧ (selection.item raw).isSome))
  changedTurns : ∀ turn ∈ changes.turns, turn ∈ out.turns
  onlyItems : ∀ item ∈ out.items, ∃ raw ∈ window.flatMap Turn.items ++ changes.items,
    selection.item raw = some item
  onlyTurns : ∀ turn ∈ out.turns,
    turn ∈ changes.turns ∨ ∃ source ∈ window, turn = { source with items := [] }

/-- One key names one item. -/
def KeyedAlike (items : List ThreadItem) : Prop :=
  ∀ a ∈ items, ∀ b ∈ items, a.transcriptKey = b.transcriptKey → a = b

/-- What a shown item and an item of the source with its key have in common. -/
theorem KeyedAlike.shown (h : KeyedAlike items) {raw raw' : ThreadItem} (hraw : raw ∈ items)
    (hraw' : raw' ∈ items) {item item' : ThreadItem} (hitem : selection.item raw = some item)
    (hitem' : selection.item raw' = some item') (hkey : item'.transcriptKey = raw.transcriptKey) :
    item' = item := by
  rw [(ThreadContentSelection.item_same hitem').1] at hkey
  rw [h raw' hraw' raw hraw hkey, hitem] at hitem'
  exact (Option.some.inj hitem').symm

/-- An item whose key is shown is shown itself. -/
theorem Shown.holds {window : List Turn} (h : Shown selection turns window data)
    (halike : KeyedAlike items) (hwindow : ∀ raw ∈ window.flatMap Turn.items, raw ∈ items)
    {raw item : ThreadItem} (hraw : raw ∈ window.flatMap Turn.items)
    (hitem : selection.item raw = some item)
    (hkey : raw.transcriptKey ∈ (data.flatMap Turn.items).map ThreadItem.transcriptKey) :
    item ∈ data.flatMap Turn.items := by
  obtain ⟨older, hsuffix⟩ := h.items
  obtain ⟨item', hitem', hkey⟩ := mem_map.mp hkey
  rw [filterMap_append] at hsuffix
  -- the page holds all kept items of the window, or kept items of the window alone
  have hsplit : data.flatMap Turn.items <:+ (window.flatMap Turn.items).filterMap selection.item ∨
      (window.flatMap Turn.items).filterMap selection.item <:+ data.flatMap Turn.items :=
    suffix_or_suffix_of_suffix hsuffix (suffix_append _ _)
  rcases hsplit with hinside | hwhole
  · obtain ⟨raw', hraw', hshown⟩ := mem_filterMap.mp (hinside.subset hitem')
    exact halike.shown (hwindow raw hraw) (hwindow raw' hraw') hitem hshown hkey ▸ hitem'
  · exact hwhole.subset (mem_filterMap.mpr ⟨raw, hraw, hitem⟩)

/-- The window and the changes of a selected read. -/
theorem selectChanges_handsOn {window : List Turn} {changes : HistoryChanges}
    (hselection : selection ≠ 0)
    (hshown : Shown selection (fun turn => turn ∈ window ∨ turns turn) window data)
    (halike : KeyedAlike (window.flatMap Turn.items ++ changes.items)) :
    HandedOn selection turns window changes data
      (selectChanges selection data window changes) := by
  have hitems : selection.items changes.items = changes.items.filterMap selection.item :=
    if_neg hselection
  unfold selectChanges
  rw [hitems]
  obtain ⟨turns, added, hout, hturns, hadded⟩ := @leftOut_adds selection window
    { changes with items := changes.items.filterMap selection.item }
    (((data.flatMap Turn.items) ++ changes.items.filterMap selection.item).map
      ThreadItem.transcriptKey)
    ((data ++ changes.turns).map Turn.id)
  rw [hout]
  refine ⟨fun raw hraw item hitem => ?_, fun key => ?_, fun turn hturn => ?_,
    fun turn hturn => mem_append_left _ hturn, fun item hitem => ?_, fun turn hturn => ?_⟩
  · rcases mem_append.mp hraw with hwindow | hchanged
    · rcases hadded.covers raw hwindow item hitem with hkept | ⟨item', hitem', hkey⟩
      · rw [map_append, mem_append] at hkept
        rcases hkept with hkept | hkept
        · refine mem_append_left _ ?_
          exact hshown.holds halike (fun _ h => mem_append_left _ h) hwindow hitem hkept
        · obtain ⟨item', hitem', hkey⟩ := mem_map.mp hkept
          obtain ⟨raw', hraw', hselected⟩ := mem_filterMap.mp hitem'
          rw [← halike.shown hraw (mem_append_right _ hraw') hitem hselected hkey]
          exact mem_append_right _ (mem_append_left _ hitem')
      · obtain ⟨raw', hraw', hselected⟩ := hadded.from_window item' hitem'
        rw [← halike.shown hraw (mem_append_left _ hraw') hitem hselected hkey]
        exact mem_append_right _ (mem_append_right _ hitem')
    · refine mem_append_right _ (mem_append_left _ ?_)
      exact mem_filterMap.mpr ⟨raw, hchanged, hitem⟩
  · have hold := (keys_selected selection changes.items).count_le key
    rw [map_append, count_append]
    dsimp only
    by_cases hnew : key ∈ added.map ThreadItem.transcriptKey
    · -- an added key was not among the changes before
      obtain ⟨item, hitem, rfl⟩ := mem_map.mp hnew
      have hfresh := hadded.fresh item hitem
      rw [map_append, mem_append, not_or] at hfresh
      rw [count_eq_zero.mpr hfresh.2, Nat.zero_add]
      have hone := (nodup_iff_count_le_one.mp hadded.distinct) item.transcriptKey
      omega
    · rw [count_eq_zero.mpr hnew, Nat.add_zero]
      omega
  · rcases hturns.covers turn hturn with hkept | ⟨turn', hturn', hid⟩
    · obtain ⟨turn', hturn', hid⟩ := mem_map.mp hkept
      rcases mem_append.mp hturn' with hdata | hchanged
      · refine ⟨turn', mem_append_left _ hdata, hid, ?_⟩
        obtain ⟨source, hsource, hid', hscalars, hfirst⟩ := hshown.turns turn' hdata
        rcases hsource with hsource | hsource
        · exact Or.inl ⟨source, mem_append_left _ hsource, hid'.symm.trans hid, hscalars⟩
        · exact Or.inr ⟨hdata, source, hsource, hid'.symm.trans hid, hscalars, hfirst⟩
      · exact ⟨turn', mem_append_right _ (mem_append_left _ hchanged), hid,
          Or.inl ⟨turn', mem_append_right _ hchanged, hid, rfl⟩⟩
    · obtain ⟨source, hsource, rfl, _⟩ := hturns.from_window turn' hturn'
      exact ⟨_, mem_append_right _ (mem_append_right _ hturn'), hid,
        Or.inl ⟨source, mem_append_left _ hsource, hid, rfl⟩⟩
  · rcases mem_append.mp hitem with hchanged | hnew
    · obtain ⟨raw, hraw, hselected⟩ := mem_filterMap.mp hchanged
      exact ⟨raw, mem_append_right _ hraw, hselected⟩
    · obtain ⟨raw, hraw, hselected⟩ := hadded.from_window item hnew
      exact ⟨raw, mem_append_left _ hraw, hselected⟩
  · rcases mem_append.mp hturn with hchanged | hnew
    · exact Or.inl hchanged
    · obtain ⟨source, hsource, hscalars, _⟩ := hturns.from_window turn hnew
      exact Or.inr ⟨source, hsource, hscalars⟩

/-- What a selected read asks its source. -/
def ThreadReadParams.asked (codec : Codec) (params : ThreadReadParams) : ThreadReadParams :=
  { params with
    content := {}
    heldSnapshot := sourceSnapshot codec params.heldSnapshot params.content.selection
    itemLimit := if params.content.selection ≠ 0 ∧ params.includeTurns then transcriptItemPageLimit
      else params.itemLimit }

/-- What it asks the lists behind its window for. -/
def ThreadReadParams.listed (params : ThreadReadParams) : ThreadTurnsListParams where
  content := params.content
  ref := params.ref
  threadID := params.threadID
  itemLimit := params.itemLimit
  itemsView := params.itemsView

theorem selected_read_keeps_changes (codec : Codec) (fuel : Nat) (params : ThreadReadParams)
    (readSource : ReadFunc) (listSource : ListFunc) (n n' : Nat)
    (source response : ThreadReadResponse) (changes : HistoryChanges)
    (hselection : params.content.selection ≠ 0)
    (hsource : readSource n (params.asked codec) = .ok source)
    (hchanges : source.changes = some changes)
    (halike : KeyedAlike (source.turns.flatMap Turn.items ++ changes.items))
    (hturns : params.includeTurns = true ∨ source.turns = [])
    (hread : read codec fuel params readSource listSource n = (.ok response, n')) :
    ∃ out, response.changes = some out ∧
      HandedOn params.content.selection
        (Listed listSource params.listed n' (n + 1) source.turns none) source.turns changes
        response.turns out := by
  refine wp_of_ok (Q := fun response last => ∃ out, response.changes = some out ∧
    HandedOn params.content.selection
      (Listed listSource params.listed last (n + 1) source.turns none) source.turns changes
      response.turns out)
    (E := fun _ _ => True) ?_ hread
  unfold read
  rw [wp_bind]
  refine wp_check_of fun _ _ => ?_
  rw [wp_bind]
  refine wp_ask_of fun answer hanswer => ?_
  obtain rfl : source = answer := Except.ok.inj (hsource.symm.trans hanswer)
  rw [if_neg hselection, hchanges, wp_ite]
  refine ⟨fun _ => ?_, fun hnone => ?_⟩
  · rw [wp_bind]
    refine wp_mono (fill_shown codec fuel params.listed _ (n + 1)) (fun page _ hpage => ?_)
      fun _ _ h => h
    exact ⟨_, rfl, selectChanges_handsOn hselection hpage halike⟩
  · have hwindow := hturns.resolve_left hnone
    refine ⟨_, congrArg (Option.map _) hchanges,
      selectChanges_handsOn hselection ⟨⟨[], ?_⟩, fun turn hturn => ?_⟩ halike⟩
    · rw [hwindow]
      exact nil_suffix
    · rw [hwindow] at hturn
      exact absurd hturn not_mem_nil

/-! ## A codec -/

def packCursor (c : ContentCursor) : List Char :=
  pack [c.selection.toList, c.snapshot.incarnation.toList,
    List.replicate c.snapshot.length.toNat '1', List.replicate (-c.snapshot.length).toNat '1',
    c.ref.toList, c.threadID.toList, c.bootGeneration.toList, List.replicate c.epoch '1',
    List.replicate c.before.entry '1', List.replicate c.before.item '1',
    List.replicate c.before.sub '1']

def unpackCursor (l : List Char) : Option ContentCursor :=
  match unpack l with
  | [selection, incarnation, above, below, ref, threadID, bootGeneration, epoch, entry, item, sub] =>
    some {
      selection := String.ofList selection
      snapshot := ⟨String.ofList incarnation, above.length - below.length⟩
      ref := String.ofList ref
      threadID := String.ofList threadID
      bootGeneration := String.ofList bootGeneration
      epoch := epoch.length
      before := ⟨entry.length, item.length, sub.length⟩ }
  | _ => none

/-- The cursor of the session below, with its text on the wire. -/
def sessionCursor : ContentCursor where
  selection := "2"
  snapshot := ⟨"i", 3⟩
  threadID := "t1"
  bootGeneration := "b"
  epoch := 1
  before := ⟨3, 0, 0⟩

def sessionCursorText : String :=
  "eyJzZWxlY3Rpb24iOiIyIiwic25hcHNob3QiOnsiaW5jYXJuYXRpb24iOiJpIiwibGVuZ3RoIjozfSwidGhyZWFkX2lk" ++
  "IjoidDEiLCJib290X2dlbmVyYXRpb24iOiJiIiwiZXBvY2giOjEsImJlZm9yZSI6eyJlbnRyeSI6MywiaXRlbSI6MH19"

/-- The lengths are those of items and turns with no other fields than the session's. -/
def sessionCodec : Codec where
  encodeCursor c :=
    if c = sessionCursor then sessionCursorText else String.ofList ('~' :: packCursor c)
  decodeCursor text :=
    if text = sessionCursorText then some sessionCursor else unpackCursor (text.toList.drop 1)
  encodeText text := if text = "i" then "aQ" else text
  decodeText text := some (if text = "aQ" then "i" else text)
  itemLength item := 70 + item.type.length + item.id.length + item.transcriptKey.length
  turnsLength turns :=
    if turns = [] then 2
    else 1 + (turns.map fun turn => 55 + turn.id.length +
      (turn.items.map fun item =>
        71 + item.type.length + item.id.length + item.transcriptKey.length).sum).sum

/-! ## A session -/

def sessionItem (type : String) (n : Nat) : ThreadItem where
  type := type
  id := toString n
  transcriptKey := toString n
  position := some ⟨n, 0, 0⟩

/-! ## A source whose turn ends while it is read -/

/-- The newest page ends in the middle of a turn, which is still in progress. -/
def movedSource : ThreadReadResponse where
  turns := [{ id := "t", items := [sessionItem "userMessage" 2, sessionItem "agentMessage" 3],
              itemsView := "fragment", scalars := [("status", "inProgress")] }]
  olderCursor := "older"
  bootGeneration := "b"
  epoch := 1
  snapshot := some ⟨"i", 3⟩
  changes := some { items := [sessionItem "userMessage" 1] }

/-- By the time the page before it is listed, the turn is completed. -/
def movedPage : ThreadTurnsListResponse where
  data := [{ id := "t", items := [sessionItem "userMessage" 1], itemsView := "fragment",
             scalars := [("status", "completed")] }]
  bootGeneration := "b"
  epoch := 1
  snapshot := some ⟨"i", 3⟩

def movedParams (includeTurns : Bool) (itemLimit : Int) : ThreadReadParams where
  content := { includeToolCalls := some false }
  threadID := "t1"
  includeTurns := includeTurns
  itemLimit := itemLimit

def readMoved (includeTurns : Bool) (itemLimit : Int) (source : ThreadReadResponse) :
    Except Halt ThreadReadResponse × Nat :=
  read sessionCodec 3 (movedParams includeTurns itemLimit) (fun _ _ => .ok source)
    (fun _ _ => .ok movedPage) 0

theorem succeeds_of {x : Except Halt α × Nat} {P : α → Prop} [DecidablePred P]
    (h : (match x.1 with | .ok a => decide (P a) | .error _ => false) = true) :
    ∃ a n, x = (.ok a, n) ∧ P a := by
  obtain ⟨result, n⟩ := x
  cases result with
  | error e => cases h
  | ok a => exact ⟨a, n, rfl, of_decide_eq_true h⟩

theorem selected_read_keeps_changes_moved :
    ∃ response, readMoved true 3 movedSource = (.ok response, 2) ∧
      ∃ out, response.changes = some out ∧
        HandedOn 4 (Listed (fun _ _ => .ok movedPage) (movedParams true 3).listed 2 1
            movedSource.turns none) movedSource.turns
          { items := [sessionItem "userMessage" 1] } response.turns out := by
  obtain ⟨response, calls, hread, _⟩ := succeeds_of (x := readMoved true 3 movedSource)
    (P := fun _ => True) (by decide)
  obtain rfl : (readMoved true 3 movedSource).2 = calls := congrArg Prod.snd hread
  refine ⟨response, hread, ?_⟩
  exact selected_read_keeps_changes sessionCodec 3 (movedParams true 3) _ _ 0 2 movedSource
    response _ (by decide) rfl rfl (by unfold KeyedAlike; decide) (Or.inl rfl) hread

/-- A command without a description, in the window of a source that was asked for no turns. -/
def commandSource : ThreadReadResponse :=
  { movedSource with
    turns := [{ id := "t", items := [{ sessionItem "commandExecution" 2 with
      description := "build", source := "shell" }] }] }

/-- A page that begins in an older page has the scalars of that page, and a window that was not
    asked for is returned as it is. -/
theorem selected_read_replaces_scalars :
    (∃ response calls, readMoved true 3 movedSource = (.ok response, calls) ∧
      response.changes.isSome ∧
      ∀ turn ∈ response.turns ++ (response.changes.getD {}).turns,
        turn.id = "t" → turn.scalars ≠ [("status", "inProgress")]) ∧
    (∃ response calls, readMoved false 3 commandSource = (.ok response, calls) ∧
      response.changes.isSome ∧
      ∃ raw ∈ commandSource.turns.flatMap Turn.items, ∃ item ∈ ThreadContentSelection.item 4 raw,
        item ∉ response.turns.flatMap Turn.items ++ (response.changes.getD {}).items) := by
  refine ⟨succeeds_of (by decide), succeeds_of (by decide)⟩

end Evener.Apphistory
