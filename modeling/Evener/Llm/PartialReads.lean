/-
  Reading the partial response on the way.

  It is built again only when an event has marked it stale. An event that adds a call or fills in
  its name, item id or type changes what the response shows and marks nothing.
-/
import Evener.Llm.Accumulated
import Mathlib.Algebra.Order.BigOperators.Group.List
import Mathlib.Algebra.Order.Group.Nat
import Mathlib.Data.Prod.Lex

namespace Evener.Llm

open List Function Option
open Evener.Lib (Bytes)

/-- What is done with an accumulator. -/
inductive Op where
  | event (ev : StreamEvent)
  | read

def StreamAccumulator.step (a : StreamAccumulator) : Op → StreamAccumulator
  | .event ev => a.process ev
  | .read => a.partialResponse.2

def runOps (ops : List Op) : StreamAccumulator := ops.foldl StreamAccumulator.step newStreamAccumulator

def Op.event? : Op → Option StreamEvent
  | .event ev => some ev
  | .read => none

/-- An accumulator that has the same events and is not read. -/
def runUnread (ops : List Op) : StreamAccumulator :=
  (ops.filterMap Op.event?).foldl StreamAccumulator.process newStreamAccumulator

/-- The event marks the partial response stale. -/
def StreamEvent.marks (ev : StreamEvent) : Bool :=
  match ev.type, ev.toolCall with
  | .textDelta, _ => ev.delta ≠ ""
  | .reasoningDelta, _ => ev.reasoningDelta ≠ ""
  | .toolCallDelta, some tc | .toolCallEnd, some tc => tc.id ≠ "" && tc.arguments ≠ []
  | _, _ => false

/-- The event adds a call or fills in a field of one, and marks nothing. -/
def StreamAccumulator.overlooks (a : StreamAccumulator) (ev : StreamEvent) : Bool :=
  match ev.type, ev.toolCall with
  | .toolCallStart, some tc => tc.id ≠ ""
  | .toolCallDelta, some tc | .toolCallEnd, some tc =>
    tc.id ≠ "" && tc.arguments = [] &&
      match a.toolCalls tc.id with
      | none => true
      | some held => held.fill tc ≠ held
  | _, _ => false

def Op.marks (op : Op) : Bool := (op.event?.map (·.marks)).getD false

/-- Behind a read of something, and with no mark up to the end, an event changes what is shown. -/
def GoesUnmarked (ops : List Op) : Prop :=
  ∃ before after ev later, ops = before ++ .read :: after ++ .event ev :: later ∧
    before.any Op.marks = true ∧ after.any Op.marks = false ∧ later.any Op.marks = false ∧
    (runOps (before ++ .read :: after)).overlooks ev = true

/-- The answer at the end is the unread accumulator's, and the current state's when there is one. -/
def Fresh (ops : List Op) : Prop :=
  (runOps ops).partialResponse.1 = (runUnread ops).partialResponse.1 ∧
    ∀ r, (runOps ops).partialResponse.1 = some r → r = (runOps ops).buildResponse

/-! ## Reads leave the content alone -/

namespace StreamAccumulator

/-- The accumulator without what its reads leave in it. -/
def content (a : StreamAccumulator) : StreamAccumulator := { a with heldPartial := none, dirty := false }

variable (a : StreamAccumulator) (ev : StreamEvent)

theorem openText_content (id : String) : (a.openText id).content = a.content.openText id := by
  unfold openText content
  dsimp only
  split <;> rfl

theorem callPiece_content (toolCall : Option ToolCallData) (join : Bytes → Bytes → Bytes) :
    (a.callPiece toolCall join).content = (a.content.callPiece toolCall join).content := by
  unfold callPiece content
  split <;> [skip; split] <;> rfl

theorem process_content : (a.process ev).content = (a.content.process ev).content := by
  unfold process
  cases ev.type <;> dsimp only
  case textStart => rw [openText_content, ← openText_content]; rfl
  case textDelta =>
    have hopen := a.openText_content ev.textKey
    split
    · rw [← hopen]
      rfl
    · rw [hopen, ← hopen]
      rfl
  case reasoningDelta => split <;> rfl
  case toolCallStart => split <;> [skip; split] <;> rfl
  case toolCallDelta => exact a.callPiece_content _ _
  case toolCallEnd => exact a.callPiece_content _ _
  case finish => rfl
  all_goals rfl

theorem partialResponse_content : a.partialResponse.2.content = a.content := by
  unfold partialResponse content
  split <;> rfl

theorem buildResponse_content : a.content.buildResponse = a.buildResponse := rfl

/-- Only the events that mark make the partial response stale. -/
theorem process_marks (hev : ev.type ≠ .finish) :
    (a.process ev).dirty = (a.dirty || ev.marks) ∧ (a.process ev).heldPartial = a.heldPartial := by
  have hopen : ∀ id, (a.openText id).dirty = a.dirty ∧
      (a.openText id).heldPartial = a.heldPartial := by
    intro id
    unfold openText
    split <;> exact ⟨rfl, rfl⟩
  have hpiece : ∀ toolCall join, (a.callPiece toolCall join).dirty = (a.dirty ||
      match toolCall with
      | some tc => tc.id ≠ "" && tc.arguments ≠ []
      | none => false) ∧ (a.callPiece toolCall join).heldPartial = a.heldPartial := by
    intro toolCall join
    unfold callPiece
    cases toolCall with
    | none => exact ⟨(Bool.or_false _).symm, rfl⟩
    | some tc => by_cases hid : tc.id = "" <;> simp [hid]
  unfold process StreamEvent.marks
  cases htype : ev.type <;> dsimp only
  case finish => exact absurd htype hev
  case textStart => simp [hopen]
  case textDelta => by_cases hdelta : ev.delta = "" <;> simp [hdelta, hopen]
  case reasoningDelta => by_cases hdelta : ev.reasoningDelta = "" <;> simp [hdelta]
  case toolCallStart =>
    cases ev.toolCall with
    | none => simp
    | some tc => by_cases hid : tc.id = "" <;> simp [hid]
  case toolCallDelta =>
    obtain ⟨hdirty, hheld⟩ := hpiece ev.toolCall fun held sent => held ++ sent
    exact ⟨hdirty.trans (by cases ev.toolCall <;> rfl), hheld⟩
  case toolCallEnd =>
    obtain ⟨hdirty, hheld⟩ := hpiece ev.toolCall fun _ sent => sent
    exact ⟨hdirty.trans (by cases ev.toolCall <;> rfl), hheld⟩
  all_goals exact ⟨(Bool.or_false _).symm, rfl⟩

end StreamAccumulator

theorem runOps_append (ops : List Op) (op : Op) : runOps (ops ++ [op]) = (runOps ops).step op := by
  unfold runOps
  rw [foldl_append]
  rfl

theorem content_run (ops : List Op) : (runOps ops).content = (runUnread ops).content := by
  induction ops using List.reverseRecOn with
  | nil => rfl
  | append_singleton ops op ih =>
    rw [runOps_append]
    unfold runUnread
    rw [filterMap_append]
    cases op with
    | read =>
      rw [show (runOps ops).step .read = (runOps ops).partialResponse.2 from rfl,
        StreamAccumulator.partialResponse_content, ih,
        show [Op.read].filterMap Op.event? = [] from rfl, append_nil]
      rfl
    | event ev =>
      rw [show (runOps ops).step (.event ev) = (runOps ops).process ev from rfl,
        StreamAccumulator.process_content, ih, ← StreamAccumulator.process_content,
        show [Op.event ev].filterMap Op.event? = [ev] from rfl, foldl_append]
      rfl

/-! ## What an event that marks nothing changes -/

/-- How many of a call's fields are given. -/
def ToolCallData.filled (tc : ToolCallData) : Nat :=
  (if tc.name = "" then 0 else 1) + (if tc.itemID = "" then 0 else 1) +
    (if tc.type = "" then 0 else 1)

/-- How many calls a response shows, and then how many of their fields. -/
def Response.shown (r : Response) : Nat ×ₗ Nat :=
  toLex (r.toolCalls.length, (r.toolCalls.map (·.filled)).sum)

theorem filled_fill (held tc : ToolCallData) :
    held.fill tc = held ∨ held.filled < (held.fill tc).filled := by
  by_cases hname : held.name = "" ∧ tc.name ≠ "" ∨ held.itemID = "" ∧ tc.itemID ≠ "" ∨
      held.type = "" ∧ tc.type ≠ ""
  · refine Or.inr ?_
    unfold ToolCallData.filled ToolCallData.fill
    split_ifs <;> simp_all
  · refine Or.inl ?_
    unfold ToolCallData.fill
    obtain ⟨id, itemID, name, arguments, type, raw, signature⟩ := held
    simp only [ToolCallData.mk.injEq, true_and]
    grind

namespace StreamAccumulator

variable {events : List StreamEvent} {a : StreamAccumulator}

variable {b : StreamAccumulator} {id : String} {ops : List Op}

theorem buildResponse_congr {a : StreamAccumulator} (hreasoning : a.reasoning = b.reasoning)
    (htext : String.join (a.textOrder.filterMap a.textByID) = String.join (b.textOrder.filterMap b.textByID))
    (hcalls : a.toolCallOrder.filterMap a.toolCalls = b.toolCallOrder.filterMap b.toolCalls)
    (hfinish : a.finish = b.finish) (husage : a.usage = b.usage) :
    a.buildResponse = b.buildResponse := by
  have hparts : a.parts = b.parts := by
    unfold parts
    rw [hreasoning, htext, hcalls]
  unfold buildResponse
  rw [hparts, hfinish, husage]

theorem process_finish_usage (a : StreamAccumulator) {ev : StreamEvent} (hev : ev.type ≠ .finish) :
    (a.process ev).finish = a.finish ∧ (a.process ev).usage = a.usage := by
  have hopen : ∀ id, (a.openText id).finish = a.finish ∧ (a.openText id).usage = a.usage := by
    intro id
    unfold openText
    split <;> exact ⟨rfl, rfl⟩
  have hpiece : ∀ toolCall join, (a.callPiece toolCall join).finish = a.finish ∧
      (a.callPiece toolCall join).usage = a.usage := by
    intro toolCall join
    unfold callPiece
    split <;> [skip; split] <;> exact ⟨rfl, rfl⟩
  unfold process
  cases htype : ev.type <;> dsimp only
  case finish => exact absurd htype hev
  case textStart => exact hopen _
  case textDelta => split <;> exact hopen _
  case reasoningDelta => split <;> exact ⟨rfl, rfl⟩
  case toolCallStart => split <;> [skip; split] <;> exact ⟨rfl, rfl⟩
  case toolCallDelta => exact hpiece _ _
  case toolCallEnd => exact hpiece _ _
  all_goals exact ⟨rfl, rfl⟩

/-- An event that marks nothing leaves the texts and the reasoning as they read. -/
theorem unmarked_texts (h : TextAccount events a) {ev : StreamEvent} (hev : ev.marks = false) :
    (a.process ev).reasoning = a.reasoning ∧
      String.join ((a.process ev).textOrder.filterMap (a.process ev).textByID) =
        String.join (a.textOrder.filterMap a.textByID) := by
  constructor
  · rw [process_reasoning]
    split
    · next htype =>
      have hdelta : ev.reasoningDelta = "" := by simpa [StreamEvent.marks, htype] using hev
      rw [hdelta, String.append_empty]
    · rfl
  · obtain ⟨horder, htext⟩ := a.process_texts ev
    rw [horder, htext]
    cases hid : ev.textID? with
    | none => rfl
    | some id =>
      have hdelta : (if ev.type = .textDelta then ev.delta else "") = "" := by
        split
        · next htype => simpa [StreamEvent.marks, htype] using hev
        · rfl
      simp only [hdelta, String.append_empty]
      cases hheld : a.textByID id with
      | some text =>
        have hsame : Function.update a.textByID id (some text) = a.textByID := by
          rw [← hheld, update_eq_self]
        simp [hsame]
      | none =>
        -- the new text is empty, and no other place of the order reads it
        have hnew : id ∉ a.textOrder := by
          intro hmem
          rw [h.text, if_pos (h.order ▸ hmem)] at hheld
          cases hheld
        have hold : a.textOrder.filterMap (Function.update a.textByID id (some "")) =
            a.textOrder.filterMap a.textByID := by
          refine filterMap_congr fun j hj => ?_
          have hother : j ≠ id := fun heq => hnew (heq ▸ hj)
          rw [update_of_ne hother]
        simp [hold, String.join_append]

/-- An event that puts a call behind the order shows one call more. -/
theorem shown_lt_of_append (h : CallAccount events a) (hb : CallAccount (events ++ [ev]) b)
    (horder : b.toolCallOrder = a.toolCallOrder ++ [id]) :
    a.buildResponse.shown < b.buildResponse.shown := by
  have hlength := congrArg List.length hb.ids_toolCalls
  have hlength' := congrArg List.length h.ids_toolCalls
  rw [horder, length_append, length_map] at hlength
  rw [length_map] at hlength'
  refine Prod.Lex.toLex_lt_toLex.mpr (Or.inl ?_)
  rw [hlength, hlength', length_singleton]
  exact Nat.lt_succ_self _

/-- An event that fills in a field of a call shows more fields of as many calls. -/
theorem shown_lt_of_fill {held call : ToolCallData} (h : CallAccount events a)
    (hheld : a.toolCalls id = some held)
    (hcalls : b.toolCalls = Function.update a.toolCalls id (some call))
    (horder : b.toolCallOrder = a.toolCallOrder) (hfilled : held.filled < call.filled) :
    a.buildResponse.shown < b.buildResponse.shown := by
  have hknown : ∀ (f : String → Option ToolCallData),
      (∀ j ∈ a.toolCallOrder, f j ≠ none) → ((a.toolCallOrder.filterMap f).length,
        ((a.toolCallOrder.filterMap f).map (·.filled)).sum) = (a.toolCallOrder.length,
        (a.toolCallOrder.map fun j => ((f j).map (·.filled)).getD 0).sum) := by
    generalize a.toolCallOrder = order
    intro f hf
    induction order with
    | nil => rfl
    | cons j order ih =>
      obtain ⟨tc, htc⟩ := ne_none_iff_exists'.mp (hf j mem_cons_self)
      have hrest := Prod.mk.inj (ih fun k hk => hf k (mem_cons_of_mem _ hk))
      simp [htc, hrest.1, hrest.2]
  have hall : ∀ j ∈ a.toolCallOrder, a.toolCalls j ≠ none := fun j hj hnone =>
    (h.known j).mp hnone ((h.listed j).mp hj)
  have hmem : id ∈ a.toolCallOrder := by
    refine (h.listed id).mpr (Classical.not_not.mp fun hnot => ?_)
    rw [(h.known id).mpr hnot] at hheld
    cases hheld
  unfold Response.shown
  rw [buildResponse_toolCalls, buildResponse_toolCalls, hcalls, horder,
    hknown a.toolCalls hall, hknown _ fun j hj => by
      by_cases hid : j = id
      · simp [hid]
      · rw [update_of_ne hid]; exact hall j hj]
  refine Prod.Lex.toLex_lt_toLex.mpr (Or.inr ⟨rfl, sum_lt_sum _ _ (fun j hj => ?_) ?_⟩)
  · by_cases hid : j = id
    · subst hid
      rw [update_self, hheld]
      exact Nat.le_of_lt hfilled
    · rw [update_of_ne hid]
  · refine ⟨id, hmem, ?_⟩
    rw [update_self, hheld]
    exact hfilled

theorem buildResponse_quiet (h : TextAccount events a) {ev : StreamEvent}
    (hfin : ev.type ≠ .finish) (hev : ev.marks = false)
    (hcalls : (a.process ev).toolCallOrder.filterMap (a.process ev).toolCalls =
      a.toolCallOrder.filterMap a.toolCalls) : (a.process ev).buildResponse = a.buildResponse := by
  obtain ⟨hreasoning, htext⟩ := unmarked_texts h hev
  obtain ⟨hfinish, husage⟩ := a.process_finish_usage hfin
  exact buildResponse_congr hreasoning htext hcalls hfinish husage

/-- A delta or an end without arguments gives the entry the fields that it lacks. -/
theorem unmarked_piece (a : StreamAccumulator) {ev : StreamEvent} (hid : ev.callID? = some id)
    (htype : ev.type ≠ .toolCallStart) (hev : ev.marks = false) :
    ∃ tc, (a.process ev).toolCalls = Function.update a.toolCalls id
        (some (((a.toolCalls id).getD { id := id, itemID := tc.itemID }).fill tc)) ∧
      (a.process ev).toolCallOrder =
        (if a.toolCalls id = none then a.toolCallOrder ++ [id] else a.toolCallOrder) ∧
      a.overlooks ev = match a.toolCalls id with
        | none => true
        | some held => held.fill tc ≠ held := by
  have hpiece : ∀ tc join, tc.id ≠ "" → tc.arguments = [] →
      (a.callPiece (some tc) join).toolCalls = Function.update a.toolCalls tc.id
        (some (((a.toolCalls tc.id).getD { id := tc.id, itemID := tc.itemID }).fill tc)) ∧
      (a.callPiece (some tc) join).toolCallOrder =
        (if a.toolCalls tc.id = none then a.toolCallOrder ++ [tc.id] else a.toolCallOrder) := by
    intro tc join hne hnil
    unfold callPiece ToolCallData.take
    simp only [if_neg hne, if_pos hnil]
    exact ⟨rfl, trivial⟩
  unfold StreamEvent.callID? at hid
  split at hid
  · next hstart => exact absurd hstart htype
  · next hdelta =>
    obtain ⟨hmap, hne⟩ := filter_eq_some_iff.mp hid
    obtain ⟨tc, htc, rfl⟩ := map_eq_some_iff.mp hmap
    have hne' : tc.id ≠ "" := by simpa using hne
    have hnil : tc.arguments = [] := by simpa [StreamEvent.marks, hdelta, htc, hne'] using hev
    obtain ⟨hcalls, horder⟩ := hpiece tc (fun held sent => held ++ sent) hne' hnil
    refine ⟨tc, ?_, ?_, by simp [overlooks, hdelta, htc, hne', hnil]⟩
    · simpa only [process, hdelta, htc] using hcalls
    · simpa only [process, hdelta, htc] using horder
  · next hend =>
    obtain ⟨hmap, hne⟩ := filter_eq_some_iff.mp hid
    obtain ⟨tc, htc, rfl⟩ := map_eq_some_iff.mp hmap
    have hne' : tc.id ≠ "" := by simpa using hne
    have hnil : tc.arguments = [] := by simpa [StreamEvent.marks, hend, htc, hne'] using hev
    obtain ⟨hcalls, horder⟩ := hpiece tc (fun _ sent => sent) hne' hnil
    refine ⟨tc, ?_, ?_, by simp [overlooks, hend, htc, hne', hnil]⟩
    · simpa only [process, hend, htc] using hcalls
    · simpa only [process, hend, htc] using horder
  · cases hid

theorem not_overlooks_of_no_call (a : StreamAccumulator) {ev : StreamEvent}
    (h : ev.callID? = none) : a.overlooks ev = false := by
  unfold StreamEvent.callID? at h
  unfold overlooks
  cases htype : ev.type <;> cases htc : ev.toolCall <;> simp_all

theorem not_marks_of_overlooks {ev : StreamEvent} (h : a.overlooks ev = true) :
    ev.marks = false := by
  unfold overlooks at h
  unfold StreamEvent.marks
  cases htype : ev.type <;> cases htc : ev.toolCall <;> simp_all

/-- An event that marks nothing changes the response exactly when it is overlooked. -/
theorem unmarked_step (ht : TextAccount events a) (hc : CallAccount events a) {ev : StreamEvent}
    (hfin : ev.type ≠ .finish) (hev : ev.marks = false) :
    (a.overlooks ev = false ∧ (a.process ev).buildResponse = a.buildResponse) ∨
      (a.overlooks ev = true ∧ a.buildResponse.shown < (a.process ev).buildResponse.shown) := by
  rcases a.process_calls ev with ⟨hid, hcalls, horder⟩ |
    ⟨tc, htype, htc, hid, hcalls, horder⟩ | ⟨id, _, htype, hid, _, _, _, _⟩
  · refine Or.inl ⟨a.not_overlooks_of_no_call hid, buildResponse_quiet ht hfin hev ?_⟩
    rw [hcalls, horder]
  · refine Or.inr ⟨?_, shown_lt_of_append hc (hc.process ev) horder⟩
    have hne : tc.id ≠ "" := ne_empty_of_callID hid
    simp [overlooks, htype, htc, hne]
  · obtain ⟨tc, hcalls, horder, hoverlooks⟩ := a.unmarked_piece hid htype hev
    cases hheld : a.toolCalls id with
    | none =>
      rw [hheld] at hoverlooks
      rw [if_pos hheld] at horder
      exact Or.inr ⟨hoverlooks, shown_lt_of_append hc (hc.process ev) horder⟩
    | some held =>
      simp only [hheld, getD_some] at hoverlooks hcalls
      rw [hheld, if_neg (by simp)] at horder
      rcases filled_fill held tc with hsame | hmore
      · refine Or.inl ⟨by simp [hoverlooks, hsame], buildResponse_quiet ht hfin hev ?_⟩
        rw [hcalls, horder, hsame, ← hheld, update_eq_self]
      · refine Or.inr ⟨?_, shown_lt_of_fill hc hheld hcalls horder hmore⟩
        rw [hoverlooks, decide_eq_true_eq]
        exact fun hsame => absurd hmore (by rw [hsame]; exact Nat.lt_irrefl _)

end StreamAccumulator

/-! ## Runs of events and reads -/

theorem account_runOps (ops : List Op) :
    TextAccount (ops.filterMap Op.event?) (runOps ops) ∧
      CallAccount (ops.filterMap Op.event?) (runOps ops) := by
  obtain ⟨ht, hc⟩ := account_run (ops.filterMap Op.event?)
  have hcontent : (runOps ops).content = (StreamAccumulator.content (_ : StreamAccumulator)) :=
    content_run ops
  obtain ⟨h1, h2, h3, h4, h5, -, -, -⟩ := StreamAccumulator.mk.inj hcontent
  refine ⟨⟨h2.trans ht.order, fun id => (congrFun h1 id).trans (ht.text id), h3.trans ht.reasoning⟩,
    ⟨fun id => ?_, fun id tc h => ?_, fun id => ?_, fun h => ?_, fun h => h5.trans (hc.once h),
      fun h id tc hid => ?_⟩⟩
  · rw [h4]; exact hc.known id
  · rw [h4] at h; exact hc.ids id tc h
  · rw [h5]; exact hc.listed id
  · rw [h5]; exact hc.repeated h
  · rw [h4] at hid; exact hc.arguments h id tc hid

/-- No event of the operations is a finish. -/
def Unfinished (ops : List Op) : Prop := ∀ ev, Op.event ev ∈ ops → ev.type ≠ .finish

theorem Unfinished.append {ops' : List Op} (h : Unfinished (ops ++ ops')) :
    Unfinished ops ∧ Unfinished ops' :=
  ⟨fun ev hev => h ev (mem_append_left _ hev),
    fun ev hev => h ev (mem_append_right _ hev)⟩

theorem any_append_marks {op : Op} :
    (ops ++ [op]).any Op.marks = (ops.any Op.marks || op.marks) := by
  simp

/-- The last of some operations is one of theirs. -/
theorem split_append {after after' later : List Op} {op op' : Op}
    (h : after ++ [op] = after' ++ op' :: later) :
    (after' = after ∧ op' = op) ∨ ∃ later', after = after' ++ op' :: later' := by
  cases eq_nil_or_concat later with
  | inl hnil =>
    subst hnil
    obtain ⟨hinit, hlast⟩ := append_inj' h rfl
    exact Or.inl ⟨hinit.symm, (singleton_inj.mp hlast).symm⟩
  | inr hmore =>
    obtain ⟨later', last, rfl⟩ := hmore
    have h' : after ++ [op] = (after' ++ op' :: later') ++ [last] := by simpa using h
    exact Or.inr ⟨later', (append_inj' h' rfl).1⟩

/-- Operations that mark nothing leave the response as it was, or show more of it. -/
theorem unmarked_run (before after : List Op) (hfin : Unfinished (before ++ after))
    (hafter : after.any Op.marks = false) :
    ((runOps (before ++ after)).buildResponse = (runOps before).buildResponse ∧
        ∀ after' ev later, after = after' ++ .event ev :: later →
          (runOps (before ++ after')).overlooks ev = false) ∨
      ((runOps before).buildResponse.shown < (runOps (before ++ after)).buildResponse.shown ∧
        ∃ after' ev later, after = after' ++ .event ev :: later ∧
          (runOps (before ++ after')).overlooks ev = true) := by
  induction after using List.reverseRecOn with
  | nil => exact Or.inl ⟨by rw [append_nil], fun _ _ _ h => absurd h (by simp)⟩
  | append_singleton after op ih =>
    rw [← append_assoc] at hfin
    rw [any_append_marks, Bool.or_eq_false_iff] at hafter
    have hbefore := ih hfin.append.1 hafter.1
    rw [← append_assoc, runOps_append]
    cases op with
    | read =>
      have hread : ((runOps (before ++ after)).step .read).buildResponse =
          (runOps (before ++ after)).buildResponse := by
        rw [← StreamAccumulator.buildResponse_content,
          show (runOps (before ++ after)).step .read = (runOps (before ++ after)).partialResponse.2
            from rfl, StreamAccumulator.partialResponse_content]
        rfl
      rw [hread]
      refine hbefore.imp (fun h => ⟨h.1, fun after' ev later heq => ?_⟩)
        (fun h => ⟨h.1, ?_⟩)
      · rcases split_append heq with ⟨-, hop⟩ | ⟨later', hsplit⟩
        · cases hop
        · exact h.2 after' ev later' hsplit
      · obtain ⟨after', ev, later, hsplit, hover⟩ := h.2
        exact ⟨after', ev, later ++ [.read], by rw [hsplit]; simp, hover⟩
    | event ev =>
      obtain ⟨ht, hc⟩ := account_runOps (before ++ after)
      have hev : ev.marks = false := by simpa [Op.marks, Op.event?] using hafter.2
      have htype : ev.type ≠ .finish := hfin ev (by simp)
      have hstep := StreamAccumulator.unmarked_step ht hc htype hev
      change _ ∨ _ ∧ ∃ after' ev' later, _
      rw [show (runOps (before ++ after)).step (.event ev) = (runOps (before ++ after)).process ev
        from rfl]
      rcases hbefore with ⟨hsame, hnone⟩ | ⟨hless, after', ev', later, hsplit, hover⟩
      · rcases hstep with ⟨hquiet, hstill⟩ | ⟨hover, hmore⟩
        · refine Or.inl ⟨hstill.trans hsame, fun after' ev' later heq => ?_⟩
          rcases split_append heq with ⟨rfl, hop⟩ | ⟨later', hsplit⟩
          · cases hop
            exact hquiet
          · exact hnone after' ev' later' hsplit
        · refine Or.inr ⟨hsame ▸ hmore, after, ev, [], rfl, hover⟩
      · refine Or.inr ⟨?_, after', ev', later ++ [.event ev], by rw [hsplit]; simp, hover⟩
        rcases hstep with ⟨-, hstill⟩ | ⟨-, hmore⟩
        · rw [hstill]; exact hless
        · exact lt_trans hless hmore

/-- What a read at the end finds: nothing marked, a stale response, or what an earlier read
built. -/
theorem held_run (ops : List Op) (hfin : Unfinished ops) :
    (ops.any Op.marks = false ∧ (runOps ops).dirty = false ∧ (runOps ops).heldPartial = none) ∨
      (ops.any Op.marks = true ∧ (runOps ops).dirty = true) ∨
      (runOps ops).dirty = false ∧ ∃ before after, ops = before ++ .read :: after ∧
        before.any Op.marks = true ∧ after.any Op.marks = false ∧
        (runOps ops).heldPartial = some (runOps before).buildResponse := by
  induction ops using List.reverseRecOn with
  | nil => exact Or.inl ⟨rfl, rfl, rfl⟩
  | append_singleton ops op ih =>
    have hbefore := ih hfin.append.1
    rw [any_append_marks, runOps_append]
    cases op with
    | read =>
      have hop : Op.read.marks = false := rfl
      rw [hop, Bool.or_false]
      change _ ∨ _ ∨ (runOps ops).partialResponse.2.dirty = false ∧ _
      rcases hbefore with ⟨hmarks, hdirty, hheld⟩ | ⟨hmarks, hdirty⟩ |
        ⟨hdirty, before, after, heq, hmarks, hafter, hheld⟩
      · refine Or.inl ⟨hmarks, ?_, ?_⟩
        · simp [StreamAccumulator.step, StreamAccumulator.partialResponse, hdirty]
        · simp [StreamAccumulator.step, StreamAccumulator.partialResponse, hdirty, hheld]
      · refine Or.inr (Or.inr ⟨?_, ops, [], rfl, hmarks, rfl, ?_⟩)
        · simp [StreamAccumulator.partialResponse, hdirty]
        · simp [StreamAccumulator.step, StreamAccumulator.partialResponse, hdirty]
      · refine Or.inr (Or.inr ⟨?_, before, after ++ [.read], by rw [heq]; simp, hmarks, ?_, ?_⟩)
        · simp [StreamAccumulator.partialResponse, hdirty]
        · rw [any_append_marks, hafter, hop]
          rfl
        · simpa [StreamAccumulator.step, StreamAccumulator.partialResponse, hdirty] using hheld
    | event ev =>
      have hop : (Op.event ev).marks = ev.marks := rfl
      obtain ⟨hdirty', hheld'⟩ := (runOps ops).process_marks ev (hfin ev (by simp))
      rw [hop, show (runOps ops).step (.event ev) = (runOps ops).process ev from rfl, hdirty',
        hheld']
      cases hev : ev.marks with
      | true =>
        simp
      | false =>
        rw [Bool.or_false, Bool.or_false]
        refine hbefore.imp_right (Or.imp_right fun h => ⟨h.1, ?_⟩)
        obtain ⟨before, after, heq, hmarks, hafter, hheld⟩ := h.2
        refine ⟨before, after ++ [.event ev], by rw [heq]; simp, hmarks, ?_, hheld⟩
        rw [any_append_marks, hafter, hop, hev]
        rfl

/-- An accumulator that is not read is stale as soon as an event marks. -/
theorem unread_stale (ops : List Op) (hfin : Unfinished ops) :
    (runUnread ops).dirty = ops.any Op.marks ∧ (runUnread ops).heldPartial = none := by
  induction ops using List.reverseRecOn with
  | nil => exact ⟨rfl, rfl⟩
  | append_singleton ops op ih =>
    obtain ⟨hdirty, hheld⟩ := ih hfin.append.1
    rw [any_append_marks]
    unfold runUnread at hdirty hheld ⊢
    rw [filterMap_append]
    cases op with
    | read =>
      rw [show [Op.read].filterMap Op.event? = [] from rfl, append_nil,
        show Op.read.marks = false from rfl, Bool.or_false]
      exact ⟨hdirty, hheld⟩
    | event ev =>
      rw [show [Op.event ev].filterMap Op.event? = [ev] from rfl, foldl_append]
      obtain ⟨hdirty', hheld'⟩ := StreamAccumulator.process_marks
        ((ops.filterMap Op.event?).foldl StreamAccumulator.process newStreamAccumulator) ev
        (hfin ev (by simp))
      exact ⟨hdirty'.trans (by rw [hdirty]; rfl), hheld'.trans hheld⟩

theorem unread_answer (hfin : Unfinished ops) :
    (runUnread ops).partialResponse.1 =
      if ops.any Op.marks then some (runOps ops).buildResponse else none := by
  obtain ⟨hdirty, hheld⟩ := unread_stale ops hfin
  have hbuild : (runUnread ops).buildResponse = (runOps ops).buildResponse := by
    rw [← StreamAccumulator.buildResponse_content, ← content_run]
    rfl
  unfold StreamAccumulator.partialResponse
  cases hmarks : ops.any Op.marks with
  | true => simp [hdirty, hmarks, hbuild]
  | false => simp [hdirty, hmarks, hheld]

/-- What an earlier read built shows no more than the state the later reads find. -/
theorem shown_held_le {before : List Op} (hfin : Unfinished before)
    (hmarks : before.any Op.marks = true) {r : Response}
    (hr : (runOps before).partialResponse.1 = some r) :
    r.shown ≤ (runOps before).buildResponse.shown := by
  unfold StreamAccumulator.partialResponse at hr
  rcases held_run before hfin with ⟨hnone, -⟩ | ⟨-, hdirty⟩ |
    ⟨hdirty, before', after, heq, -, hafter, hheld⟩
  · rw [hnone] at hmarks
    cases hmarks
  · simp only [hdirty, if_true, Option.some.injEq] at hr
    rw [← hr]
  · simp only [hdirty, Bool.false_eq_true, if_false, hheld, Option.some.injEq] at hr
    rw [← hr]
    have hmore := unmarked_run before' (.read :: after) (heq ▸ hfin) hafter
    rw [← heq] at hmore
    rcases hmore with ⟨hsame, -⟩ | ⟨hless, -⟩
    · rw [hsame]
    · exact le_of_lt hless

/-- Behind a read, operations that mark nothing leave what it gave. -/
theorem held_unmarked (before after : List Op) (hfin : Unfinished (before ++ .read :: after))
    (hafter : after.any Op.marks = false) :
    (runOps (before ++ .read :: after)).dirty = false ∧
      (runOps (before ++ .read :: after)).heldPartial = (runOps before).partialResponse.1 := by
  induction after using List.reverseRecOn with
  | nil =>
    rw [runOps_append]
    unfold StreamAccumulator.step StreamAccumulator.partialResponse
    cases hdirty : (runOps before).dirty <;> simp [hdirty]
  | append_singleton after op ih =>
    rw [← cons_append, ← append_assoc] at hfin ⊢
    rw [any_append_marks, Bool.or_eq_false_iff] at hafter
    obtain ⟨hdirty, hheld⟩ := ih hfin.append.1 hafter.1
    rw [runOps_append]
    cases op with
    | read =>
      simp only [StreamAccumulator.step, StreamAccumulator.partialResponse, hdirty,
        Bool.false_eq_true, if_false]
      exact ⟨trivial, hheld⟩
    | event ev =>
      obtain ⟨hdirty', hheld'⟩ := StreamAccumulator.process_marks
        (runOps (before ++ .read :: after)) ev (hfin ev (by simp))
      have hev : ev.marks = false := by simpa [Op.marks, Op.event?] using hafter.2
      refine ⟨hdirty'.trans ?_, hheld'.trans hheld⟩
      rw [hdirty, hev]
      rfl

theorem partialResponse_fresh (ops : List Op) (hfin : Unfinished ops) :
    Fresh ops ↔ ¬ GoesUnmarked ops := by
  have hunread := unread_answer hfin
  constructor
  · rintro hfresh ⟨before, after, ev, later, heq, hmarks, hafter, hlater, hover⟩
    -- the answer is what was built before the event, the state shows more
    have hev : (Op.event ev).marks = false := StreamAccumulator.not_marks_of_overlooks hover
    have hrest : (after ++ .event ev :: later).any Op.marks = false := by
      rw [any_append, any_cons, hafter, hlater, hev]
      rfl
    have heq' : ops = before ++ .read :: (after ++ .event ev :: later) := by rw [heq]; simp
    obtain ⟨hdirty, hheld⟩ := held_unmarked before _ (heq' ▸ hfin) hrest
    rw [← heq'] at hdirty hheld
    have hbefore := (show Unfinished (before ++ _) from heq' ▸ hfin).append.1
    have hanswer : (runOps ops).partialResponse.1 = (runOps before).partialResponse.1 := by
      rw [← hheld]
      unfold StreamAccumulator.partialResponse
      simp [hdirty]
    have hall : ops.any Op.marks = true := by rw [heq', any_append, hmarks]; rfl
    have hsome : (runOps ops).partialResponse.1 = some (runOps ops).buildResponse := by
      rw [hfresh.1, hunread, if_pos hall]
    have hle := shown_held_le hbefore hmarks (hanswer.symm.trans hsome)
    have hmore := unmarked_run before (.read :: (after ++ .event ev :: later)) (heq' ▸ hfin) hrest
    rw [← heq'] at hmore
    rcases hmore with ⟨-, hnone⟩ | ⟨hless, -⟩
    · rw [hnone (.read :: after) ev later rfl] at hover
      cases hover
    · exact absurd hle (not_le.mpr hless)
  · intro hmarked
    have hanswer : (runOps ops).partialResponse.1 =
        if ops.any Op.marks then some (runOps ops).buildResponse else none := by
      rcases held_run ops hfin with ⟨hnone, hdirty, hheld⟩ | ⟨hall, hdirty⟩ |
        ⟨hdirty, before, after, heq, hmarks, hafter, hheld⟩
      · unfold StreamAccumulator.partialResponse
        simp [hnone, hdirty, hheld]
      · unfold StreamAccumulator.partialResponse
        simp [hall, hdirty]
      · have hall : ops.any Op.marks = true := by rw [heq, any_append, hmarks]; rfl
        have hsame := unmarked_run before (.read :: after) (heq ▸ hfin) hafter
        rw [← heq] at hsame
        rcases hsame with ⟨hsame, -⟩ | ⟨-, after', ev, later, hsplit, hover⟩
        · unfold StreamAccumulator.partialResponse
          simp [hall, hdirty, hheld, hsame]
        · exfalso
          -- the event stands behind the read itself
          match after' with
          | [] => cases hsplit
          | _ :: after' =>
            obtain ⟨rfl, rfl⟩ := List.cons.inj hsplit
            have hafter' : (after' ++ .event ev :: later).any Op.marks = false := hafter
            rw [any_append, any_cons, Bool.or_eq_false_iff, Bool.or_eq_false_iff]
              at hafter'
            exact hmarked ⟨before, after', ev, later, by rw [heq]; simp, hmarks, hafter'.1,
              hafter'.2.2, hover⟩
    refine ⟨hanswer.trans hunread.symm, fun r hr => ?_⟩
    rw [hanswer] at hr
    split at hr
    · exact (some.inj hr).symm
    · cases hr

/-- A text, a read, and the start of a call, with the text going on behind it. -/
def readEarly : List Op :=
  [.event { type := .textDelta, textID := "t", delta := "look" }, .read,
    .event { type := .toolCallStart, toolCall := some { id := "a", name := "read" } },
    .event { type := .textDelta, textID := "t", delta := "ing" }]

theorem readEarly_fresh : Fresh readEarly := by
  refine (partialResponse_fresh readEarly ?_).mpr ?_
  · intro ev hev
    simp only [readEarly, mem_cons, Op.event.injEq, reduceCtorEq, not_mem_nil, or_false,
      false_or] at hev
    rcases hev with rfl | rfl | rfl <;> decide
  · rintro ⟨before, after, ev, later, heq, -, -, hlater, hover⟩
    unfold readEarly at heq
    rcases before with _ | ⟨_, _ | ⟨_, before⟩⟩
    · simp at heq
    · rcases after with _ | ⟨_, _ | ⟨_, after⟩⟩
      · simp only [cons_append, nil_append, List.cons.injEq] at heq
        rw [← heq.2.2.2] at hlater
        exact absurd hlater (by decide)
      · simp only [cons_append, nil_append, List.cons.injEq, Op.event.injEq] at heq
        rw [← heq.2.2.2.1] at hover
        simp [StreamAccumulator.overlooks] at hover
      · simp at heq
    · rcases before with _ | ⟨_, _ | ⟨_, before⟩⟩ <;> simp at heq

/-- A call that starts behind a read is not shown when nothing more is sent. -/
theorem start_unread :
    ¬ ∀ ops, Unfinished ops → Fresh ops := by
  intro h
  have hfresh := h [.event { type := .textDelta, textID := "t", delta := "look" }, .read,
    .event { type := .toolCallStart, toolCall := some { id := "a" } }] ?_
  · have hlength := congrArg (Option.map fun r => r.toolCalls.length) hfresh.1
    exact absurd hlength (by decide)
  · intro ev hev
    simp only [mem_cons, Op.event.injEq, reduceCtorEq, not_mem_nil, or_false,
      false_or] at hev
    rcases hev with rfl | rfl <;> decide

end Evener.Llm
