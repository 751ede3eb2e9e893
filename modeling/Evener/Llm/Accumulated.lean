/-
  What the response of a finished stream holds, told from the events alone: the calls in order of
  first appearance, the arguments of each, the text and the reasoning.
-/
import Evener.Llm.Accumulator
import Mathlib.Data.List.Dedup
import Mathlib.Data.List.Induction

namespace Evener.Llm

open List Function
open Evener.Lib (Bytes)

/-! ## The events' own account -/

/-- The values of a list in order of first appearance. -/
def firstSeen (l : List String) : List String := l.reverse.dedup.reverse

/-- The call an event of a tool call speaks of. -/
def StreamEvent.callID? (ev : StreamEvent) : Option String :=
  match ev.type with
  | .toolCallStart | .toolCallDelta | .toolCallEnd => (ev.toolCall.map (·.id)).filter (· ≠ "")
  | _ => none

/-- The text a text event speaks of. -/
def StreamEvent.textID? (ev : StreamEvent) : Option String :=
  match ev.type with
  | .textStart | .textDelta => some ev.textKey
  | _ => none

/-- The arguments an event adds to the call `id`, and whether it is an end, which replaces. -/
def StreamEvent.carries? (ev : StreamEvent) (id : String) : Option (Bool × Bytes) :=
  match ev.type, ev.toolCall with
  | .toolCallDelta, some tc =>
    if tc.id = id ∧ tc.arguments ≠ [] then some (false, tc.arguments) else none
  | .toolCallEnd, some tc =>
    if tc.id = id ∧ tc.arguments ≠ [] then some (true, tc.arguments) else none
  | _, _ => none

def callIDs (events : List StreamEvent) : List String :=
  firstSeen (events.filterMap StreamEvent.callID?)

def textIDs (events : List StreamEvent) : List String :=
  firstSeen (events.filterMap StreamEvent.textID?)

/-- What becomes of the arguments of a call when an event carries some. -/
def joined (held : Bytes) : Option (Bool × Bytes) → Bytes
  | none => held
  | some (true, arguments) => arguments
  | some (false, arguments) => held ++ arguments

/-- The last end's arguments, if there is an end, and those of the deltas behind it. -/
def sinceLastEnd (carried : List (Bool × Bytes)) : Bytes :=
  (((carried.reverse.dropWhile fun c => !c.1).head?.map (·.2)).getD []) ++
    (carried.reverse.takeWhile fun c => !c.1).reverse.flatMap (·.2)

def argumentsOf (events : List StreamEvent) (id : String) : Bytes :=
  sinceLastEnd (events.filterMap (·.carries? id))

def textOf (events : List StreamEvent) (id : String) : String :=
  String.join ((events.filter fun ev => ev.type = .textDelta ∧ ev.textKey = id).map (·.delta))

def reasoningOf (events : List StreamEvent) : String :=
  String.join ((events.filter fun ev => ev.type = .reasoningDelta).map (·.reasoningDelta))

/-- The response is the one the events tell. -/
structure Response.Tells (r : Response) (events : List StreamEvent) : Prop where
  calls : r.toolCalls.map (·.id) = callIDs events
  arguments : ∀ tc ∈ r.toolCalls, tc.arguments = argumentsOf events tc.id
  text : r.text = String.join ((textIDs events).map (textOf events))
  reasoning : r.reasoningText = reasoningOf events

/-- A start names a call that an event before it speaks of. -/
def RepeatsStart (events : List StreamEvent) : Prop :=
  ∃ earlier ev later tc, events = earlier ++ ev :: later ∧ ev.type = .toolCallStart ∧
    ev.toolCall = some tc ∧ tc.id ∈ callIDs earlier

/-! ## One more event -/

theorem firstSeen_append (l : List String) (x : String) :
    firstSeen (l ++ [x]) = if x ∈ firstSeen l then firstSeen l else firstSeen l ++ [x] := by
  unfold firstSeen
  rw [reverse_append, reverse_singleton, singleton_append]
  by_cases hx : x ∈ l.reverse
  · rw [dedup_cons_of_mem hx, if_pos (by simpa using hx)]
  · rw [dedup_cons_of_notMem hx, reverse_cons, if_neg (by simpa using hx)]

theorem nodup_firstSeen (l : List String) : (firstSeen l).Nodup :=
  nodup_reverse.mpr (nodup_dedup _)

theorem callIDs_append (events : List StreamEvent) (ev : StreamEvent) :
    callIDs (events ++ [ev]) =
      match ev.callID? with
      | none => callIDs events
      | some id => if id ∈ callIDs events then callIDs events else callIDs events ++ [id] := by
  unfold callIDs
  rw [filterMap_append]
  cases h : ev.callID? with
  | none => simp [h]
  | some id => simp only [filterMap_cons, h, filterMap_nil]; exact firstSeen_append _ _

theorem textIDs_append (events : List StreamEvent) (ev : StreamEvent) :
    textIDs (events ++ [ev]) =
      match ev.textID? with
      | none => textIDs events
      | some id => if id ∈ textIDs events then textIDs events else textIDs events ++ [id] := by
  unfold textIDs
  rw [filterMap_append]
  cases h : ev.textID? with
  | none => simp [h]
  | some id => simp only [filterMap_cons, h, filterMap_nil]; exact firstSeen_append _ _

theorem sinceLastEnd_end (carried : List (Bool × Bytes)) (arguments : Bytes) :
    sinceLastEnd (carried ++ [(true, arguments)]) = arguments := by
  simp [sinceLastEnd]

theorem sinceLastEnd_delta (carried : List (Bool × Bytes)) (arguments : Bytes) :
    sinceLastEnd (carried ++ [(false, arguments)]) = sinceLastEnd carried ++ arguments := by
  simp [sinceLastEnd, flatMap_append]

theorem argumentsOf_append (events : List StreamEvent) (ev : StreamEvent) (id : String) :
    argumentsOf (events ++ [ev]) id = joined (argumentsOf events id) (ev.carries? id) := by
  unfold argumentsOf
  rw [filterMap_append]
  match h : ev.carries? id with
  | none => simp [h, joined]
  | some (true, arguments) =>
    simp only [filterMap_cons, h, filterMap_nil]
    exact sinceLastEnd_end _ _
  | some (false, arguments) =>
    simp only [filterMap_cons, h, filterMap_nil]
    exact sinceLastEnd_delta _ _

theorem textOf_append (events : List StreamEvent) (ev : StreamEvent) (id : String) :
    textOf (events ++ [ev]) id =
      if ev.type = .textDelta ∧ ev.textKey = id then textOf events id ++ ev.delta
      else textOf events id := by
  unfold textOf
  rw [filter_append, map_append, String.join_append]
  by_cases h : ev.type = .textDelta ∧ ev.textKey = id <;> simp [h]

theorem reasoningOf_append (events : List StreamEvent) (ev : StreamEvent) :
    reasoningOf (events ++ [ev]) =
      if ev.type = .reasoningDelta then reasoningOf events ++ ev.reasoningDelta
      else reasoningOf events := by
  unfold reasoningOf
  rw [filter_append, map_append, String.join_append]
  by_cases h : ev.type = .reasoningDelta <;> simp [h]

variable {id : String} {events : List StreamEvent}

/-- The call an event carries arguments for is the call it speaks of. -/
theorem callID_of_carries {ev : StreamEvent} (hid : id ≠ "") (h : ev.carries? id ≠ none) :
    ev.callID? = some id := by
  unfold StreamEvent.carries? at h
  unfold StreamEvent.callID?
  split at h
  · next tc htype htc =>
    split at h
    · next heq => simp [htype, htc, heq.1, hid]
    · exact absurd rfl h
  · next tc htype htc =>
    split at h
    · next heq => simp [htype, htc, heq.1, hid]
    · exact absurd rfl h
  · exact absurd rfl h

theorem mem_callIDs : id ∈ callIDs events ↔ ∃ ev ∈ events, ev.callID? = some id := by
  unfold callIDs firstSeen
  simp [mem_filterMap]

theorem ne_empty_of_callID {ev : StreamEvent} (h : ev.callID? = some id) : id ≠ "" := by
  unfold StreamEvent.callID? at h
  split at h
  case h_4 => cases h
  all_goals
    obtain ⟨_, hne⟩ := Option.filter_eq_some_iff.mp h
    simpa using hne

/-- A call that no event speaks of has no arguments. -/
theorem argumentsOf_new (hid : id ≠ "") (h : id ∉ callIDs events) : argumentsOf events id = [] := by
  have hnone : events.filterMap (·.carries? id) = [] := by
    refine filterMap_eq_nil_iff.mpr fun ev hev => ?_
    by_contra hcarries
    exact h (mem_callIDs.mpr ⟨ev, hev, callID_of_carries hid hcarries⟩)
  rw [argumentsOf, hnone]
  rfl

theorem textOf_new (h : id ∉ textIDs events) : textOf events id = "" := by
  have hnone : (events.filter fun ev => ev.type = .textDelta ∧ ev.textKey = id) = [] := by
    refine filter_eq_nil_iff.mpr fun ev hev hspeaks => h ?_
    obtain ⟨htype, hkey⟩ := of_decide_eq_true hspeaks
    unfold textIDs firstSeen
    rw [mem_reverse, mem_dedup, mem_reverse, mem_filterMap]
    exact ⟨ev, hev, by rw [StreamEvent.textID?, htype, hkey]⟩
  rw [textOf, hnone]
  rfl

theorem repeatsStart_append (events : List StreamEvent) (ev : StreamEvent) :
    RepeatsStart (events ++ [ev]) ↔ RepeatsStart events ∨
      (ev.type = .toolCallStart ∧ ∃ tc, ev.toolCall = some tc ∧ tc.id ∈ callIDs events) := by
  constructor
  · rintro ⟨earlier, e, later, tc, heq, htype, htc, hmem⟩
    cases eq_nil_or_concat later with
    | inl hnil =>
      subst hnil
      obtain ⟨rfl, hlast⟩ := append_inj' heq rfl
      cases hlast
      exact Or.inr ⟨htype, tc, htc, hmem⟩
    | inr hmore =>
      obtain ⟨later', last, rfl⟩ := hmore
      have heq' : events ++ [ev] = (earlier ++ e :: later') ++ [last] := by simpa using heq
      obtain ⟨rfl, -⟩ := append_inj' heq' rfl
      exact Or.inl ⟨earlier, e, later', tc, rfl, htype, htc, hmem⟩
  · rintro (⟨earlier, e, later, tc, rfl, h⟩ | ⟨htype, tc, htc, hmem⟩)
    · exact ⟨earlier, e, later ++ [ev], tc, by simp, h⟩
    · exact ⟨events, ev, [], tc, rfl, htype, htc, hmem⟩

/-! ## What an event does to the calls, the texts and the reasoning -/

namespace StreamAccumulator

variable (a : StreamAccumulator) (ev : StreamEvent)

theorem openText_calls (id : String) : (a.openText id).toolCalls = a.toolCalls ∧
    (a.openText id).toolCallOrder = a.toolCallOrder ∧ (a.openText id).reasoning = a.reasoning := by
  unfold openText
  split <;> exact ⟨rfl, rfl, rfl⟩

theorem openText_texts (id : String) :
    (a.openText id).textOrder =
      (if a.textByID id = none then a.textOrder ++ [id] else a.textOrder) ∧
    (a.openText id).textByID =
      Function.update a.textByID id (some ((a.textByID id).getD "")) := by
  unfold openText
  cases h : a.textByID id with
  | none => simp
  | some text =>
    have hsame : Function.update a.textByID id (some text) = a.textByID := by
      rw [← h, update_eq_self]
    simp [hsame]

theorem callPiece_texts (toolCall : Option ToolCallData) (join : Bytes → Bytes → Bytes) :
    (a.callPiece toolCall join).textOrder = a.textOrder ∧
      (a.callPiece toolCall join).textByID = a.textByID := by
  unfold callPiece
  split <;> [skip; split] <;> exact ⟨rfl, rfl⟩

theorem callPiece_reasoning (toolCall : Option ToolCallData) (join : Bytes → Bytes → Bytes) :
    (a.callPiece toolCall join).reasoning = a.reasoning := by
  unfold callPiece
  split <;> [skip; split] <;> rfl

theorem callPiece_calls (toolCall : Option ToolCallData) (join : Bytes → Bytes → Bytes) :
    ((toolCall.map (·.id)).filter (· ≠ "") = none ∧
      (a.callPiece toolCall join).toolCalls = a.toolCalls ∧
      (a.callPiece toolCall join).toolCallOrder = a.toolCallOrder) ∨
    ∃ tc call, toolCall = some tc ∧ tc.id ≠ "" ∧
      (a.callPiece toolCall join).toolCalls = Function.update a.toolCalls tc.id (some call) ∧
      (a.callPiece toolCall join).toolCallOrder =
        (if a.toolCalls tc.id = none then a.toolCallOrder ++ [tc.id] else a.toolCallOrder) ∧
      call.id = ((a.toolCalls tc.id).map (·.id)).getD tc.id ∧
      call.arguments =
        (if tc.arguments = [] then ((a.toolCalls tc.id).map (·.arguments)).getD []
          else join (((a.toolCalls tc.id).map (·.arguments)).getD []) tc.arguments) := by
  unfold callPiece
  cases toolCall with
  | none => exact Or.inl ⟨rfl, rfl, rfl⟩
  | some tc =>
    by_cases hid : tc.id = ""
    · exact Or.inl ⟨by simp [hid], by simp [hid], by simp [hid]⟩
    · refine Or.inr ⟨tc, ((a.toolCalls tc.id).getD { id := tc.id, itemID := tc.itemID }).take tc join,
        rfl, hid, ?_⟩
      simp only [if_neg hid, ToolCallData.take]
      refine ⟨trivial, trivial, ?_, ?_⟩
      · cases a.toolCalls tc.id <;> rfl
      · cases a.toolCalls tc.id <;> rfl

/-- An event leaves the calls alone, starts one, or adds to the one it speaks of. -/
theorem process_calls :
    (ev.callID? = none ∧ (a.process ev).toolCalls = a.toolCalls ∧
      (a.process ev).toolCallOrder = a.toolCallOrder) ∨
    (∃ tc, ev.type = .toolCallStart ∧ ev.toolCall = some tc ∧ ev.callID? = some tc.id ∧
      (a.process ev).toolCalls = Function.update a.toolCalls tc.id
        (some { id := tc.id, itemID := tc.itemID, name := tc.name, type := tc.type }) ∧
      (a.process ev).toolCallOrder = a.toolCallOrder ++ [tc.id]) ∨
    (∃ id call, ev.type ≠ .toolCallStart ∧ ev.callID? = some id ∧
      (a.process ev).toolCalls = Function.update a.toolCalls id (some call) ∧
      (a.process ev).toolCallOrder =
        (if a.toolCalls id = none then a.toolCallOrder ++ [id] else a.toolCallOrder) ∧
      call.id = ((a.toolCalls id).map (·.id)).getD id ∧
      call.arguments = joined (((a.toolCalls id).map (·.arguments)).getD []) (ev.carries? id)) := by
  unfold process StreamEvent.callID? StreamEvent.carries?
  cases htype : ev.type <;> dsimp only
  case toolCallStart =>
    cases htc : ev.toolCall with
    | none => exact Or.inl ⟨rfl, rfl, rfl⟩
    | some tc =>
      by_cases hid : tc.id = ""
      · exact Or.inl ⟨by simp [hid], by simp [hid], by simp [hid]⟩
      · exact Or.inr (Or.inl ⟨tc, rfl, rfl, by simp [hid], by simp [hid], by simp [hid]⟩)
  case toolCallDelta =>
    rcases a.callPiece_calls ev.toolCall (fun held sent => held ++ sent) with
      hleft | ⟨tc, call, htc, hid, hcalls, horder, hcall, hargs⟩
    · exact Or.inl hleft
    · refine Or.inr (Or.inr ⟨tc.id, call, by simp, by simp [htc, hid], hcalls, horder, hcall, ?_⟩)
      by_cases hnil : tc.arguments = [] <;> simp [hargs, htc, hnil, joined]
  case toolCallEnd =>
    rcases a.callPiece_calls ev.toolCall (fun _ sent => sent) with
      hleft | ⟨tc, call, htc, hid, hcalls, horder, hcall, hargs⟩
    · exact Or.inl hleft
    · refine Or.inr (Or.inr ⟨tc.id, call, by simp, by simp [htc, hid], hcalls, horder, hcall, ?_⟩)
      by_cases hnil : tc.arguments = [] <;> simp [hargs, htc, hnil, joined]
  case textStart => exact Or.inl ⟨rfl, (a.openText_calls _).1, (a.openText_calls _).2.1⟩
  case textDelta =>
    refine Or.inl ⟨rfl, ?_, ?_⟩
    · split <;> exact (a.openText_calls _).1
    · split <;> exact (a.openText_calls _).2.1
  case reasoningDelta => refine Or.inl ⟨rfl, ?_, ?_⟩ <;> split <;> rfl
  all_goals exact Or.inl ⟨rfl, rfl, rfl⟩

/-- The texts after an event: the one it speaks of is there, with the delta. -/
theorem process_texts :
    (a.process ev).textOrder =
      (match ev.textID? with
      | none => a.textOrder
      | some id => if a.textByID id = none then a.textOrder ++ [id] else a.textOrder) ∧
    (a.process ev).textByID =
      match ev.textID? with
      | none => a.textByID
      | some id => Function.update a.textByID id
          (some ((a.textByID id).getD "" ++ if ev.type = .textDelta then ev.delta else "")) := by
  unfold process StreamEvent.textID?
  cases htype : ev.type <;> dsimp only
  case textStart => simp [openText_texts]
  case textDelta =>
    obtain ⟨horder, htext⟩ := a.openText_texts ev.textKey
    by_cases hdelta : ev.delta = ""
    · simp [hdelta, horder, htext]
    · simp [hdelta, horder, htext]
  case reasoningDelta => split <;> exact ⟨rfl, rfl⟩
  case toolCallStart => split <;> [skip; split] <;> exact ⟨rfl, rfl⟩
  case toolCallDelta => exact a.callPiece_texts _ _
  case toolCallEnd => exact a.callPiece_texts _ _
  all_goals exact ⟨rfl, rfl⟩

theorem process_reasoning :
    (a.process ev).reasoning =
      if ev.type = .reasoningDelta then a.reasoning ++ ev.reasoningDelta else a.reasoning := by
  unfold process
  cases htype : ev.type <;> dsimp only
  case textStart => exact (a.openText_calls _).2.2
  case textDelta => split <;> exact (a.openText_calls _).2.2
  case reasoningDelta =>
    by_cases hdelta : ev.reasoningDelta = "" <;> simp [hdelta]
  case toolCallStart => split <;> [skip; split] <;> rfl
  case toolCallDelta => exact a.callPiece_reasoning _ _
  case toolCallEnd => exact a.callPiece_reasoning _ _
  all_goals rfl

end StreamAccumulator

/-! ## The accounts of a run -/

/-- What the texts hold after the events. -/
structure TextAccount (events : List StreamEvent) (a : StreamAccumulator) : Prop where
  order : a.textOrder = textIDs events
  text : ∀ id, a.textByID id = if id ∈ textIDs events then some (textOf events id) else none
  reasoning : a.reasoning = reasoningOf events

/-- What the calls hold after the events. -/
structure CallAccount (events : List StreamEvent) (a : StreamAccumulator) : Prop where
  known : ∀ id, a.toolCalls id = none ↔ id ∉ callIDs events
  ids : ∀ id tc, a.toolCalls id = some tc → tc.id = id
  listed : ∀ id, id ∈ a.toolCallOrder ↔ id ∈ callIDs events
  repeated : RepeatsStart events → ¬ a.toolCallOrder.Nodup
  once : ¬ RepeatsStart events → a.toolCallOrder = callIDs events
  arguments : ¬ RepeatsStart events →
    ∀ id tc, a.toolCalls id = some tc → tc.arguments = argumentsOf events id

theorem TextAccount.process {a : StreamAccumulator} (h : TextAccount events a) (ev : StreamEvent) :
    TextAccount (events ++ [ev]) (a.process ev) := by
  obtain ⟨horder, htext⟩ := a.process_texts ev
  have hknown : ∀ id, a.textByID id = none ↔ id ∉ textIDs events := by
    intro id
    rw [h.text]
    by_cases hid : id ∈ textIDs events <;> simp [hid]
  refine ⟨?_, ?_, by rw [a.process_reasoning, reasoningOf_append, h.reasoning]⟩
  · rw [horder, textIDs_append, h.order]
    cases ev.textID? with
    | none => rfl
    | some id => simp only [hknown]; by_cases hid : id ∈ textIDs events <;> simp [hid]
  · intro id
    rw [htext, textIDs_append, textOf_append]
    cases hev : ev.textID? with
    | none =>
      have hother : ¬ (ev.type = .textDelta ∧ ev.textKey = id) := by
        rintro ⟨htype, -⟩
        simp [StreamEvent.textID?, htype] at hev
      simp only [if_neg hother]
      exact h.text id
    | some key =>
      have hkey : ev.textKey = key := by
        unfold StreamEvent.textID? at hev
        split at hev <;> simp_all
      simp only [hkey]
      by_cases hid : id = key
      · subst hid
        simp only [update_self, h.text]
        by_cases hmem : id ∈ textIDs events <;> by_cases htype : ev.type = .textDelta <;>
          simp [hmem, htype, textOf_new]
      · rw [update_of_ne hid, h.text]
        by_cases hmem : key ∈ textIDs events <;> simp [hmem, hid, Ne.symm hid]

/-- An event that speaks of no call changes nothing of the calls' account. -/
theorem CallAccount.quiet {a b : StreamAccumulator} (h : CallAccount events a) {ev : StreamEvent}
    (hev : ev.callID? = none) (hcalls : b.toolCalls = a.toolCalls)
    (horder : b.toolCallOrder = a.toolCallOrder) : CallAccount (events ++ [ev]) b := by
  have hids : callIDs (events ++ [ev]) = callIDs events := by rw [callIDs_append, hev]
  have hrepeats : RepeatsStart (events ++ [ev]) ↔ RepeatsStart events := by
    rw [repeatsStart_append]
    refine ⟨fun hor => hor.resolve_right ?_, Or.inl⟩
    rintro ⟨htype, tc, htc, hmem⟩
    obtain ⟨ev', _, hid⟩ := mem_callIDs.mp hmem
    have hne := ne_empty_of_callID hid
    simp [StreamEvent.callID?, htype, htc, hne] at hev
  refine ⟨?_, ?_, ?_, ?_, ?_, ?_⟩
  · rw [hids, hcalls]; exact h.known
  · rw [hcalls]; exact h.ids
  · rw [hids, horder]; exact h.listed
  · rw [hrepeats, horder]; exact h.repeated
  · rw [hrepeats, horder, hids]; exact h.once
  · rw [hrepeats, hcalls]
    intro honce id tc htc
    have hid : id ≠ "" := by
      have hmem : id ∈ callIDs events := by
        by_contra hnot
        rw [(h.known id).mpr hnot] at htc
        cases htc
      obtain ⟨ev', _, hid⟩ := mem_callIDs.mp hmem
      exact ne_empty_of_callID hid
    have hcarries : ev.carries? id = none := by
      by_contra hcarries
      rw [callID_of_carries hid hcarries] at hev
      cases hev
    rw [argumentsOf_append, hcarries]
    exact h.arguments honce id tc htc

/-- The order after an event that speaks of `id` and puts it there only when it is new. -/
theorem CallAccount.known_update {a : StreamAccumulator} (h : CallAccount events a)
    {ev : StreamEvent} (hev : ev.callID? = some id) (call : ToolCallData) (j : String) :
    Function.update a.toolCalls id (some call) j = none ↔ j ∉ callIDs (events ++ [ev]) := by
  rw [callIDs_append, hev]
  by_cases hj : j = id
  · subst hj
    by_cases hmem : j ∈ callIDs events <;> simp [hmem]
  · rw [update_of_ne hj, h.known]
    by_cases hmem : id ∈ callIDs events <;> simp [hmem, hj]

theorem CallAccount.process {a : StreamAccumulator} (h : CallAccount events a) (ev : StreamEvent) :
    CallAccount (events ++ [ev]) (a.process ev) := by
  rcases a.process_calls ev with ⟨hev, hcalls, horder⟩ |
    ⟨tc, htype, htc, hev, hcalls, horder⟩ | ⟨id, call, htype, hev, hcalls, horder, hcall, hargs⟩
  · exact h.quiet hev hcalls horder
  · -- a start: the id goes behind the order whether it is there or not
    have hrepeats : RepeatsStart (events ++ [ev]) ↔
        RepeatsStart events ∨ tc.id ∈ callIDs events := by
      rw [repeatsStart_append]
      simp [htype, htc]
    have hids := callIDs_append events ev
    simp only [hev] at hids
    refine ⟨?_, ?_, ?_, ?_, ?_, ?_⟩
    · rw [hcalls]; exact h.known_update hev _
    · intro j call hj
      rw [hcalls] at hj
      by_cases hid : j = tc.id
      · subst hid
        rw [update_self] at hj
        cases hj
        rfl
      · rw [update_of_ne hid] at hj
        exact h.ids j call hj
    · intro j
      rw [horder, hids, mem_append, h.listed, mem_singleton]
      by_cases hmem : tc.id ∈ callIDs events
      · rw [if_pos hmem]
        exact ⟨fun hor => hor.elim (fun hj => hj) fun hj => hj ▸ hmem, Or.inl⟩
      · rw [if_neg hmem, mem_append, mem_singleton]
    · rw [hrepeats, horder]
      rintro (hrepeated | hmem) hnodup
      · exact h.repeated hrepeated (List.Nodup.of_append_left hnodup)
      · exact disjoint_of_nodup_append hnodup ((h.listed _).mpr hmem) (mem_singleton_self _)
    · rw [hrepeats, horder, hids]
      intro hnew
      obtain ⟨honce, hmem⟩ := not_or.mp hnew
      rw [if_neg hmem, h.once honce]
    · rw [hrepeats]
      intro hnew j call hj
      obtain ⟨honce, hmem⟩ := not_or.mp hnew
      rw [argumentsOf_append]
      have hcarries : ev.carries? j = none := by simp [StreamEvent.carries?, htype]
      rw [hcarries]
      rw [hcalls] at hj
      by_cases hid : j = tc.id
      · subst hid
        rw [update_self] at hj
        cases hj
        exact (argumentsOf_new (ne_empty_of_callID hev) hmem).symm
      · rw [update_of_ne hid] at hj
        exact h.arguments honce j call hj
  · -- a delta or an end: the id goes behind the order when it is new
    have hrepeats : RepeatsStart (events ++ [ev]) ↔ RepeatsStart events := by
      rw [repeatsStart_append]
      simp [htype]
    have hids := callIDs_append events ev
    simp only [hev] at hids
    have horder' : (a.process ev).toolCallOrder =
        if id ∈ callIDs events then a.toolCallOrder else a.toolCallOrder ++ [id] := by
      rw [horder]
      by_cases hmem : id ∈ callIDs events
      · rw [if_pos hmem, if_neg fun hnone => (h.known id).mp hnone hmem]
      · rw [if_neg hmem, if_pos ((h.known id).mpr hmem)]
    refine ⟨?_, ?_, ?_, ?_, ?_, ?_⟩
    · rw [hcalls]; exact h.known_update hev _
    · intro j held hj
      rw [hcalls] at hj
      by_cases hid : j = id
      · subst hid
        rw [update_self] at hj
        cases hj
        rw [hcall]
        cases hheld : a.toolCalls j with
        | none => rfl
        | some old => exact h.ids j old hheld
      · rw [update_of_ne hid] at hj
        exact h.ids j held hj
    · intro j
      rw [horder', hids]
      by_cases hmem : id ∈ callIDs events
      · rw [if_pos hmem, if_pos hmem]; exact h.listed j
      · rw [if_neg hmem, if_neg hmem, mem_append, mem_append, h.listed]
    · rw [hrepeats, horder']
      intro hrepeated
      split
      · exact h.repeated hrepeated
      · exact fun hnodup => h.repeated hrepeated (List.Nodup.of_append_left hnodup)
    · rw [hrepeats, horder', hids]
      intro honce
      rw [h.once honce]
    · rw [hrepeats, hcalls]
      intro honce j held hj
      rw [argumentsOf_append]
      by_cases hid : j = id
      · subst hid
        rw [update_self] at hj
        cases hj
        rw [hargs]
        cases hheld : a.toolCalls j with
        | none =>
          rw [argumentsOf_new (ne_empty_of_callID hev) ((h.known j).mp hheld)]
          rfl
        | some old =>
          rw [← h.arguments honce j old hheld]
          rfl
      · rw [update_of_ne hid] at hj
        have hcarries : ev.carries? j = none := by
          by_contra hcarries
          have hj' : j ≠ "" := by
            have hmem : j ∈ callIDs events := by
              by_contra hnot
              rw [(h.known j).mpr hnot] at hj
              cases hj
            obtain ⟨ev', _, hid'⟩ := mem_callIDs.mp hmem
            exact ne_empty_of_callID hid'
          have hsame := callID_of_carries hj' hcarries
          rw [hev] at hsame
          exact hid (Option.some.inj hsame).symm
        rw [hcarries]
        exact h.arguments honce j held hj

theorem account_run (events : List StreamEvent) :
    TextAccount events (events.foldl StreamAccumulator.process newStreamAccumulator) ∧
      CallAccount events (events.foldl StreamAccumulator.process newStreamAccumulator) := by
  induction events using List.reverseRecOn with
  | nil =>
    refine ⟨⟨rfl, fun id => ?_, rfl⟩, ⟨fun id => ?_, fun id tc h => ?_, fun id => ?_, ?_,
      fun _ => rfl, fun _ id tc h => ?_⟩⟩
    · simp [newStreamAccumulator, textIDs, firstSeen]
    · simp [newStreamAccumulator, callIDs, firstSeen]
    · cases h
    · simp [newStreamAccumulator, callIDs, firstSeen]
    · rintro ⟨earlier, ev, later, tc, heq, -⟩
      exact absurd heq (by simp)
    · cases h
  | append_singleton events ev ih =>
    rw [foldl_append]
    exact ⟨ih.1.process ev, ih.2.process ev⟩

/-! ## The response of a finished stream -/

theorem CallAccount.ids_toolCalls {a : StreamAccumulator} (h : CallAccount events a) :
    a.buildResponse.toolCalls.map (·.id) = a.toolCallOrder := by
  rw [a.buildResponse_toolCalls, map_filterMap]
  have hsome : ∀ id ∈ a.toolCallOrder, (a.toolCalls id).map (·.id) = some id := by
    intro id hmem
    cases hcall : a.toolCalls id with
    | none => exact absurd ((h.listed id).mp hmem) ((h.known id).mp hcall)
    | some tc => rw [Option.map_some, h.ids id tc hcall]
  rw [filterMap_congr hsome]
  exact filterMap_some

theorem TextAccount.text_buildResponse {a : StreamAccumulator} (h : TextAccount events a) :
    a.buildResponse.text = String.join ((textIDs events).map (textOf events)) := by
  rw [a.buildResponse_text, h.order]
  have hsome : ∀ id ∈ textIDs events, a.textByID id = (some ∘ textOf events) id := by
    intro id hmem
    rw [h.text, if_pos hmem]
    rfl
  rw [filterMap_congr hsome, filterMap_eq_map]

/-- The built response is the one the events tell exactly when no start is a repeated one. -/
theorem tells_buildResponse {a : StreamAccumulator} (htexts : TextAccount events a)
    (hcalls : CallAccount events a) : a.buildResponse.Tells events ↔ ¬ RepeatsStart events := by
  constructor
  · intro htells hrepeated
    apply hcalls.repeated hrepeated
    rw [← hcalls.ids_toolCalls, htells.calls]
    exact nodup_firstSeen _
  · intro honce
    refine ⟨?_, ?_, htexts.text_buildResponse, ?_⟩
    · rw [hcalls.ids_toolCalls, hcalls.once honce]
    · intro tc htc
      rw [a.buildResponse_toolCalls] at htc
      obtain ⟨id, _, hid⟩ := mem_filterMap.mp htc
      rw [hcalls.ids id tc hid]
      exact hcalls.arguments honce id tc hid
    · rw [a.buildResponse_reasoningText, htexts.reasoning]

theorem Response.Tells.of_message {r r' : Response} (hmessage : r.message = r'.message)
    (h : r'.Tells events) : r.Tells events := by
  have hcalls : r.toolCalls = r'.toolCalls := by unfold Response.toolCalls; rw [hmessage]
  have htext : r.text = r'.text := by unfold Response.text; rw [hmessage]
  have hreasoning : r.reasoningText = r'.reasoningText := by
    unfold Response.reasoningText Response.thinking
    rw [hmessage]
  exact ⟨by rw [hcalls]; exact h.calls, by rw [hcalls]; exact h.arguments,
    by rw [htext]; exact h.text, by rw [hreasoning]; exact h.reasoning⟩

/-- A finish without content leaves the response with the message that is built. -/
theorem process_finish (a : StreamAccumulator) {fin : StreamEvent} (hfin : fin.type = .finish)
    (hempty : ∀ r, fin.response = some r → responseHasContent r = false) :
    ∃ r, (a.process fin).response = some r ∧ r.message = a.buildResponse.message := by
  unfold StreamAccumulator.process StreamAccumulator.response
  rw [hfin]
  cases hresponse : fin.response with
  | none => exact ⟨_, rfl, rfl⟩
  | some response =>
    simp only [hempty response hresponse]
    exact ⟨_, rfl, rfl⟩

theorem accumulated_once (events : List StreamEvent) (fin : StreamEvent)
    (hfin : fin.type = .finish)
    (hempty : ∀ r, fin.response = some r → responseHasContent r = false) :
    (∃ r, ((events.foldl StreamAccumulator.process newStreamAccumulator).process fin).response =
        some r ∧ r.Tells events) ↔ ¬ RepeatsStart events := by
  obtain ⟨htexts, hcalls⟩ := account_run events
  obtain ⟨r, hr, hmessage⟩ := process_finish
    (events.foldl StreamAccumulator.process newStreamAccumulator) hfin hempty
  rw [← tells_buildResponse htexts hcalls]
  constructor
  · rintro ⟨r', hr', htells⟩
    rw [hr] at hr'
    cases hr'
    exact htells.of_message hmessage.symm
  · intro htells
    exact ⟨r, hr, htells.of_message hmessage⟩

/-- Two calls of one turn, their pieces interleaved. -/
def interleaved : List StreamEvent :=
  [{ type := .textDelta, textID := "t", delta := "look " },
    { type := .toolCallStart, toolCall := some { id := "a", name := "read" } },
    { type := .toolCallDelta, toolCall := some { id := "b", arguments := [123] } },
    { type := .toolCallDelta, toolCall := some { id := "a", arguments := [1] } },
    { type := .toolCallEnd, toolCall := some { id := "b", arguments := [123, 125] } }]

theorem interleaved_once :
    ∃ r, ((interleaved.foldl StreamAccumulator.process newStreamAccumulator).process
        { type := .finish }).response = some r ∧ r.Tells interleaved := by
  refine (accumulated_once interleaved { type := .finish } rfl (fun r h => by cases h)).mpr ?_
  rintro ⟨earlier, ev, later, tc, heq, htype, htc, hmem⟩
  match earlier with
  | [] => cases heq; cases htype
  | [_] => cases heq; cases htc; exact absurd hmem (by decide)
  | [_, _] => cases heq; cases htype
  | [_, _, _] => cases heq; cases htype
  | [_, _, _, _] => cases heq; cases htype
  | _ :: _ :: _ :: _ :: _ :: rest => simp [interleaved] at heq

/-- A call that is started a second time stands in the response twice. -/
theorem repeated_start_doubles :
    ¬ ∀ (events : List StreamEvent) (fin : StreamEvent), fin.type = .finish →
      (∀ r, fin.response = some r → responseHasContent r = false) →
      ∃ r, ((events.foldl StreamAccumulator.process newStreamAccumulator).process fin).response =
        some r ∧ r.Tells events := by
  intro h
  obtain ⟨r, hr, htells⟩ := h
    [{ type := .toolCallStart, toolCall := some { id := "a" } },
      { type := .toolCallStart, toolCall := some { id := "a" } }] { type := .finish } rfl
    (fun r h => by cases h)
  cases hr
  exact absurd htells.calls (by decide)

end Evener.Llm
