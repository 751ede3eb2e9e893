/-
  The stream accumulator: stream events folded into texts, reasoning and tool calls, the response
  built from them, and the partial response that is built again only when it is marked stale.

  Maps are functions from the id; the two order lists hold what the response goes through.
-/
import Evener.Lib.Text
import Evener.Lib.Lines
import Mathlib.Logic.Function.Basic

namespace Evener.Llm

open List
open Evener.Lib (Bytes trimSpace)

/-! ## Events and responses -/

inductive StreamEventType where
  | streamStart | textStart | textDelta | textEnd | reasoningStart | reasoningDelta | reasoningEnd
  | toolCallStart | toolCallDelta | toolCallEnd | stepFinish | objectDelta | finish | error
  | providerEvent
  | unrecognized (type : String)
  deriving DecidableEq

structure ToolCallData where
  id : String
  itemID : String := ""
  name : String := ""
  arguments : Bytes := []
  type : String := ""
  rawArguments : String := ""
  thoughtSignature : String := ""
  deriving DecidableEq

structure FinishReason where
  reason : String := ""
  raw : String := ""
  deriving DecidableEq

structure Usage where
  inputTokens : Int := 0
  outputTokens : Int := 0
  totalTokens : Int := 0
  reasoningTokens : Option Int := none
  reasoningTokensEstimated : Option Int := none
  cacheReadTokens : Option Int := none
  cacheWriteTokens : Option Int := none
  cacheWrite1hTokens : Option Int := none
  raw : Option String := none
  deriving DecidableEq

inductive ContentKind where
  | text | thinking | toolCall
  | other (kind : String)
  deriving DecidableEq

structure ContentPart where
  kind : ContentKind
  text : String := ""
  phase : String := ""
  thinking : Option String := none
  toolCall : Option ToolCallData := none
  deriving DecidableEq

structure Message where
  role : String := ""
  content : List ContentPart := []
  deriving DecidableEq

structure Response where
  id : String := ""
  model : String := ""
  provider : String := ""
  message : Message := {}
  finish : FinishReason := {}
  usage : Usage := {}
  raw : Option String := none
  warnings : List String := []
  rateLimit : Option String := none
  deriving DecidableEq

structure StreamEvent where
  type : StreamEventType
  delta : String := ""
  textID : String := ""
  reasoningDelta : String := ""
  toolCall : Option ToolCallData := none
  finishReason : Option FinishReason := none
  usage : Option Usage := none
  response : Option Response := none
  deriving DecidableEq

/-- The text of a message (`Message.Text`). -/
def Response.text (r : Response) : String :=
  String.join (r.message.content.map fun p => if p.kind = .text then p.text else "")

/-- The tool calls of a response (`Response.ToolCalls`). -/
def Response.toolCalls (r : Response) : List ToolCallData :=
  r.message.content.filterMap fun p => if p.kind = .toolCall then p.toolCall else none

/-- The thinking texts of a response that are not empty. -/
def Response.thinking (r : Response) : List String :=
  (r.message.content.filterMap fun p => if p.kind = .thinking then p.thinking else none).filter
    (· ≠ "")

/-- The thinking of a response (`Response.ReasoningText`). -/
def Response.reasoningText (r : Response) : String := "\n\n".intercalate r.thinking

/-! ## The accumulator -/

structure StreamAccumulator where
  textByID : String → Option String := fun _ => none
  textOrder : List String := []
  reasoning : String := ""
  toolCalls : String → Option ToolCallData := fun _ => none
  toolCallOrder : List String := []
  finish : Option FinishReason := none
  usage : Option Usage := none
  final : Option Response := none
  heldPartial : Option Response := none
  dirty : Bool := false

def newStreamAccumulator : StreamAccumulator := {}

/-- The id a text event speaks of. -/
def StreamEvent.textKey (ev : StreamEvent) : String :=
  let id := trimSpace ev.textID
  if id = "" then "text_0" else id

namespace StreamAccumulator

/-- The text under `id` is there, empty when it is new. -/
def openText (a : StreamAccumulator) (id : String) : StreamAccumulator :=
  match a.textByID id with
  | some _ => a
  | none =>
    { a with textByID := Function.update a.textByID id (some ""),
             textOrder := a.textOrder ++ [id] }

end StreamAccumulator

/-- A delta or an end gives the fields that the entry still lacks. -/
def ToolCallData.fill (held tc : ToolCallData) : ToolCallData :=
  { held with
    name := if held.name = "" then tc.name else held.name
    itemID := if held.itemID = "" then tc.itemID else held.itemID
    type := if held.type = "" then tc.type else held.type }

/-- The entry after a delta or an end; `join` is what becomes of arguments that are sent. -/
def ToolCallData.take (held tc : ToolCallData) (join : Bytes → Bytes → Bytes) : ToolCallData :=
  { held.fill tc with
    arguments := if tc.arguments = [] then held.arguments else join held.arguments tc.arguments }

namespace StreamAccumulator

/-- One part for the reasoning, one for all texts, one for each id in the order of the calls. -/
def parts (a : StreamAccumulator) : List ContentPart :=
  let text := String.join (a.textOrder.filterMap a.textByID)
  (if a.reasoning ≠ "" then [{ kind := .thinking, thinking := some a.reasoning }] else []) ++
  (if text ≠ "" then [{ kind := .text, text := text }] else []) ++
  (a.toolCallOrder.filterMap a.toolCalls).map fun tc => { kind := .toolCall, toolCall := some tc }

def buildResponse (a : StreamAccumulator) : Response where
  message :=
    { role := "assistant"
      content := if a.parts = [] then [{ kind := .text, text := "" }] else a.parts }
  finish := a.finish.getD {}
  usage := a.usage.getD {}

end StreamAccumulator

def responseHasContent (r : Response) : Bool :=
  match r.message.content with
  | [] => false
  | [part] => part.kind ≠ .text || part.text ≠ "" || part.phase ≠ ""
  | _ => true

def usageHasValue (u : Usage) : Bool :=
  u.inputTokens ≠ 0 || u.outputTokens ≠ 0 || u.totalTokens ≠ 0 || u.reasoningTokens.isSome ||
    u.reasoningTokensEstimated.isSome || u.cacheReadTokens.isSome || u.cacheWriteTokens.isSome ||
    u.cacheWrite1hTokens.isSome || u.raw.isSome

def copyResponseMetadata (dst src : Response) : Response :=
  { dst with
    id := src.id
    model := if src.model ≠ "" then src.model else dst.model
    provider := if src.provider ≠ "" then src.provider else dst.provider
    raw := if src.raw.isSome then src.raw else dst.raw
    finish := if src.finish.reason ≠ "" || src.finish.raw ≠ "" then src.finish else dst.finish
    usage := if usageHasValue src.usage then src.usage else dst.usage
    warnings := if src.warnings ≠ [] then src.warnings else dst.warnings
    rateLimit := if src.rateLimit.isSome then src.rateLimit else dst.rateLimit }

namespace StreamAccumulator

/-- A delta or an end of a tool call. -/
def callPiece (a : StreamAccumulator) (toolCall : Option ToolCallData)
    (join : Bytes → Bytes → Bytes) : StreamAccumulator :=
  match toolCall with
  | none => a
  | some tc =>
    if tc.id = "" then a
    else
      let held := (a.toolCalls tc.id).getD { id := tc.id, itemID := tc.itemID }
      { a with
        toolCalls := Function.update a.toolCalls tc.id (some (held.take tc join))
        toolCallOrder :=
          if a.toolCalls tc.id = none then a.toolCallOrder ++ [tc.id] else a.toolCallOrder
        dirty := a.dirty || tc.arguments ≠ [] }

def process (a : StreamAccumulator) (ev : StreamEvent) : StreamAccumulator :=
  match ev.type with
  | .textStart => a.openText ev.textKey
  | .textDelta =>
    let a := a.openText ev.textKey
    if ev.delta ≠ "" then
      { a with
        textByID := Function.update a.textByID ev.textKey
          (some ((a.textByID ev.textKey).getD "" ++ ev.delta))
        dirty := true }
    else a
  | .reasoningDelta =>
    if ev.reasoningDelta ≠ "" then
      { a with reasoning := a.reasoning ++ ev.reasoningDelta, dirty := true }
    else a
  | .toolCallStart =>
    match ev.toolCall with
    | none => a
    | some tc =>
      if tc.id = "" then a
      else
        -- an id that is already in the order is put there again
        { a with
          toolCalls := Function.update a.toolCalls tc.id
            (some { id := tc.id, itemID := tc.itemID, name := tc.name, type := tc.type })
          toolCallOrder := a.toolCallOrder ++ [tc.id] }
  | .toolCallDelta => a.callPiece ev.toolCall fun held sent => held ++ sent
  | .toolCallEnd => a.callPiece ev.toolCall fun _ sent => sent
  | .finish =>
    let a := { a with finish := ev.finishReason, usage := ev.usage }
    let r :=
      match ev.response with
      | none => a.buildResponse
      | some response =>
        if responseHasContent response then response
        else copyResponseMetadata a.buildResponse response
    { a with final := some r, heldPartial := some r, dirty := false }
  | _ => a

/-- The final response (`Response`). -/
def response (a : StreamAccumulator) : Option Response := a.final

def partialResponse (a : StreamAccumulator) : Option Response × StreamAccumulator :=
  let a := if a.dirty then { a with heldPartial := some a.buildResponse, dirty := false } else a
  (a.heldPartial, a)

end StreamAccumulator

/-! ## What a built response shows -/

namespace StreamAccumulator

variable (a : StreamAccumulator)

theorem toolCalls_parts :
    (a.parts.filterMap fun p => if p.kind = .toolCall then p.toolCall else none) =
      a.toolCallOrder.filterMap a.toolCalls := by
  have hcalls : ∀ calls : List ToolCallData,
      (calls.map fun tc => ({ kind := .toolCall, toolCall := some tc } : ContentPart)).filterMap
        (fun p => if p.kind = .toolCall then p.toolCall else none) = calls := by
    intro calls
    rw [filterMap_map]
    exact filterMap_some
  unfold parts
  rw [filterMap_append, filterMap_append, hcalls]
  split <;> split <;> simp

theorem buildResponse_toolCalls :
    a.buildResponse.toolCalls = a.toolCallOrder.filterMap a.toolCalls := by
  rw [← toolCalls_parts]
  unfold Response.toolCalls buildResponse
  split
  · next hnil => rw [hnil]; rfl
  · rfl

theorem text_parts :
    String.join (a.parts.map fun p => if p.kind = .text then p.text else "") =
      String.join (a.textOrder.filterMap a.textByID) := by
  have hcalls : ∀ calls : List ToolCallData,
      String.join ((calls.map fun tc => ({ kind := .toolCall, toolCall := some tc } :
        ContentPart)).map fun p => if p.kind = .text then p.text else "") = "" := by
    intro calls
    induction calls with
    | nil => rfl
    | cons tc calls ih => simpa using ih
  unfold parts
  rw [map_append, map_append, String.join_append, String.join_append, hcalls]
  by_cases htext : String.join (a.textOrder.filterMap a.textByID) = "" <;>
    by_cases hreasoning : a.reasoning = "" <;> simp [htext, hreasoning]

theorem buildResponse_text :
    a.buildResponse.text = String.join (a.textOrder.filterMap a.textByID) := by
  rw [← text_parts]
  unfold Response.text buildResponse
  split
  · next hnil => rw [hnil]; rfl
  · rfl

theorem thinking_parts :
    (a.parts.filterMap fun p => if p.kind = .thinking then p.thinking else none) =
      if a.reasoning = "" then [] else [a.reasoning] := by
  have hcalls : ∀ calls : List ToolCallData,
      (calls.map fun tc => ({ kind := .toolCall, toolCall := some tc } : ContentPart)).filterMap
        (fun p => if p.kind = .thinking then p.thinking else none) = [] := by
    intro calls
    rw [filterMap_map]
    exact filterMap_eq_nil_iff.mpr fun _ _ => rfl
  unfold parts
  rw [filterMap_append, filterMap_append, hcalls]
  by_cases htext : String.join (a.textOrder.filterMap a.textByID) = "" <;>
    by_cases hreasoning : a.reasoning = "" <;> simp [htext, hreasoning]

theorem buildResponse_reasoningText : a.buildResponse.reasoningText = a.reasoning := by
  have hthinking : a.buildResponse.thinking = if a.reasoning = "" then [] else [a.reasoning] := by
    unfold Response.thinking buildResponse
    split
    · next hnil =>
      have hparts := a.thinking_parts
      rw [hnil] at hparts
      rw [← hparts]
      rfl
    · rw [thinking_parts]
      by_cases hreasoning : a.reasoning = "" <;> simp [hreasoning]
  unfold Response.reasoningText
  rw [hthinking]
  by_cases hreasoning : a.reasoning = ""
  · rw [if_pos hreasoning, hreasoning]
    rfl
  · rw [if_neg hreasoning]
    rfl

end StreamAccumulator

end Evener.Llm
