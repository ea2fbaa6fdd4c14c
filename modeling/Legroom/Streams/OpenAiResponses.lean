import Legroom.Streams.Payload

/-!
# The Responses stream machine

A Responses stream is a sequence of named events.  Output items are kept by their
`id`; the events of an item carry it as `item_id`, or as the `id` of the `item`.
-/

namespace Legroom.Streams.OpenAiResponses

open Utf8 Json Sse Routing

inductive StreamStatus where
  | opened
  | completed
  | failed
  | incomplete
  deriving DecidableEq

structure ContentPartState where
  partType : Utf8String
  text : Utf8String
  complete : Bool
  deriving DecidableEq

structure ItemState where
  itemType : Utf8String
  outputText : Utf8String
  reasoningSummary : Utf8String
  functionCallArguments : Utf8String
  metadata : Value
  complete : Bool
  contentParts : Table ℕ ContentPartState

instance : Inhabited ItemState := ⟨.empty, .empty, .empty, .empty, .null, false, ∅⟩

structure ResponseState where
  responseId : Option Utf8String
  model : Option Utf8String
  items : Table Utf8String ItemState
  usage : Option Value
  status : StreamStatus
  serviceTier : Option Utf8String
  incompleteReason : Option Utf8String

def ResponseState.new : ResponseState := ⟨none, none, ∅, none, .opened, none, none⟩

/-! ## Fields of an event -/

def itemId (value : Value) : Except StateError Utf8String :=
  orMissing "item_id" (value.getStr "item_id")

/-- `content_index`, or `part_index` where there is none. -/
def partIndex (value : Value) : Option ℕ :=
  (value.get (constant "content_index") <|> value.get (constant "part_index")).bind Value.asU64

def deltaOf (value : Value) : Except StateError Utf8String :=
  orMissing "delta" (value.getStr "delta")

/-- The `item` and its `id`. -/
def itemOf (value : Value) : Except StateError (Utf8String × Value) := do
  let item ← orMissing "item" (value.get (constant "item"))
  let id ← orMissing "item.id" (item.getStr "id")
  return (id, item)

/-! ## Items -/

namespace ItemState

/-- The item of `output_item.added`. -/
def added (item : Value) : ItemState :=
  { (default : ItemState) with
    itemType := (item.getStr "type").getD .empty
    metadata := item }

/-- `output_item.done`: the final shape is kept, and the type unless there is one. -/
def done (state : ItemState) (item : Value) : ItemState :=
  { state with
    complete := true
    metadata := item
    itemType :=
      if state.itemType = .empty then (item.getStr "type").getD state.itemType
      else state.itemType }

def partAdded (state : ItemState) (index : ℕ) (part : Value) : ItemState :=
  { state with
    contentParts := state.contentParts.insert index
      ⟨(part.getStr "type").getD .empty, .empty, false⟩ }

def partDone (state : ItemState) (index : ℕ) : ItemState :=
  { state with
    contentParts := state.contentParts.getMut index fun part => { part with complete := true } }

/-- A text delta also goes to the part it names, if that is there. -/
def textDelta (state : ItemState) (delta : Utf8String) (index : Option ℕ) : ItemState :=
  { state with
    outputText := state.outputText ++ delta
    contentParts :=
      match index with
      | some index =>
          state.contentParts.getMut index fun part => { part with text := part.text ++ delta }
      | none => state.contentParts }

def argumentsDelta (state : ItemState) (delta : Utf8String) : ItemState :=
  { state with functionCallArguments := state.functionCallArguments ++ delta }

/-- The final arguments count only if no delta came. -/
def argumentsDone (state : ItemState) (arguments : Utf8String) : ItemState :=
  if state.functionCallArguments = .empty then
    { state with functionCallArguments := arguments }
  else state

def summaryDelta (state : ItemState) (delta : Utf8String) : ItemState :=
  { state with reasoningSummary := state.reasoningSummary ++ delta }

end ItemState

/-! ## Events -/

/-- The arms of the match on the event name. -/
inductive EventKind where
  | responseCreated
  | responseInProgress
  | outputItemAdded
  | outputItemDone
  | contentPartAdded
  | contentPartDone
  | outputTextDelta
  | outputTextDone
  | functionCallArgumentsDelta
  | functionCallArgumentsDone
  | reasoningSummaryDelta
  | reasoningSummaryDone
  | responseCompleted
  | responseFailed
  | responseIncomplete
  deriving DecidableEq

/-- The names of the match, with the arm that each stands in. -/
def eventNames : List (String × EventKind) :=
  [("response.created", .responseCreated),
    ("response.in_progress", .responseInProgress),
    ("output_item.added", .outputItemAdded),
    ("output_item.done", .outputItemDone),
    ("content_part.added", .contentPartAdded),
    ("content_part.done", .contentPartDone),
    ("response.output_text.delta", .outputTextDelta),
    ("output_text.delta", .outputTextDelta),
    ("response.output_text.done", .outputTextDone),
    ("output_text.done", .outputTextDone),
    ("response.function_call_arguments.delta", .functionCallArgumentsDelta),
    ("function_call_arguments.delta", .functionCallArgumentsDelta),
    ("response.function_call_arguments.done", .functionCallArgumentsDone),
    ("function_call_arguments.done", .functionCallArgumentsDone),
    ("response.reasoning_summary.delta", .reasoningSummaryDelta),
    ("response.reasoning_summary_text.delta", .reasoningSummaryDelta),
    ("reasoning_summary.delta", .reasoningSummaryDelta),
    ("response.reasoning_summary.done", .reasoningSummaryDone),
    ("response.reasoning_summary_text.done", .reasoningSummaryDone),
    ("reasoning_summary.done", .reasoningSummaryDone),
    ("response.completed", .responseCompleted),
    ("response.failed", .responseFailed),
    ("response.incomplete", .responseIncomplete)]

def kindOf (name : Utf8String) : Option EventKind :=
  (eventNames.find? fun entry => ascii entry.1 = name.bytes).map Prod.snd

/-- The reason under `incomplete_details`. -/
def incompleteReasonOf (response : Value) : Option Utf8String :=
  (response.get (constant "incomplete_details")).bind fun details => details.getStr "reason"

namespace ResponseState

def captureEnvelopeMetadata (state : ResponseState) (value : Value) : ResponseState :=
  match value.get (constant "response") with
  | some response =>
      { state with
        serviceTier := response.getStr "service_tier" <|> state.serviceTier
        incompleteReason := incompleteReasonOf response <|> state.incompleteReason }
  | none => state

def onResponseCreated (state : ResponseState) (value : Value) :
    Except StateError ResponseState := do
  let response ← orMissing "response" (value.get (constant "response"))
  return { state with
    responseId := response.getStr "id" <|> state.responseId
    model := response.getStr "model" <|> state.model }

def onOutputItemAdded (state : ResponseState) (value : Value) :
    Except StateError ResponseState := do
  let (id, item) ← itemOf value
  return { state with items := state.items.insert id (ItemState.added item) }

def onOutputItemDone (state : ResponseState) (value : Value) :
    Except StateError ResponseState := do
  let (id, item) ← itemOf value
  return { state with items := state.items.entry id (·.done item) }

def onContentPartAdded (state : ResponseState) (value : Value) :
    Except StateError ResponseState := do
  let id ← itemId value
  let index ← orMissing "content_index" (partIndex value)
  let part ← orMissing "part" (value.get (constant "part"))
  return { state with items := state.items.entry id (·.partAdded index part) }

def onContentPartDone (state : ResponseState) (value : Value) :
    Except StateError ResponseState := do
  let id ← itemId value
  let index ← orMissing "content_index" (partIndex value)
  return { state with items := state.items.getMut id (·.partDone index) }

def onOutputTextDelta (state : ResponseState) (value : Value) :
    Except StateError ResponseState := do
  let id ← itemId value
  let delta ← deltaOf value
  return { state with items := state.items.entry id (·.textDelta delta (partIndex value)) }

def onFunctionCallArgumentsDelta (state : ResponseState) (value : Value) :
    Except StateError ResponseState := do
  let id ← itemId value
  let delta ← deltaOf value
  return { state with items := state.items.entry id (·.argumentsDelta delta) }

def onFunctionCallArgumentsDone (state : ResponseState) (value : Value) :
    Except StateError ResponseState := do
  let id ← itemId value
  match value.getStr "arguments" with
  | some arguments =>
      return { state with items := state.items.entry id (·.argumentsDone arguments) }
  | none => return state

def onReasoningSummaryDelta (state : ResponseState) (value : Value) :
    Except StateError ResponseState := do
  let id ← itemId value
  let delta ← deltaOf value
  return { state with items := state.items.entry id (·.summaryDelta delta) }

/-- The usage under `response`, unless it is `null`. -/
def usageOf (value : Value) : Option Value :=
  (value.get (constant "response")).bind fun response =>
    (response.get (constant "usage")).bind fun usage => if usage.isNull then none else some usage

def onResponseCompleted (state : ResponseState) (value : Value) : ResponseState :=
  { state with
    status := .completed
    usage := usageOf value <|> state.usage }.captureEnvelopeMetadata value

def onResponseIncomplete (state : ResponseState) (value : Value) : ResponseState :=
  { state with
    status := .incomplete
    incompleteReason :=
      (value.get (constant "response")).bind incompleteReasonOf <|>
        state.incompleteReason }.captureEnvelopeMetadata value

def handle (state : ResponseState) (value : Value) :
    Option EventKind → Except StateError ResponseState
  | some .responseCreated => state.onResponseCreated value
  | some .responseInProgress => .ok state
  | some .outputItemAdded => state.onOutputItemAdded value
  | some .outputItemDone => state.onOutputItemDone value
  | some .contentPartAdded => state.onContentPartAdded value
  | some .contentPartDone => state.onContentPartDone value
  | some .outputTextDelta => state.onOutputTextDelta value
  -- The deltas are kept, and the final text is not looked at.
  | some .outputTextDone => .ok state
  | some .functionCallArgumentsDelta => state.onFunctionCallArgumentsDelta value
  | some .functionCallArgumentsDone => state.onFunctionCallArgumentsDone value
  | some .reasoningSummaryDelta => state.onReasoningSummaryDelta value
  | some .reasoningSummaryDone => .ok state
  | some .responseCompleted => .ok (state.onResponseCompleted value)
  | some .responseFailed => .ok ({ state with status := .failed }.captureEnvelopeMetadata value)
  | some .responseIncomplete => .ok (state.onResponseIncomplete value)
  | none => .ok state

/-- One framed event.  The payload is read before the name is looked at. -/
def apply (state : ResponseState) (event : SseEvent) : Except StateError ResponseState :=
  match event.eventName with
  | none => .ok state
  | some name => do
      let value ← parseJson event.data
      state.handle value (kindOf name)

/-- The state after an event, which is the old one if the event is refused. -/
def after (state : ResponseState) (event : SseEvent) : ResponseState :=
  (state.apply event).toOption.getD state

def applyAll (state : ResponseState) (events : List SseEvent) : ResponseState :=
  Streams.applyAll apply state events

theorem applyAll_cons (state : ResponseState) (event : SseEvent) (events : List SseEvent) :
    state.applyAll (event :: events) = (state.after event).applyAll events := rfl

end ResponseState

end Legroom.Streams.OpenAiResponses
