import Legroom.Streams.Payload

/-!
# The Anthropic stream machine

An Anthropic stream is a sequence of named events.  Content blocks are kept by the
`index` that their events carry, in a table of their own; usage is the largest count
seen so far, field by field.
-/

namespace Legroom.Streams.Anthropic

open Utf8 Json Sse Routing

inductive StreamStatus where
  | opened
  | messageStop
  | errored
  deriving DecidableEq

structure BlockState where
  blockType : Utf8String
  textBuffer : Utf8String
  partialJson : Utf8String
  signature : Option Utf8String
  citations : List Value
  metadata : Value
  complete : Bool

instance : Inhabited BlockState := ⟨.empty, .empty, .empty, none, [], .null, false⟩

structure UsageBuilder where
  inputTokens : ℕ
  outputTokens : ℕ
  cacheCreationInputTokens : ℕ
  cacheReadInputTokens : ℕ
  deriving DecidableEq

instance : Inhabited UsageBuilder := ⟨0, 0, 0, 0⟩

structure AnthropicStreamState where
  messageId : Option Utf8String
  model : Option Utf8String
  blocks : Table ℕ BlockState
  currentBlockIndex : Option ℕ
  stopReason : Option Utf8String
  usage : UsageBuilder
  status : StreamStatus

namespace AnthropicStreamState

def new : AnthropicStreamState := ⟨none, none, ∅, none, none, default, .opened⟩

end AnthropicStreamState

/-- The larger of a count and the field, if that is a count. -/
def mergeField (count : ℕ) (usage : Value) (field : String) : ℕ :=
  match usage.getU64 field with
  | some incoming => max count incoming
  | none => count

def UsageBuilder.mergeFrom (usage : UsageBuilder) (value : Value) : UsageBuilder where
  inputTokens := mergeField usage.inputTokens value "input_tokens"
  outputTokens := mergeField usage.outputTokens value "output_tokens"
  cacheCreationInputTokens :=
    mergeField usage.cacheCreationInputTokens value "cache_creation_input_tokens"
  cacheReadInputTokens := mergeField usage.cacheReadInputTokens value "cache_read_input_tokens"

/-- `merge_from` of a usage object that may be missing. -/
def UsageBuilder.mergeOptional (usage : UsageBuilder) : Option Value → UsageBuilder
  | some value => usage.mergeFrom value
  | none => usage

/-! ## Blocks -/

/-- The block that `content_block_start` opens, with the text it already has. -/
def BlockState.start (contentBlock : Value) : BlockState where
  blockType := (contentBlock.getStr "type").getD .empty
  textBuffer := (Utf8String.empty.pushStr (contentBlock.getStr "text")).pushStr
    (contentBlock.getStr "thinking")
  partialJson := .empty
  signature := none
  citations := []
  metadata := contentBlock
  complete := false

/-- The match on `delta_type`; an unknown type changes nothing. -/
def BlockState.applyDelta (block : BlockState) (deltaType : Utf8String) (delta : Value) :
    BlockState :=
  if deltaType = constant "text_delta" then
    { block with textBuffer := block.textBuffer.pushStr (delta.getStr "text") }
  else if deltaType = constant "thinking_delta" then
    { block with textBuffer := block.textBuffer.pushStr (delta.getStr "thinking") }
  else if deltaType = constant "input_json_delta" then
    { block with partialJson := block.partialJson.pushStr (delta.getStr "partial_json") }
  else if deltaType = constant "signature_delta" then
    match delta.getStr "signature" with
    | some signature =>
        -- A signature in several deltas is put together.
        { block with signature := some ((block.signature.getD .empty) ++ signature) }
    | none => block
  else if deltaType = constant "citations_delta" then
    match delta.get (constant "citation") with
    | some citation => { block with citations := block.citations ++ [citation] }
    | none => block
  else block

def BlockState.stop (block : BlockState) : BlockState := { block with complete := true }

/-! ## Events -/

namespace AnthropicStreamState

def onMessageStart (state : AnthropicStreamState) (event : SseEvent) :
    Except StateError AnthropicStreamState := do
  let value ← parseJson event.data
  let message ← orMissing "message" (value.get (constant "message"))
  return { state with
    messageId := message.getStr "id" <|> state.messageId
    model := message.getStr "model" <|> state.model
    usage := state.usage.mergeOptional (message.get (constant "usage"))
    status := .opened }

def onContentBlockStart (state : AnthropicStreamState) (event : SseEvent) :
    Except StateError AnthropicStreamState := do
  let value ← parseJson event.data
  let index ← orMissing "index" (value.getU64 "index")
  let contentBlock ← orMissing "content_block" (value.get (constant "content_block"))
  return { state with
    blocks := state.blocks.insert index (BlockState.start contentBlock)
    currentBlockIndex := some index }

def onContentBlockDelta (state : AnthropicStreamState) (event : SseEvent) :
    Except StateError AnthropicStreamState := do
  let value ← parseJson event.data
  let index ← orMissing "index" (value.getU64 "index")
  let delta ← orMissing "delta" (value.get (constant "delta"))
  let deltaType ← orMissing "delta.type" (delta.getStr "type")
  return { state with
    blocks := state.blocks.entry index fun block => block.applyDelta deltaType delta }

def onContentBlockStop (state : AnthropicStreamState) (event : SseEvent) :
    Except StateError AnthropicStreamState := do
  let value ← parseJson event.data
  let index ← orMissing "index" (value.getU64 "index")
  return { state with blocks := state.blocks.getMut index BlockState.stop }

def onMessageDelta (state : AnthropicStreamState) (event : SseEvent) :
    Except StateError AnthropicStreamState := do
  let value ← parseJson event.data
  return { state with
    stopReason :=
      (value.get (constant "delta")).bind (·.getStr "stop_reason") <|> state.stopReason
    usage := state.usage.mergeOptional (value.get (constant "usage")) }

/-- One framed event.  Every handler refuses an event before it changes anything. -/
def apply (state : AnthropicStreamState) (event : SseEvent) :
    Except StateError AnthropicStreamState :=
  match event.eventName with
  | none => .ok state
  | some name =>
      if name = constant "ping" then .ok state
      else if name = constant "message_start" then state.onMessageStart event
      else if name = constant "content_block_start" then state.onContentBlockStart event
      else if name = constant "content_block_delta" then state.onContentBlockDelta event
      else if name = constant "content_block_stop" then state.onContentBlockStop event
      else if name = constant "message_delta" then state.onMessageDelta event
      else if name = constant "message_stop" then .ok { state with status := .messageStop }
      else if name = constant "error" then .ok { state with status := .errored }
      else .ok state

end AnthropicStreamState

end Legroom.Streams.Anthropic
