import Legroom.Ccr.ToolCalls

/-!
# Continuations after retrievals

While a response holds nothing but retrievals, they are answered and the conversation goes
on.  What a retrieval gives and what the calls of the provider come to are parameters.
-/

namespace Legroom.Ccr

open Python

structure ResponseHandlerConfig where
  enabled : Bool
  maxRetrievalRounds : ℤ

structure CCRToolResult where
  toolCallId : Text
  content : Text

inductive ResidualCcr where
  | resolved
  | skippedMixed
  | error
deriving DecidableEq

def entry (key : String) (value : Value) : Text × Value := (text key, value)

def constant (value : String) : Value := .str (text value)

def openaiToolResults : String := "_openai_tool_results"

def openaiResponsesToolResults : String := "_openai_responses_tool_results"

def openaiResponsesOutputItems : String := "_openai_responses_output_items"

section

variable (format : FloatFormat)

/-- The document of a retrieval is read back, and there is no other error than one of the
document: its numbers are small. -/
def responseData (content : Text) : Value :=
  (loads format content).getD (.dict [entry "content" (.str content)])

def createToolResultMessage (provider : Provider) (results : List CCRToolResult) : Value :=
  match provider with
  | .anthropic =>
      .dict [entry "role" (constant "user"),
        entry "content" (.list (results.map fun result =>
          .dict [entry "type" (constant "tool_result"),
            entry "tool_use_id" (.str result.toolCallId), entry "content" (.str result.content)]))]
  | .openai =>
      .dict [entry openaiToolResults (.list (results.map fun result =>
        .dict [entry "role" (constant "tool"), entry "tool_call_id" (.str result.toolCallId),
          entry "content" (.str result.content)]))]
  | .openaiResponses =>
      .dict [entry openaiResponsesToolResults (.list (results.map fun result =>
        .dict [entry "type" (constant "function_call_output"),
          entry "call_id" (.str result.toolCallId), entry "output" (.str result.content)]))]
  | .google =>
      .dict [entry "role" (constant "user"),
        entry "parts" (.list (results.map fun result =>
          .dict [entry "functionResponse" (.dict [entry "name" (.str result.toolCallId),
            entry "response" (responseData format result.content)])]))]
  | .other =>
      .dict [entry "role" (constant "tool"),
        entry "content" (.str (dumps format .default (.list (results.map fun result =>
          .dict [entry "tool_call_id" (.str result.toolCallId),
            entry "result" (.str result.content)]))))]

def extractAssistantMessage (provider : Provider) (response : Value) : Option Value := do
  match provider with
  | .anthropic =>
      let content ← response.getOr (text "content") (.list [])
      return .dict [entry "role" (constant "assistant"), entry "content" content]
  | .openai =>
      match ← response.getOr (text "choices") (.list [.dict []]) with
      | .list (choice :: _) =>
          let message ← choice.getOr (text "message") (.dict [])
          let content ← message.getOr (text "content") .none
          let toolCalls ← message.getOr (text "tool_calls") .none
          return .dict [entry "role" (constant "assistant"), entry "content" content,
            entry "tool_calls" toolCalls]
      | _ => none
  | .openaiResponses =>
      let output ← response.getOr (text "output") (.list [])
      return .dict [entry openaiResponsesOutputItems output]
  | .google =>
      let candidates ← response.getOr (text "candidates") (.list [])
      if candidates.truthy then
        match candidates with
        | .list (candidate :: _) =>
            let content ← candidate.getOr (text "content") (.dict [])
            let parts ← content.getOr (text "parts") (.list [])
            return .dict [entry "role" (constant "model"), entry "parts" parts]
        | _ => none
      else return .dict [entry "role" (constant "model"), entry "parts" (.list [])]
  | .other =>
      let content ← response.getOr (text "content") (.str [])
      return .dict [entry "role" (constant "assistant"), entry "content" content]

/-- A message, or the messages under its key that is not one of a message. -/
def spread (key : String) (message : Value) : Option (List Value) :=
  match message.get (text key) with
  | some items => items.iterate
  | none => some [message]

/-- The messages that the turn of the assistant adds to the conversation. -/
def assistantTurn (provider : Provider) (response : Value) : Option (List Value) := do
  spread openaiResponsesOutputItems (← extractAssistantMessage provider response)

def resultMessages (provider : Provider) (message : Value) : Option (List Value) :=
  match (if provider = .openai then message.get (text openaiToolResults) else none) with
  | some items => items.iterate
  | none => spread openaiResponsesToolResults message

variable (repr : Value → Text) (provider : Provider)

def residualCcrStatus (response : Value) : Option ResidualCcr := do
  let (calls, others) ← parseCcrToolCalls format repr provider response
  if calls.isEmpty then return .resolved
  else if !others.isEmpty then return .skippedMixed
  else return .error

-- The document of a retrieval by its round, its place in the round and its hash.
variable (retrieved : ℕ → ℕ → Text → Text)

def executeRetrieval (round place : ℕ) (call : CCRToolCall) : CCRToolResult :=
  ⟨call.toolCallId, retrieved round place call.hashKey⟩

/-- What a round adds to the conversation. -/
def roundMessages (round : ℕ) (response : Value) (calls : List CCRToolCall) :
    Option (List Value) := do
  let turn ← assistantTurn provider response
  let results := calls.mapIdx (executeRetrieval retrieved round)
  return turn ++ (← resultMessages provider (createToolResultMessage format provider results))

/-- The lists of the process.  A list keeps its place, and a new one is behind the others. -/
abbrev Lists := List (List Value)

structure Handled where
  /-- The messages of each call of the provider. -/
  calls : List (List Value)
  /-- The response that is returned, unless something raises. -/
  returned : Option Value
  lists : Lists

-- The outcome of each call of the provider, in the order of the calls; none is a failure.
variable (answers : ℕ → Option Value)

/-- The loop, with the rounds that are left and those that are over. -/
def handleRounds (current : ℕ) : ℕ → ℕ → Value → Lists → Handled
  | 0, _, response, lists => ⟨[], some response, lists⟩
  | left + 1, round, response, lists =>
      match parseCcrToolCalls format repr provider response with
      | none => ⟨[], none, lists⟩
      | some ([], _) => ⟨[], some response, lists⟩
      -- Without the results of the other tools there is no valid continuation.
      | some (_ :: _, _ :: _) => ⟨[], some response, lists⟩
      | some (call :: calls, []) =>
          match roundMessages format provider retrieved round response (call :: calls) with
          | none => ⟨[], none, lists⟩
          | some added =>
              let lists := lists.modify current (· ++ added)
              let sent := lists.getD current []
              match answers round with
              | none => ⟨[sent], some response, lists⟩
              | some next =>
                  let handled := handleRounds current left (round + 1) next lists
                  { handled with calls := sent :: handled.calls }

/-- The messages of the caller are one of the lists, and the loop works on a copy. -/
def handleResponse (config : ResponseHandlerConfig) (response : Value) (messages : ℕ)
    (lists : Lists) : Handled :=
  if config.enabled then
    handleRounds format repr provider retrieved answers lists.length
      config.maxRetrievalRounds.toNat 0 response (lists ++ [lists.getD messages []])
  else ⟨[], some response, lists⟩

end

/-! ## The protocol -/

/-- The identifier that the result of a call repeats. -/
def callId (provider : Provider) (call : Value) : Option Value :=
  match provider with
  | .google => (call.get (text "functionCall")).bind (Value.get (text "name"))
  | .openaiResponses => (call.get (text "call_id")).or (call.get (text "id"))
  | _ => call.get (text "id")

/-- The identifiers that messages of results answer; what is not a result has none. -/
def answeredIds (provider : Provider) (messages : List Value) : List (Option Value) :=
  match provider with
  | .anthropic =>
      messages.flatMap fun message => (listAt (text "content") message).map fun block =>
        if hasType (text "tool_result") block then block.get (text "tool_use_id") else none
  | .openai => messages.map (Value.get (text "tool_call_id"))
  | .google =>
      messages.flatMap fun message => (listAt (text "parts") message).map fun part =>
        (part.get (text "functionResponse")).bind (Value.get (text "name"))
  | .openaiResponses =>
      messages.map fun item =>
        if hasType (text "function_call_output") item then item.get (text "call_id") else none
  | .other => []

section

variable (format : FloatFormat) (repr : Value → Text) (provider : Provider)

/-- The turn of the assistant, and one result for each of its tool calls, in their order.  All
the calls are retrievals. -/
def IsRound (response : Value) (added : List Value) : Prop :=
  ∃ calls turn results, extractToolCalls provider response = some calls ∧ calls ≠ [] ∧
    (∀ call ∈ calls, Resolvable format provider call) ∧
    assistantTurn provider response = some turn ∧ added = turn ++ results ∧
    (∀ call ∈ calls, (callId provider call).isSome = true) ∧
    answeredIds provider results = calls.map (callId provider)

variable (answers : ℕ → Option Value)

/-- Each call sends what the one before sent and a round; nothing is sent behind a failure. -/
def Conforms (base : List Value) (round : ℕ) (response : Value) : List (List Value) → Prop
  | [] => True
  | sent :: calls => ∃ added, sent = base ++ added ∧ IsRound format provider response added ∧
      match answers round with
      | some next => Conforms sent (round + 1) next calls
      | none => calls = []

/-- Some tool call names the retrieval tool. -/
def Remains (response : Value) : Prop :=
  ∃ calls, extractToolCalls provider response = some calls ∧
    ∃ call ∈ calls, namesRetrievalTool call = true

/-- The status says whether retrievals remain. -/
def Judged (response : Value) : Prop :=
  residualCcrStatus format repr provider response = some .resolved ↔ ¬Remains provider response

structure FollowsProtocol (config : ResponseHandlerConfig) (response : Value) (messages : ℕ)
    (lists : Lists) (handled : Handled) : Prop where
  bounded : handled.calls.length ≤ config.maxRetrievalRounds.toNat
  conforms : Conforms format provider answers (lists.getD messages []) 0 response handled.calls
  untouched : ∀ place, place < lists.length → handled.lists[place]? = lists[place]?
  judged : ∀ returned, handled.returned = some returned → Judged format repr provider returned

/-! ## Turns -/

/-- All tool calls are retrievals, and there are some. -/
def continues (response : Value) : Bool :=
  match parseCcrToolCalls format repr provider response with
  | some (_ :: _, []) => true
  | _ => false

/-- No call of the retrieval tool is well formed, and there is one. -/
def OnlyMalformed (response : Value) : Prop :=
  (∃ others, parseCcrToolCalls format repr provider response = some ([], others)) ∧
    Remains provider response

/-- The tool calls cannot be read at all, and no retrieval is among them. -/
def Unreadable (response : Value) : Prop :=
  parseCcrToolCalls format repr provider response = none ∧ ¬Remains provider response

def TextIds (response : Value) : Prop :=
  ∀ calls, extractToolCalls provider response = some calls →
    ∀ call ∈ calls, ∃ id, callId provider call = some (.str id)

/-- The turn that ends the rounds has no malformed retrieval without a well-formed one, and
the calls of the turns before it are known by texts. -/
def Settled : ℕ → ℕ → Value → Prop
  | 0, _, response =>
      ¬OnlyMalformed format repr provider response ∧ ¬Unreadable format repr provider response
  | left + 1, round, response =>
      if continues format repr provider response then
        TextIds provider response ∧
          ∀ next, answers round = some next → Settled left (round + 1) next
      else ¬OnlyMalformed format repr provider response

end

end Legroom.Ccr
