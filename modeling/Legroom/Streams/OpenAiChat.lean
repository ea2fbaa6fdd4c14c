import Legroom.Streams.Payload

/-!
# The chat completions stream machine

A chat stream is a sequence of chunks without event names.  A chunk holds fragments
for several choices, and for a choice fragments of several tool calls; both are kept
by the `index` that the fragments carry.
-/

namespace Legroom.Streams.OpenAiChat

open Utf8 Json Sse Routing

inductive StreamStatus where
  | opened
  | done
  | errored
  deriving DecidableEq

structure ToolCallState where
  id : Option Utf8String
  callType : Option Utf8String
  functionName : Option Utf8String
  functionArguments : Utf8String
  deriving DecidableEq

instance : Inhabited ToolCallState := ⟨none, none, none, .empty⟩

structure ChoiceState where
  role : Option Utf8String
  content : Utf8String
  refusal : Utf8String
  finishReason : Option Utf8String
  toolCalls : Table ℕ ToolCallState

instance : Inhabited ChoiceState := ⟨none, .empty, .empty, none, ∅⟩

structure ChunkState where
  id : Option Utf8String
  model : Option Utf8String
  systemFingerprint : Option Utf8String
  choices : Table ℕ ChoiceState
  usage : Option Value
  status : StreamStatus

def ChunkState.new : ChunkState := ⟨none, none, none, ∅, none, .opened⟩

/-- The elements under a name, if it holds an array. -/
def elementsAt (value : Value) (name : String) : List Value :=
  ((value.get (constant name)).bind Value.asArray).getD []

/-! ## Tool calls -/

/-- The string under `function` and a name. -/
def functionStr (toolCall : Value) (name : String) : Option Utf8String :=
  (toolCall.get (constant "function")).bind fun function => function.getStr name

/-- The first `id`, `type` and function name stay; arguments add up. -/
def ToolCallState.extend (entry : ToolCallState) (toolCall : Value) : ToolCallState where
  id := entry.id <|> toolCall.getStr "id"
  callType := entry.callType <|> toolCall.getStr "type"
  functionName := entry.functionName <|> functionStr toolCall "name"
  functionArguments := entry.functionArguments.pushStr (functionStr toolCall "arguments")

def applyToolCallDelta (toolCalls : Table ℕ ToolCallState) (toolCall : Value) :
    Table ℕ ToolCallState :=
  match toolCall.getU64 "index" with
  | some index => toolCalls.entry index fun entry => entry.extend toolCall
  | none => toolCalls

/-! ## Choices -/

/-- The string in the delta of a choice. -/
def deltaStr (choice : Value) (name : String) : Option Utf8String :=
  (choice.get (constant "delta")).bind fun delta => delta.getStr name

/-- The tool call fragments in the delta of a choice. -/
def toolCallsOf (choice : Value) : List Value :=
  match choice.get (constant "delta") with
  | some delta => elementsAt delta "tool_calls"
  | none => []

def ChoiceState.extend (state : ChoiceState) (choice : Value) : ChoiceState where
  role := state.role <|> deltaStr choice "role"
  content := state.content.pushStr (deltaStr choice "content")
  refusal := state.refusal.pushStr (deltaStr choice "refusal")
  finishReason := choice.getStr "finish_reason" <|> state.finishReason
  toolCalls := (toolCallsOf choice).foldl applyToolCallDelta state.toolCalls

def applyChoice (choices : Table ℕ ChoiceState) (choice : Value) : Table ℕ ChoiceState :=
  match choice.getU64 "index" with
  | some index => choices.entry index fun state => state.extend choice
  | none => choices

/-! ## Chunks -/

/-- The usage of a chunk, unless it is `null`. -/
def usageOf (chunk : Value) : Option Value :=
  (chunk.get (constant "usage")).bind fun usage => if usage.isNull then none else some usage

namespace ChunkState

/-- One framed event; its name does not matter. -/
def apply (state : ChunkState) (event : SseEvent) : Except StateError ChunkState :=
  if event.isDoneSentinel then .ok { state with status := .done }
  else do
    let chunk ← parseJson event.data
    return { state with
      id := state.id <|> chunk.getStr "id"
      model := state.model <|> chunk.getStr "model"
      systemFingerprint := state.systemFingerprint <|> chunk.getStr "system_fingerprint"
      choices := (elementsAt chunk "choices").foldl applyChoice state.choices
      usage := usageOf chunk <|> state.usage }

/-- The state after an event, which is the old one if the event is refused. -/
def after (state : ChunkState) (event : SseEvent) : ChunkState :=
  (state.apply event).toOption.getD state

def applyAll (state : ChunkState) (events : List SseEvent) : ChunkState :=
  Streams.applyAll apply state events

theorem applyAll_cons (state : ChunkState) (event : SseEvent) (events : List SseEvent) :
    state.applyAll (event :: events) = (state.after event).applyAll events := rfl

end ChunkState

/-!
## Reassembly of chat chunks

The chunks of a stream are one list of choice fragments, which are routed to choices,
and those of one choice one list of tool call fragments, which are routed to tool
calls.  So every accumulated text is put together from the fragments addressed to it,
in the order in which they arrive.
-/

/-! ## Routing -/

def choiceRouter : Router ℕ ChoiceState Value :=
  .ofEntry (fun choice => choice.getU64 "index") ChoiceState.extend

def toolRouter : Router ℕ ToolCallState Value :=
  .ofEntry (fun toolCall => toolCall.getU64 "index") ToolCallState.extend

theorem applyChoice_eq : applyChoice = choiceRouter.step := by
  funext choices choice
  rw [applyChoice]
  cases hindex : choice.getU64 "index" <;> simp [choiceRouter, Router.ofEntry, hindex]

theorem applyToolCallDelta_eq : applyToolCallDelta = toolRouter.step := by
  funext toolCalls toolCall
  rw [applyToolCallDelta]
  cases hindex : toolCall.getU64 "index" <;> simp [toolRouter, Router.ofEntry, hindex]

/-- The choice fragments of an event. -/
def choicesOf (event : SseEvent) : List Value :=
  if event.isDoneSentinel then []
  else
    match parseJson event.data with
    | .ok chunk => elementsAt chunk "choices"
    | .error _ => []

theorem choices_after (state : ChunkState) (event : SseEvent) :
    (state.after event).choices = choiceRouter.run state.choices (choicesOf event) := by
  rw [ChunkState.after, ChunkState.apply, choicesOf, Router.run, ← applyChoice_eq]
  split_ifs
  · rfl
  · cases parseJson event.data <;> rfl

/-- The choice fragments of a stream with this index. -/
def choiceFragments (choice : ℕ) (events : List SseEvent) : List Value :=
  choiceRouter.addressed choice (events.flatMap choicesOf)

/-- The tool call fragments of a stream with these indices. -/
def toolFragments (choice tool : ℕ) (events : List SseEvent) : List Value :=
  toolRouter.addressed tool ((choiceFragments choice events).flatMap toolCallsOf)

/-- What the fragments of a choice hold under a name, as far as it is there. -/
def choicePieces (read : Value → Option Utf8String) (choice : ℕ) (events : List SseEvent) :
    List Utf8String :=
  (choiceFragments choice events).filterMap read

def contentOf (choice : Value) : Option Utf8String := deltaStr choice "content"
def refusalOf (choice : Value) : Option Utf8String := deltaStr choice "refusal"

theorem choiceFragments_append (choice : ℕ) (left right : List SseEvent) :
    choiceFragments choice (left ++ right) =
      choiceFragments choice left ++ choiceFragments choice right := by
  rw [choiceFragments, List.flatMap_append, Router.addressed_append]
  rfl

theorem toolFragments_append (choice tool : ℕ) (left right : List SseEvent) :
    toolFragments choice tool (left ++ right) =
      toolFragments choice tool left ++ toolFragments choice tool right := by
  rw [toolFragments, choiceFragments_append, List.flatMap_append, Router.addressed_append]
  rfl

/-! ## Fragments of one entry -/

/-- The first string that fragments hold. -/
def firstStr (read : Value → Option Utf8String) (fragments : List Value) :
    Option Utf8String :=
  (fragments.filterMap read).head?
variable (read : Value → Option Utf8String)

theorem firstStr_cons (fragment : Value) (fragments : List Value) (known : Option Utf8String) :
    ((known <|> read fragment) <|> firstStr read fragments) =
      (known <|> firstStr read (fragment :: fragments)) := by
  rw [firstStr, firstStr, List.filterMap_cons]
  cases known <;> cases read fragment <;> rfl

theorem pushStr_cons (fragment : Value) (fragments : List Value) (text : Utf8String) :
    text.pushStr (read fragment) ++ Utf8String.concat (fragments.filterMap read) =
      text ++ Utf8String.concat ((fragment :: fragments).filterMap read) := by
  rw [List.filterMap_cons, Utf8String.pushStr_eq, Utf8String.append_assoc]
  cases read fragment with
  | none => rfl
  | some piece =>
      simp only [Option.toList_some, Utf8String.concat_cons, Utf8String.concat_nil,
        Utf8String.append_empty]

/-- The entry of a tool call after its fragments. -/
theorem foldl_extend_toolCall (entry : ToolCallState) (fragments : List Value) :
    fragments.foldl ToolCallState.extend entry =
      { id := entry.id <|> firstStr (·.getStr "id") fragments
        callType := entry.callType <|> firstStr (·.getStr "type") fragments
        functionName := entry.functionName <|> firstStr (functionStr · "name") fragments
        functionArguments := entry.functionArguments ++
          Utf8String.concat (fragments.filterMap (functionStr · "arguments")) } := by
  induction fragments generalizing entry with
  | nil =>
      simp [firstStr]
  | cons fragment fragments ih =>
      rw [List.foldl_cons, ih, ← pushStr_cons, ← firstStr_cons, ← firstStr_cons,
        ← firstStr_cons]
      rfl

/-- The entry of a choice after its fragments. -/
theorem foldl_extend_choice (entry : ChoiceState) (fragments : List Value) :
    fragments.foldl ChoiceState.extend entry =
      { role := entry.role <|> firstStr (deltaStr · "role") fragments
        content := entry.content ++ Utf8String.concat (fragments.filterMap contentOf)
        refusal := entry.refusal ++ Utf8String.concat (fragments.filterMap refusalOf)
        finishReason :=
          (fragments.filterMap (·.getStr "finish_reason")).getLast? <|> entry.finishReason
        toolCalls := toolRouter.run entry.toolCalls (fragments.flatMap toolCallsOf) } := by
  induction fragments generalizing entry with
  | nil =>
      simp [firstStr, toolRouter, Router.run]
  | cons fragment fragments ih =>
      rw [List.foldl_cons, ih, ← pushStr_cons, ← pushStr_cons, ← firstStr_cons]
      have hfinish : ((fragments.filterMap (·.getStr "finish_reason")).getLast? <|>
            (entry.extend fragment).finishReason) =
          (((fragment :: fragments).filterMap (·.getStr "finish_reason")).getLast? <|>
            entry.finishReason) := by
        rw [List.filterMap_cons, ChoiceState.extend]
        cases fragment.getStr "finish_reason" with
        | none => rfl
        | some reason =>
            simp only [List.getLast?_cons]
            cases (fragments.filterMap (·.getStr "finish_reason")).getLast? <;> rfl
      have htools : toolRouter.run (entry.extend fragment).toolCalls
            (fragments.flatMap toolCallsOf) =
          toolRouter.run entry.toolCalls ((fragment :: fragments).flatMap toolCallsOf) := by
        rw [List.flatMap_cons, Router.run, Router.run, List.foldl_append,
          ← applyToolCallDelta_eq]
        rfl
      rw [hfinish, htools]
      rfl

/-! ## Runs -/

namespace ChunkState

def content (state : ChunkState) (choice : ℕ) : Utf8String :=
  ((state.choices.lookup choice).map ChoiceState.content).getD .empty

def refusal (state : ChunkState) (choice : ℕ) : Utf8String :=
  ((state.choices.lookup choice).map ChoiceState.refusal).getD .empty

def toolCall (state : ChunkState) (choice tool : ℕ) : Option ToolCallState :=
  (state.choices.lookup choice).bind fun entry => entry.toolCalls.lookup tool
variable (state : ChunkState)
variable (events : List SseEvent)

theorem choices_applyAll :
    (state.applyAll events).choices =
      choiceRouter.run state.choices (events.flatMap choicesOf) := by
  induction events generalizing state with
  | nil => rfl
  | cons event events ih =>
      rw [applyAll_cons, ih, choices_after, List.flatMap_cons, Router.run, Router.run,
        Router.run, List.foldl_append]

theorem lookup_applyAll (choice : ℕ) :
    (state.applyAll events).choices.lookup choice =
      if choiceFragments choice events = [] then state.choices.lookup choice
      else some ((choiceFragments choice events).foldl ChoiceState.extend
        ((state.choices.lookup choice).getD default)) := by
  rw [choices_applyAll, Router.lookup_run, choiceRouter, Router.replay_ofEntry]
  rfl

theorem content_applyAll (choice : ℕ) :
    (state.applyAll events).content choice =
      state.content choice ++ Utf8String.concat (choicePieces contentOf choice events) := by
  rw [content, content, lookup_applyAll, choicePieces]
  split_ifs with hnone
  · rw [hnone, List.filterMap_nil, Utf8String.concat_nil, Utf8String.append_empty]
  · rw [foldl_extend_choice]
    cases state.choices.lookup choice <;> rfl

theorem refusal_applyAll (choice : ℕ) :
    (state.applyAll events).refusal choice =
      state.refusal choice ++ Utf8String.concat (choicePieces refusalOf choice events) := by
  rw [refusal, refusal, lookup_applyAll, choicePieces]
  split_ifs with hnone
  · rw [hnone, List.filterMap_nil, Utf8String.concat_nil, Utf8String.append_empty]
  · rw [foldl_extend_choice]
    cases state.choices.lookup choice <;> rfl

theorem toolCall_applyAll (choice tool : ℕ) :
    (state.applyAll events).toolCall choice tool =
      if toolFragments choice tool events = [] then state.toolCall choice tool
      else some ((toolFragments choice tool events).foldl ToolCallState.extend
        ((state.toolCall choice tool).getD default)) := by
  have hreplay : ∀ entry, toolRouter.replay entry (toolFragments choice tool events) =
      if toolFragments choice tool events = [] then entry
      else some ((toolFragments choice tool events).foldl ToolCallState.extend
        (entry.getD default)) := fun entry => Router.replay_ofEntry _ _ _ _
  have hold : ((state.choices.lookup choice).getD default).toolCalls.lookup tool =
      state.toolCall choice tool := by
    rw [toolCall]
    cases state.choices.lookup choice <;> rfl
  rw [toolCall, lookup_applyAll]
  by_cases hchoice : choiceFragments choice events = []
  · have htool : toolFragments choice tool events = [] := by
      rw [toolFragments, hchoice]
      rfl
    rw [if_pos hchoice, if_pos htool]
    rfl
  · rw [if_neg hchoice, Option.bind_some, foldl_extend_choice, Router.lookup_run, hold]
    exact hreplay _

end ChunkState

/-! ## Reassembly -/

/-- The tool call of a list of fragments: the first `id`, `type` and name among them and
all their arguments. -/
def toolCallOf (fragments : List Value) : Option ToolCallState :=
  if fragments = [] then none
  else some {
    id := firstStr (·.getStr "id") fragments
    callType := firstStr (·.getStr "type") fragments
    functionName := firstStr (functionStr · "name") fragments
    functionArguments := Utf8String.concat (fragments.filterMap (functionStr · "arguments")) }

/-- A chunk of usage only, or one that does no more than finish choices. -/
def TextFree (event : SseEvent) : Prop :=
  ∀ choice ∈ choicesOf event,
    contentOf choice = none ∧ refusalOf choice = none ∧ toolCallsOf choice = []

/-- No tool call gets fragments from both events. -/
def ToolsApart (first second : SseEvent) : Prop :=
  ∀ choice tool, toolFragments choice tool [first] = [] ∨
    toolFragments choice tool [second] = []

/-- Nothing within a choice gets fragments from both events. -/
structure ChoicesApart (first second : SseEvent) : Prop where
  tools : ToolsApart first second
  pieces : ∀ read ∈ [(deltaStr · "role"), contentOf, refusalOf, (·.getStr "finish_reason")],
    ∀ choice, choicePieces read choice [first] = [] ∨ choicePieces read choice [second] = []

/-- Whatever came before, tool calls do not see the order of two events that share none. -/
theorem toolCall_comm {first second : SseEvent} (hapart : ToolsApart first second)
    (state : ChunkState) (choice tool : ℕ) :
    (state.applyAll [first, second]).toolCall choice tool =
      (state.applyAll [second, first]).toolCall choice tool := by
  have hfragments : toolFragments choice tool [first, second] =
      toolFragments choice tool [second, first] := by
    have hcons : ∀ left right : SseEvent, toolFragments choice tool [left, right] =
        toolFragments choice tool [left] ++ toolFragments choice tool [right] :=
      fun left right => toolFragments_append choice tool [left] [right]
    rw [hcons, hcons]
    rcases hapart choice tool with hnone | hnone
    · rw [hnone, List.nil_append, List.append_nil]
    · rw [hnone, List.nil_append, List.append_nil]
  rw [ChunkState.toolCall_applyAll, ChunkState.toolCall_applyAll, hfragments]

theorem foldl_extend_comm {left right : List Value}
    (hpieces : ∀ read ∈ [(deltaStr · "role"), contentOf, refusalOf, (·.getStr "finish_reason")],
      left.filterMap read = [] ∨ right.filterMap read = [])
    (htools : ∀ tool, toolRouter.addressed tool (left.flatMap toolCallsOf) = [] ∨
      toolRouter.addressed tool (right.flatMap toolCallsOf) = [])
    (entry : ChoiceState) :
    (left ++ right).foldl ChoiceState.extend entry =
      (right ++ left).foldl ChoiceState.extend entry := by
  have hswap : ∀ read ∈ [(deltaStr · "role"), contentOf, refusalOf,
      (·.getStr "finish_reason")],
      (left ++ right).filterMap read = (right ++ left).filterMap read := by
    intro read hread
    rw [List.filterMap_append, List.filterMap_append]
    rcases hpieces read hread with hnone | hnone
    · rw [hnone, List.nil_append, List.append_nil]
    · rw [hnone, List.nil_append, List.append_nil]
  rw [foldl_extend_choice, foldl_extend_choice, firstStr, firstStr, hswap _ (by simp),
    hswap contentOf (by simp), hswap refusalOf (by simp), hswap (·.getStr "finish_reason") (by simp),
    List.flatMap_append, List.flatMap_append, toolRouter.run_append_comm htools]

/-- Events that share nothing within a choice may go in either order. -/
theorem choices_comm {first second : SseEvent} (hapart : ChoicesApart first second)
    (state : ChunkState) :
    (state.applyAll [first, second]).choices = (state.applyAll [second, first]).choices := by
  apply Finmap.ext_lookup
  intro choice
  have hcons : ∀ left right : SseEvent, choiceFragments choice [left, right] =
      choiceFragments choice [left] ++ choiceFragments choice [right] :=
    fun left right => choiceFragments_append choice [left] [right]
  rw [ChunkState.lookup_applyAll, ChunkState.lookup_applyAll, hcons, hcons,
    foldl_extend_comm (fun read hread => hapart.pieces read hread choice)
      fun tool => hapart.tools choice tool]
  simp only [List.append_eq_nil_iff, and_comm]

theorem textFree_fragments {event : SseEvent} (hfree : TextFree event) (choice : ℕ) :
    choicePieces contentOf choice [event] = [] ∧ choicePieces refusalOf choice [event] = [] ∧
      ∀ tool, toolFragments choice tool [event] = [] := by
  have hmem : ∀ fragment ∈ choiceFragments choice [event], contentOf fragment = none ∧
      refusalOf fragment = none ∧ toolCallsOf fragment = [] := by
    intro fragment hfragment
    refine hfree fragment ?_
    have hfound := (List.mem_filter.mp hfragment).1
    rwa [List.flatMap_singleton] at hfound
  refine ⟨List.filterMap_eq_nil_iff.mpr fun fragment hfragment => (hmem fragment hfragment).1,
    List.filterMap_eq_nil_iff.mpr fun fragment hfragment => (hmem fragment hfragment).2.1,
    fun tool => ?_⟩
  have hnone : (choiceFragments choice [event]).flatMap toolCallsOf = [] :=
    List.flatMap_eq_nil_iff.mpr fun fragment hfragment => (hmem fragment hfragment).2.2
  rw [toolFragments, hnone]
  rfl

/-- Every stream is put together from its fragments: each tool call from those with its
indices, in the order of arrival, and each content and refusal likewise.  Events commute
in all that they do not share, and an event without text leaves every text as it is. -/
theorem applyAll_reassembles (events : List SseEvent) :
    (∀ choice tool, (ChunkState.new.applyAll events).toolCall choice tool =
      toolCallOf (toolFragments choice tool events)) ∧
    (∀ choice, (ChunkState.new.applyAll events).content choice =
        Utf8String.concat (choicePieces contentOf choice events) ∧
      (ChunkState.new.applyAll events).refusal choice =
        Utf8String.concat (choicePieces refusalOf choice events)) ∧
    (∀ first second, ToolsApart first second → ∀ (state : ChunkState) choice tool,
      (state.applyAll [first, second]).toolCall choice tool =
        (state.applyAll [second, first]).toolCall choice tool) ∧
    (∀ first second, ChoicesApart first second → ∀ state : ChunkState,
      (state.applyAll [first, second]).choices = (state.applyAll [second, first]).choices) ∧
    (∀ event, TextFree event → ∀ (state : ChunkState) choice,
      (state.applyAll [event]).content choice = state.content choice ∧
      (state.applyAll [event]).refusal choice = state.refusal choice ∧
      ∀ tool, (state.applyAll [event]).toolCall choice tool = state.toolCall choice tool) := by
  refine ⟨fun choice tool => ?_, fun choice => ⟨?_, ?_⟩, fun first second => toolCall_comm,
    fun first second => choices_comm, fun event hfree state choice => ?_⟩
  · rw [ChunkState.toolCall_applyAll, foldl_extend_toolCall, toolCallOf]
    rfl
  · rw [ChunkState.content_applyAll]
    rfl
  · rw [ChunkState.refusal_applyAll]
    rfl
  · obtain ⟨hcontent, hrefusal, htools⟩ := textFree_fragments hfree choice
    refine ⟨?_, ?_, fun tool => ?_⟩
    · rw [ChunkState.content_applyAll, hcontent, Utf8String.concat_nil,
        Utf8String.append_empty]
    · rw [ChunkState.refusal_applyAll, hrefusal, Utf8String.concat_nil,
        Utf8String.append_empty]
    · rw [ChunkState.toolCall_applyAll, if_pos (htools tool)]

/-- A chunk with a fragment of the arguments of the first or of the second tool call. -/
def firstTool : SseEvent := ⟨none, ascii
  "\x7b\"choices\":[\x7b\"index\":0,\"delta\":\x7b\"tool_calls\":[\x7b\"index\":0,\"function\":\x7b\"arguments\":\"a\"\x7d\x7d]\x7d\x7d]\x7d"⟩
def secondTool : SseEvent := ⟨none, ascii
  "\x7b\"choices\":[\x7b\"index\":0,\"delta\":\x7b\"tool_calls\":[\x7b\"index\":1,\"function\":\x7b\"arguments\":\"b\"\x7d\x7d]\x7d\x7d]\x7d"⟩

theorem firstTool_apart : ToolsApart firstTool secondTool := by
  rw [firstTool, secondTool, ascii_ofList rfl, ascii_ofList rfl]
  intro choice tool
  cases choice with
  | zero =>
      cases tool with
      | zero => exact Or.inr rfl
      | succ tool => exact Or.inl rfl
  | succ choice => exact Or.inl rfl

theorem reassembles_tools :
    ((ChunkState.new.applyAll [firstTool, secondTool, firstTool]).toolCall 0 0).map
        ToolCallState.functionArguments = some (constant "aa") ∧
      (ChunkState.new.applyAll [firstTool, secondTool]).toolCall 0 0 =
        (ChunkState.new.applyAll [secondTool, firstTool]).toolCall 0 0 := by
  constructor
  · rw [(applyAll_reassembles [firstTool, secondTool, firstTool]).1, firstTool, secondTool,
      ascii_ofList rfl, ascii_ofList rfl]
    decide +kernel
  · exact (applyAll_reassembles []).2.2.1 firstTool secondTool firstTool_apart _ 0 0

end Legroom.Streams.OpenAiChat
