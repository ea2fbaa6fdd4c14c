import Legroom.Streams.Anthropic

/-!
# Reassembly of Anthropic blocks

What an event does to the blocks depends on nothing but the event, and it does so at
one index.  So the machine routes block events to the table of blocks, and each block
is the replay of its own events, however the events of several blocks interleave.
-/

namespace Legroom.Streams.Anthropic

open Utf8 Json Sse Routing

/-- What an event does to the block at its index. -/
inductive BlockAction where
  | start (contentBlock : Value)
  | delta (deltaType : Utf8String) (fields : Value)
  | stop

def BlockAction.act : BlockAction → Option BlockState → Option BlockState
  | .start contentBlock, _ => some (BlockState.start contentBlock)
  | .delta deltaType fields, block => some ((block.getD default).applyDelta deltaType fields)
  | .stop, block => block.map BlockState.stop

/-- The action that an event's name and payload call for, if the payload has the fields
that the handler insists on. -/
def readAction (name : Utf8String) (value : Value) : Option BlockAction :=
  if name = constant "content_block_start" then
    (value.get (constant "content_block")).map .start
  else if name = constant "content_block_delta" then
    (value.get (constant "delta")).bind fun delta =>
      (delta.getStr "type").map fun deltaType => .delta deltaType delta
  else if name = constant "content_block_stop" then some .stop
  else none

def blockAction (event : SseEvent) : Option (ℕ × BlockAction) :=
  event.eventName.bind fun name =>
    (parseJson event.data).toOption.bind fun value =>
      (value.getU64 "index").bind fun index =>
        (readAction name value).map fun action => (index, action)

/-- The usage object of an event. -/
def usageOf (event : SseEvent) : Option Value :=
  event.eventName.bind fun name =>
    (parseJson event.data).toOption.bind fun value =>
      if name = constant "message_start" then
        (value.get (constant "message")).bind fun message => message.get (constant "usage")
      else if name = constant "message_delta" then value.get (constant "usage")
      else none

/-! ## One event -/

/-- The state after an event, which is the old one if the event is refused. -/
def AnthropicStreamState.after (state : AnthropicStreamState) (event : SseEvent) :
    AnthropicStreamState :=
  (state.apply event).toOption.getD state

def actOn (blocks : Table ℕ BlockState) (event : SseEvent) : Table ℕ BlockState :=
  match blockAction event with
  | some (index, .start contentBlock) => blocks.insert index (BlockState.start contentBlock)
  | some (index, .delta deltaType delta) =>
      blocks.entry index fun block => block.applyDelta deltaType delta
  | some (index, .stop) => blocks.getMut index BlockState.stop
  | none => blocks

/-- The effect of an event on blocks and usage.  Nothing else enters into it. -/
structure Effect (state next : AnthropicStreamState) (event : SseEvent) : Prop where
  blocks : next.blocks = actOn state.blocks event
  usage : next.usage = state.usage.mergeOptional (usageOf event)

variable {state : AnthropicStreamState} {event : SseEvent}

/-- An event without an action and without usage. -/
theorem Effect.idle {next : AnthropicStreamState} (hblocks : next.blocks = state.blocks)
    (husage : next.usage = state.usage) (haction : blockAction event = none)
    (hnone : usageOf event = none) : Effect state next event := by
  constructor
  · rw [actOn, haction]
    exact hblocks
  · rw [hnone]
    exact husage

variable {name : Utf8String}

theorem blockAction_of_readAction (hname : event.eventName = some name)
    (hread : ∀ value, readAction name value = none) : blockAction event = none := by
  rw [blockAction, hname, Option.bind_some]
  simp [hread]

theorem usageOf_of_name (hname : event.eventName = some name)
    (hstart : name ≠ constant "message_start") (hdelta : name ≠ constant "message_delta") :
    usageOf event = none := by
  rw [usageOf, hname, Option.bind_some]
  simp [hstart, hdelta]

theorem effect_onMessageStart (hname : event.eventName = some (constant "message_start")) :
    Effect state ((state.onMessageStart event).toOption.getD state) event := by
  have haction : blockAction event = none :=
    blockAction_of_readAction hname fun value => rfl
  have husage : usageOf event = (parseJson event.data).toOption.bind fun value =>
      (value.get (constant "message")).bind fun message => message.get (constant "usage") := by
    rw [usageOf, hname]
    rfl
  rw [AnthropicStreamState.onMessageStart]
  cases hparse : parseJson event.data with
  | error error => exact .idle rfl rfl haction (by rw [husage, hparse]; rfl)
  | ok value =>
      cases hmessage : value.get (constant "message") with
      | none =>
          have hnone : usageOf event = none := by
            rw [husage, hparse]
            simp [Except.toOption, hmessage]
          simp only [bind, Except.bind, hmessage, orMissing]
          exact .idle rfl rfl haction hnone
      | some message =>
          simp only [bind, Except.bind, hmessage, orMissing]
          constructor
          · rw [actOn, haction]
            rfl
          · rw [husage, hparse]
            simp [Except.toOption, hmessage, pure, Except.pure]

/-- A handler that asks for the index first. -/
theorem Effect.ofIndex {step : Value → ℕ → Except StateError AnthropicStreamState}
    (hname : event.eventName = some name) (husage : usageOf event = none)
    (hstep : ∀ value index,
      blockAction event = (readAction name value).map (fun action => (index, action)) →
        Effect state ((step value index).toOption.getD state) event) :
    Effect state ((do
      let value ← parseJson event.data
      let index ← orMissing "index" (value.getU64 "index")
      step value index).toOption.getD state) event := by
  rw [blockAction, hname] at hstep
  cases hparse : parseJson event.data with
  | error error => exact .idle rfl rfl (by rw [blockAction, hname, hparse]; rfl) husage
  | ok value =>
      cases hindex : value.getU64 "index" with
      | none =>
          simp only [bind, Except.bind, hindex, orMissing]
          exact .idle rfl rfl (by simp [blockAction, hname, hparse, hindex, Except.toOption]) husage
      | some index =>
          simp only [bind, Except.bind, hindex, orMissing]
          exact hstep value index (by simp [hparse, hindex, Except.toOption])

theorem effect_onContentBlockStart
    (hname : event.eventName = some (constant "content_block_start")) :
    Effect state ((state.onContentBlockStart event).toOption.getD state) event := by
  have husage : usageOf event = none := usageOf_of_name hname (by decide) (by decide)
  refine .ofIndex hname husage fun value index haction => ?_
  rw [readAction, if_pos rfl] at haction
  cases hblock : value.get (constant "content_block") with
  | none => exact .idle rfl rfl (by rw [haction, hblock]; rfl) husage
  | some contentBlock =>
      constructor
      · rw [actOn, haction, hblock]
        rfl
      · rw [husage]
        rfl

theorem effect_onContentBlockDelta
    (hname : event.eventName = some (constant "content_block_delta")) :
    Effect state ((state.onContentBlockDelta event).toOption.getD state) event := by
  have husage : usageOf event = none := usageOf_of_name hname (by decide) (by decide)
  refine .ofIndex hname husage fun value index haction => ?_
  rw [readAction, if_neg (by decide), if_pos rfl] at haction
  cases hdelta : value.get (constant "delta") with
  | none => exact .idle rfl rfl (by rw [haction, hdelta]; rfl) husage
  | some delta =>
      rw [hdelta, Option.bind_some] at haction
      simp only [bind, Except.bind, orMissing]
      cases htype : delta.getStr "type" with
      | none => exact .idle rfl rfl (by rw [haction, htype]; rfl) husage
      | some deltaType =>
          constructor
          · rw [actOn, haction, htype]
            rfl
          · rw [husage]
            rfl

theorem effect_onContentBlockStop
    (hname : event.eventName = some (constant "content_block_stop")) :
    Effect state ((state.onContentBlockStop event).toOption.getD state) event := by
  have husage : usageOf event = none := usageOf_of_name hname (by decide) (by decide)
  refine .ofIndex hname husage fun value index haction => ?_
  constructor
  · rw [actOn, haction]
    rfl
  · rw [husage]
    rfl

theorem effect_onMessageDelta (hname : event.eventName = some (constant "message_delta")) :
    Effect state ((state.onMessageDelta event).toOption.getD state) event := by
  have haction : blockAction event = none :=
    blockAction_of_readAction hname fun value => rfl
  have husage : usageOf event = (parseJson event.data).toOption.bind fun value =>
      value.get (constant "usage") := by
    rw [usageOf, hname]
    rfl
  rw [AnthropicStreamState.onMessageDelta]
  cases hparse : parseJson event.data with
  | error error => exact .idle rfl rfl haction (by rw [husage, hparse]; rfl)
  | ok value =>
      constructor
      · rw [actOn, haction]
        rfl
      · rw [husage, hparse]
        rfl

variable (state : AnthropicStreamState)

/-- Whatever happens to the other fields, blocks and usage change as the event says. -/
theorem effect_after (event : SseEvent) : Effect state (state.after event) event := by
  rw [AnthropicStreamState.after, AnthropicStreamState.apply]
  cases hname : event.eventName with
  | none => exact .idle rfl rfl (by rw [blockAction, hname]; rfl) (by rw [usageOf, hname]; rfl)
  | some name =>
      dsimp only
      split_ifs with hping hstart hblockStart hblockDelta hblockStop hdelta hstop herror
      · subst hping
        exact .idle rfl rfl (blockAction_of_readAction hname fun value => rfl)
          (usageOf_of_name hname (by decide) (by decide))
      · exact effect_onMessageStart (hstart ▸ hname)
      · exact effect_onContentBlockStart (hblockStart ▸ hname)
      · exact effect_onContentBlockDelta (hblockDelta ▸ hname)
      · exact effect_onContentBlockStop (hblockStop ▸ hname)
      · exact effect_onMessageDelta (hdelta ▸ hname)
      · exact .idle rfl rfl (blockAction_of_readAction hname fun value => by
          simp [readAction, hblockStart, hblockDelta, hblockStop])
          (usageOf_of_name hname hstart hdelta)
      · exact .idle rfl rfl (blockAction_of_readAction hname fun value => by
          simp [readAction, hblockStart, hblockDelta, hblockStop])
          (usageOf_of_name hname hstart hdelta)
      · exact .idle rfl rfl (blockAction_of_readAction hname fun value => by
          simp [readAction, hblockStart, hblockDelta, hblockStop])
          (usageOf_of_name hname hstart hdelta)

/-! ## Runs -/

/-- Block events, addressed by their index. -/
def blockRouter : Router ℕ BlockState SseEvent where
  step := actOn
  address event := (blockAction event).map Prod.fst
  act event block :=
    match blockAction event with
    | some (_, action) => action.act block
    | none => block
  lookup_step table event key := by
    rw [actOn]
    rcases blockAction event with _ | ⟨index, contentBlock | ⟨deltaType, fields⟩ | _⟩
    · rfl
    · simp [Table.lookup_insert_eq, BlockAction.act]
    · simp [Table.lookup_entry, BlockAction.act]
    · simp [Table.lookup_getMut, BlockAction.act]

namespace AnthropicStreamState

def applyAll (state : AnthropicStreamState) (events : List SseEvent) : AnthropicStreamState :=
  Streams.applyAll apply state events

variable (state : AnthropicStreamState)

theorem applyAll_cons (event : SseEvent) (events : List SseEvent) :
    state.applyAll (event :: events) = (state.after event).applyAll events := rfl

theorem blocks_applyAll (events : List SseEvent) :
    (state.applyAll events).blocks = blockRouter.run state.blocks events := by
  induction events generalizing state with
  | nil => rfl
  | cons event events ih =>
      rw [applyAll_cons, ih, (effect_after state event).blocks]
      rfl

end AnthropicStreamState

/-! ## Usage -/

/-- The usage objects of a stream, as they come. -/
def usagesSeen (events : List SseEvent) : List Value := events.filterMap usageOf

/-- The largest count under a name. -/
def largest (field : String) (usages : List Value) : ℕ :=
  (usages.filterMap fun usage => usage.getU64 field).foldr max 0

/-- The field-wise merge of usage objects. -/
def mergedUsage (usages : List Value) : UsageBuilder where
  inputTokens := largest "input_tokens" usages
  outputTokens := largest "output_tokens" usages
  cacheCreationInputTokens := largest "cache_creation_input_tokens" usages
  cacheReadInputTokens := largest "cache_read_input_tokens" usages

theorem foldl_mergeField (count : ℕ) (field : String) (usages : List Value) :
    usages.foldl (fun count usage => mergeField count usage field) count =
      max count (largest field usages) := by
  induction usages generalizing count with
  | nil => simp [largest]
  | cons usage usages ih =>
      rw [List.foldl_cons, ih, mergeField, largest, largest, List.filterMap_cons]
      cases usage.getU64 field with
      | none => rfl
      | some incoming => rw [List.foldr_cons, Nat.max_assoc]

theorem foldl_mergeFrom (usage : UsageBuilder) (usages : List Value) :
    usages.foldl UsageBuilder.mergeFrom usage =
      { inputTokens := max usage.inputTokens (mergedUsage usages).inputTokens
        outputTokens := max usage.outputTokens (mergedUsage usages).outputTokens
        cacheCreationInputTokens :=
          max usage.cacheCreationInputTokens (mergedUsage usages).cacheCreationInputTokens
        cacheReadInputTokens :=
          max usage.cacheReadInputTokens (mergedUsage usages).cacheReadInputTokens } := by
  simp only [mergedUsage, ← foldl_mergeField]
  induction usages generalizing usage with
  | nil => rfl
  | cons value usages ih =>
      rw [List.foldl_cons, ih]
      rfl

theorem AnthropicStreamState.usage_applyAll (events : List SseEvent) :
    (state.applyAll events).usage =
      (usagesSeen events).foldl UsageBuilder.mergeFrom state.usage := by
  induction events generalizing state with
  | nil => rfl
  | cons event events ih =>
      rw [applyAll_cons, ih, (effect_after state event).usage, usagesSeen, usagesSeen,
        List.filterMap_cons]
      cases usageOf event <;> rfl

theorem usage_of_new (events : List SseEvent) :
    (AnthropicStreamState.new.applyAll events).usage = mergedUsage (usagesSeen events) := by
  rw [AnthropicStreamState.usage_applyAll, foldl_mergeFrom]
  simp [AnthropicStreamState.new, default]

/-! ## Block scripts -/

/-- The events of one content block: its start, its deltas and its stop, all with its
index. -/
structure BlockScript where
  index : ℕ
  contentBlock : Value
  start : SseEvent
  deltas : List SseEvent
  stop : SseEvent
  start_eq : blockAction start = some (index, .start contentBlock)
  deltas_eq : ∀ event ∈ deltas, ∃ deltaType fields,
    blockAction event = some (index, .delta deltaType fields)
  stop_eq : blockAction stop = some (index, .stop)

namespace BlockScript

def events (script : BlockScript) : List SseEvent :=
  script.start :: (script.deltas ++ [script.stop])

/-- The type and the fields of each delta. -/
def deltaFields (script : BlockScript) : List (Utf8String × Value) :=
  script.deltas.filterMap fun event =>
    match blockAction event with
    | some (_, .delta deltaType fields) => some (deltaType, fields)
    | _ => none

end BlockScript

/-- What deltas of one type hold under a name. -/
def piecesOf (deltaType field : String) (deltas : List (Utf8String × Value)) :
    List Utf8String :=
  deltas.filterMap fun delta =>
    if delta.1 = constant deltaType then delta.2.getStr field else none

/-- The text of text and thinking deltas, in the order of the deltas. -/
def textPieces (deltas : List (Utf8String × Value)) : List Utf8String :=
  deltas.filterMap fun delta =>
    if delta.1 = constant "text_delta" then delta.2.getStr "text"
    else if delta.1 = constant "thinking_delta" then delta.2.getStr "thinking"
    else none

def citationsOf (deltas : List (Utf8String × Value)) : List Value :=
  deltas.filterMap fun delta =>
    if delta.1 = constant "citations_delta" then delta.2.get (constant "citation") else none

/-- A signature that is put together, if there is any of it. -/
def signatureOf (pieces : List Utf8String) : Option Utf8String :=
  if pieces = [] then none else some (Utf8String.concat pieces)

/-- What the deltas leave of a block. -/
def BlockState.extended (block : BlockState) (deltas : List (Utf8String × Value)) :
    BlockState :=
  { block with
    textBuffer := block.textBuffer ++ Utf8String.concat (textPieces deltas)
    partialJson := block.partialJson ++
      Utf8String.concat (piecesOf "input_json_delta" "partial_json" deltas)
    signature := signatureOf
      (block.signature.toList ++ piecesOf "signature_delta" "signature" deltas)
    citations := block.citations ++ citationsOf deltas }

theorem signatureOf_append (left right : List Utf8String) :
    signatureOf ((signatureOf left).toList ++ right) = signatureOf (left ++ right) := by
  cases left with
  | nil => rfl
  | cons piece left => simp [signatureOf, Utf8String.append_assoc]

theorem extended_append (block : BlockState) (left right : List (Utf8String × Value)) :
    (block.extended left).extended right = block.extended (left ++ right) := by
  simp only [BlockState.extended, textPieces, piecesOf, citationsOf, List.filterMap_append,
    Utf8String.concat_append, Utf8String.append_assoc, List.append_assoc]
  rw [signatureOf_append, List.append_assoc]

theorem signatureOf_toList (signature : Option Utf8String) :
    signatureOf signature.toList = signature := by
  cases signature with
  | none => rfl
  | some signature => simp [signatureOf]

theorem extended_nil (block : BlockState) : block.extended [] = block := by
  simp [BlockState.extended, textPieces, piecesOf, citationsOf, signatureOf_toList]

theorem extended_single (block : BlockState) (deltaType : Utf8String) (fields : Value) :
    block.extended [(deltaType, fields)] =
      { block with
        textBuffer := block.textBuffer.pushStr
          (if deltaType = constant "text_delta" then fields.getStr "text"
          else if deltaType = constant "thinking_delta" then fields.getStr "thinking" else none)
        partialJson := block.partialJson.pushStr
          (if deltaType = constant "input_json_delta" then fields.getStr "partial_json"
          else none)
        signature := signatureOf (block.signature.toList ++
          (if deltaType = constant "signature_delta" then fields.getStr "signature"
          else none).toList)
        citations := block.citations ++
          (if deltaType = constant "citations_delta" then fields.get (constant "citation")
          else none).toList } := by
  have hsingle : ∀ {A : Type} (piece : Utf8String × Value → Option A),
      [(deltaType, fields)].filterMap piece = (piece (deltaType, fields)).toList := by
    intro A piece
    rw [List.filterMap_cons]
    cases piece (deltaType, fields) <;> rfl
  simp only [BlockState.extended, textPieces, piecesOf, citationsOf, hsingle,
    Utf8String.pushStr_eq]

/-- One delta adds its piece to the field of its type. -/
theorem applyDelta_eq (block : BlockState) (deltaType : Utf8String) (fields : Value) :
    block.applyDelta deltaType fields = block.extended [(deltaType, fields)] := by
  have hstays : signatureOf (block.signature.toList ++ []) = block.signature := by
    rw [List.append_nil, signatureOf_toList]
  rw [BlockState.applyDelta]
  split_ifs with htext hthinking hjson hsignature hcitations
  · have hjson : deltaType ≠ constant "input_json_delta" := by
      rw [htext]
      decide
    have hsignature : deltaType ≠ constant "signature_delta" := by
      rw [htext]
      decide
    have hcitations : deltaType ≠ constant "citations_delta" := by
      rw [htext]
      decide
    rw [extended_single, if_pos htext, if_neg hjson, if_neg hsignature, if_neg hcitations,
      Option.toList_none, Option.toList_none, hstays, List.append_nil]
    rfl
  · have hjson : deltaType ≠ constant "input_json_delta" := by
      rw [hthinking]
      decide
    have hsignature : deltaType ≠ constant "signature_delta" := by
      rw [hthinking]
      decide
    have hcitations : deltaType ≠ constant "citations_delta" := by
      rw [hthinking]
      decide
    rw [extended_single, if_neg htext, if_pos hthinking, if_neg hjson, if_neg hsignature,
      if_neg hcitations, Option.toList_none, Option.toList_none, hstays, List.append_nil]
    rfl
  · have hsignature : deltaType ≠ constant "signature_delta" := by
      rw [hjson]
      decide
    have hcitations : deltaType ≠ constant "citations_delta" := by
      rw [hjson]
      decide
    rw [extended_single, if_neg htext, if_neg hthinking, if_pos hjson, if_neg hsignature,
      if_neg hcitations, Option.toList_none, Option.toList_none, hstays, List.append_nil]
    rfl
  · have hcitations : deltaType ≠ constant "citations_delta" := by
      rw [hsignature]
      decide
    rw [extended_single, if_neg htext, if_neg hthinking, if_neg hjson, if_pos hsignature,
      if_neg hcitations, Option.toList_none, List.append_nil]
    cases fields.getStr "signature" with
    | none =>
        rw [Option.toList_none, hstays]
        rfl
    | some signature => cases hblock : block.signature <;> simp [signatureOf, Utf8String.pushStr]
  · rw [extended_single, if_neg htext, if_neg hthinking, if_neg hjson, if_neg hsignature,
      if_pos hcitations, Option.toList_none, hstays]
    cases fields.get (constant "citation") with
    | none =>
        rw [Option.toList_none, List.append_nil]
        rfl
    | some citation => rfl
  · rw [extended_single, if_neg htext, if_neg hthinking, if_neg hjson, if_neg hsignature,
      if_neg hcitations, Option.toList_none, Option.toList_none, hstays, List.append_nil]
    rfl

theorem foldl_applyDelta (block : BlockState) (deltas : List (Utf8String × Value)) :
    deltas.foldl (fun block delta => block.applyDelta delta.1 delta.2) block =
      block.extended deltas := by
  induction deltas generalizing block with
  | nil => exact (extended_nil block).symm
  | cons delta deltas ih =>
      rw [List.foldl_cons, ih, applyDelta_eq, extended_append]
      rfl

namespace BlockScript

/-- The block of a script: its text, JSON and signature are put together from the
deltas in their order, and its citations are listed in their order. -/
def block (script : BlockScript) : BlockState where
  blockType := (script.contentBlock.getStr "type").getD .empty
  textBuffer := Utf8String.concat ((script.contentBlock.getStr "text").toList ++
    ((script.contentBlock.getStr "thinking").toList ++ textPieces script.deltaFields))
  partialJson := Utf8String.concat
    (piecesOf "input_json_delta" "partial_json" script.deltaFields)
  signature := signatureOf (piecesOf "signature_delta" "signature" script.deltaFields)
  citations := citationsOf script.deltaFields
  metadata := script.contentBlock
  complete := true

variable (script : BlockScript)

theorem block_eq :
    script.block =
      ((BlockState.start script.contentBlock).extended script.deltaFields).stop := by
  rw [block, BlockState.start, BlockState.extended, BlockState.stop]
  simp [Utf8String.pushStr_eq, Utf8String.append_assoc]

theorem replay_deltas (block : BlockState) :
    blockRouter.replay (some block) script.deltas = some (block.extended script.deltaFields) := by
  rw [← foldl_applyDelta, deltaFields]
  have hdeltas := script.deltas_eq
  generalize script.deltas = deltas at hdeltas
  induction deltas generalizing block with
  | nil => rfl
  | cons event deltas ih =>
      obtain ⟨deltaType, fields, haction⟩ := hdeltas event List.mem_cons_self
      rw [Router.replay, List.foldl_cons, List.filterMap_cons_some (by rw [haction])]
      refine Eq.trans ?_ (ih (block.applyDelta deltaType fields)
        fun other hother => hdeltas other (List.mem_cons_of_mem _ hother))
      simp only [blockRouter, haction, BlockAction.act, Option.getD_some]
      rfl

/-- Whatever stood at the index before, the script's events leave the script's block. -/
theorem replay_events (entry : Option BlockState) :
    blockRouter.replay entry script.events = some script.block := by
  have hstart : blockRouter.act script.start entry =
      some (BlockState.start script.contentBlock) := by
    simp only [blockRouter, script.start_eq, BlockAction.act]
  have hstop : ∀ block, blockRouter.act script.stop (some block) = some block.stop := by
    intro block
    simp only [blockRouter, script.stop_eq, BlockAction.act, Option.map_some]
  have hdeltas := script.replay_deltas (BlockState.start script.contentBlock)
  rw [Router.replay] at hdeltas ⊢
  rw [events, List.foldl_cons, List.foldl_append, hstart, hdeltas, List.foldl_cons,
    List.foldl_nil, hstop, block_eq]

theorem address_events :
    ∀ event ∈ script.events, blockRouter.address event = some script.index := by
  intro event hevent
  rcases List.mem_cons.mp hevent with rfl | hevent
  · simp [blockRouter, script.start_eq]
  · rcases List.mem_append.mp hevent with hevent | hevent
    · obtain ⟨deltaType, fields, haction⟩ := script.deltas_eq event hevent
      simp [blockRouter, haction]
    · rw [List.mem_singleton.mp hevent]
      simp [blockRouter, script.stop_eq]

end BlockScript

/-! ## Interleavings -/

variable {scripts : List BlockScript} {others merged : List SseEvent}

/-- In an interleaving, the events at the index of a script are the script's own. -/
theorem addressed_interleaving (hindices : (scripts.map BlockScript.index).Nodup)
    (hothers : ∀ event ∈ others, blockAction event = none)
    (hmerged : Interleaves (others :: scripts.map BlockScript.events) merged) {script : BlockScript}
    (hscript : script ∈ scripts) : blockRouter.addressed script.index merged = script.events := by
  obtain ⟨before, after, rfl⟩ := List.append_of_mem hscript
  rw [List.map_append, List.map_cons, ← List.cons_append] at hmerged
  refine hmerged.filter_eq (fun event hevent => ?_) fun sequence hsequence event hevent => ?_
  · simpa using script.address_events event hevent
  · rw [decide_eq_false_iff_not]
    rw [List.cons_append] at hsequence
    rcases List.mem_cons.mp hsequence with rfl | hsequence
    · simp [blockRouter, hothers event hevent]
    · rw [← List.map_append] at hsequence
      obtain ⟨other, hother, rfl⟩ := List.mem_map.mp hsequence
      rw [other.address_events event hevent, Option.some.injEq]
      rw [List.map_append, List.map_cons, List.nodup_middle, List.nodup_cons,
        ← List.map_append] at hindices
      exact fun heq => hindices.1 (heq ▸ List.mem_map_of_mem hother)

theorem addressed_interleaving_none {index : ℕ}
    (hothers : ∀ event ∈ others, blockAction event = none)
    (hmerged : Interleaves (others :: scripts.map BlockScript.events) merged)
    (hindex : ∀ script ∈ scripts, script.index ≠ index) :
    blockRouter.addressed index merged = [] := by
  refine List.filter_eq_nil_iff.mpr fun event hevent => ?_
  have hmem := hmerged.mem_flatten hevent
  rw [List.flatten_cons, List.mem_append] at hmem
  rcases hmem with hmem | hmem
  · simp [blockRouter, hothers event hmem]
  · obtain ⟨sequence, hsequence, hmem⟩ := List.mem_flatten.mp hmem
    obtain ⟨script, hscript, rfl⟩ := List.mem_map.mp hsequence
    simpa [script.address_events event hmem] using hindex script hscript

/-- However the events of several blocks and all others interleave, each block is what
its own events make of it one after the other, no other block exists, and the usage is
the merge of the usage objects seen. -/
theorem applyAll_interleaving {scripts : List BlockScript} {others merged : List SseEvent}
    (hindices : (scripts.map BlockScript.index).Nodup)
    (hothers : ∀ event ∈ others, blockAction event = none)
    (hmerged : Interleaves (others :: scripts.map BlockScript.events) merged) :
    let state := AnthropicStreamState.new.applyAll merged
    (∀ script ∈ scripts, state.blocks.lookup script.index = some script.block ∧
      (AnthropicStreamState.new.applyAll script.events).blocks.lookup script.index =
        some script.block) ∧
      (∀ index, (∀ script ∈ scripts, script.index ≠ index) →
        state.blocks.lookup index = none) ∧
      state.usage = mergedUsage (usagesSeen merged) := by
  refine ⟨fun script hscript => ⟨?_, ?_⟩, fun index hindex => ?_, usage_of_new merged⟩
  · rw [AnthropicStreamState.blocks_applyAll, Router.lookup_run,
      addressed_interleaving hindices hothers hmerged hscript, script.replay_events]
  · have hown : blockRouter.addressed script.index script.events = script.events :=
      List.filter_eq_self.mpr fun event hevent => by
        simpa using script.address_events event hevent
    rw [AnthropicStreamState.blocks_applyAll, Router.lookup_run, hown, script.replay_events]
  · rw [AnthropicStreamState.blocks_applyAll, Router.lookup_run,
      addressed_interleaving_none hothers hmerged hindex]
    rfl

def eventOf (name data : String) : SseEvent := ⟨some (constant name), ascii data⟩

/-- A text block at index 0. -/
def textScript : BlockScript where
  index := 0
  contentBlock := .object [(constant "type", .string (constant "text"))]
  start := eventOf "content_block_start"
    "\x7b\"index\":0,\"content_block\":\x7b\"type\":\"text\"\x7d\x7d"
  deltas := [eventOf "content_block_delta"
    "\x7b\"index\":0,\"delta\":\x7b\"type\":\"text_delta\",\"text\":\"a\"\x7d\x7d"]
  stop := eventOf "content_block_stop" "\x7b\"index\":0\x7d"
  start_eq := rfl
  deltas_eq event hevent := by
    rw [List.mem_singleton.mp hevent]
    exact ⟨constant "text_delta", _, rfl⟩
  stop_eq := rfl

/-- A thinking block at index 1. -/
def thinkingScript : BlockScript where
  index := 1
  contentBlock := .object [(constant "type", .string (constant "thinking"))]
  start := eventOf "content_block_start"
    "\x7b\"index\":1,\"content_block\":\x7b\"type\":\"thinking\"\x7d\x7d"
  deltas := [eventOf "content_block_delta"
    "\x7b\"index\":1,\"delta\":\x7b\"type\":\"thinking_delta\",\"thinking\":\"b\"\x7d\x7d"]
  stop := eventOf "content_block_stop" "\x7b\"index\":1\x7d"
  start_eq := rfl
  deltas_eq event hevent := by
    rw [List.mem_singleton.mp hevent]
    exact ⟨constant "thinking_delta", _, rfl⟩
  stop_eq := rfl

/-- The second block opens and gets its delta before the first block gets its own. -/
theorem interleaves_nested {Item : Type*} (start delta stop start' delta' stop' : Item) :
    Interleaves [[], [start, delta, stop], [start', delta', stop']]
      [start, start', delta', delta, stop, stop'] := by
  refine @Interleaves.next _ [[]] [_] _ _ _ ?_
  refine @Interleaves.next _ [[], _] [] _ _ _ ?_
  refine @Interleaves.next _ [[], _] [] _ _ _ ?_
  refine @Interleaves.next _ [[]] [_] _ _ _ ?_
  refine @Interleaves.next _ [[]] [_] _ _ _ ?_
  refine @Interleaves.next _ [[], _] [] _ _ _ ?_
  exact .done (by simp)

/-- The blocks of the two scripts in nested order. -/
def nestedBlocks : Table ℕ BlockState :=
  (AnthropicStreamState.new.applyAll [textScript.start, thinkingScript.start,
    thinkingScript.deltas.headD thinkingScript.stop, textScript.deltas.headD textScript.stop,
    textScript.stop, thinkingScript.stop]).blocks

theorem applyAll_textThinking :
    nestedBlocks.lookup textScript.index = some textScript.block ∧
      nestedBlocks.lookup thinkingScript.index = some thinkingScript.block ∧
      textScript.block.textBuffer = constant "a" ∧
      thinkingScript.block.textBuffer = constant "b" := by
  have hmerged : Interleaves [[], textScript.events, thinkingScript.events] _ :=
    interleaves_nested textScript.start (textScript.deltas.headD textScript.stop)
      textScript.stop thinkingScript.start (thinkingScript.deltas.headD thinkingScript.stop)
      thinkingScript.stop
  have hblocks := (@applyAll_interleaving [textScript, thinkingScript] [] _
    (by decide +kernel) (by simp) hmerged).1
  exact ⟨(hblocks textScript (by simp)).1, (hblocks thinkingScript (by simp)).1,
    by decide +kernel, by decide +kernel⟩

end Legroom.Streams.Anthropic
