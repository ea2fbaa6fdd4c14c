import Legroom.Transforms.BlockDecisions
import Legroom.Transforms.CrossTurnDedup

/-!
# The router over messages

Strings and blocks are decided about one after the other.  A string for which nothing is cached
waits for the end, and a last pass folds what was shown before.
-/

namespace Legroom.RouterApply

open Python BlockDecisions Ccr

/-! ## Calls -/

/-- The options of a call, with the configuration behind them. -/
structure ApplyOptions where
  frozenMessageCount : ℕ
  skipUser : Bool
  skipSystem : Bool
  compressAssistantTextBlocks : Bool
  minTokens : ℕ
  minChars : ℕ
  protectRecent : ℕ
  protectAnalysis : Bool
  readProtectionWindow : ℕ
  protectErrorOutputs : Bool
  errorProtectionMaxChars : ℕ
  crossTurnDedup : Bool

/-- What is found in tool calls and contents. -/
structure Findings where
  toolName : Value → Text
  isExcluded : Value → Bool
  isVerbatimTool : Text → Bool
  isProtectedRead : Value → Bool
  isProtectedReadAt : ℕ → Bool
  readOutputShouldBeProtected : Text → Bool
  /-- A reversible fold of the output of an excluded tool. -/
  compactOf : Text → Option Text
  /-- A fold of the output of a search, for the name of a tool and the id of its call. -/
  searchFoldOf : Text → Value → Text → Option Text
  hasStrongErrorIndicators : Text → Bool
  isCode : Text → Bool
  analysisIntent : Bool
  /-- The content holds a fenced command that reads a file. -/
  isFencedRead : Value → Bool
  /-- The calls, found once more, of tools whose outputs are never rewritten. -/
  verbatimToolIds : List Value → Value → Bool

/-- A call of `apply`; each text has its setting, and each decision about it its turn. -/
structure Call (K S : Type) where
  router : Router K S
  options : ApplyOptions
  findings : Findings
  tables : CharTables
  settingAt : ℕ → ℕ → S
  turnAt : ℕ → ℕ → Bool → Turn

def isHashable : Value → Bool
  | .list _ => false
  | .dict _ => false
  | _ => true

/-- A content that was compressed before. -/
def isPinned (content : Text) : Bool :=
  decide (text "Retrieve more: hash=" <:+: content) ||
    decide (text "Retrieve original: hash=" <:+: content)

def roleOf (message : Value) : Value := (message.get (text "role")).getD (.str [])

def hasCacheControl (block : Value) : Bool := (block.get (text "cache_control")).isSome

section

variable {K S : Type} [DecidableEq K] (call : Call K S)

/-! ## Blocks -/

/-- Whether text blocks of a role stay as they are. -/
def protectTextBlocks (role : Value) : Option Bool :=
  if role.isText (text "user") then some call.options.skipUser
  else if !isHashable role then none
  else if role.isText (text "system") || role.isText (text "developer") then
    some call.options.skipSystem
  else if role.isText (text "assistant") then some !call.options.compressAssistantTextBlocks
  else some !(role.isText (text "tool") || role.isText (text "function"))

/-- A list of text blocks only. -/
def isListForm : Value → Bool
  | .list items => !items.isEmpty && items.all (hasType (text "text"))
  | _ => false

/-- The texts of a list form are joined; another content stays. -/
def flatten (content : Value) : Option Value :=
  match content with
  | .list items =>
      if isListForm content then do
        let texts ← items.mapM fun item => do (← item.getOr (text "text") (.str [])).asText
        some (.str texts.flatten)
      else some content
  | _ => some content

/-- A text in the container of the content that it replaces. -/
def rewrap (content : Value) (shown : Text) : Value :=
  if isListForm content then
    .list [.dict [(text "type", .str (text "text")), (text "text", .str shown)]]
  else .str shown

def hasLosslessFold (shown : Text) : Bool :=
  (LosslessRouter.losslessFirst call.tables shown .passthrough).2.isSome

def isLong (shown : Text) : Bool :=
  decide (call.options.minChars < shown.length) || hasLosslessFold call shown

def losslessCompactExcluded (content : Text) : Option Text :=
  if content.length < 200 then none else call.findings.compactOf content

def bashSearchFold (id : Value) (content : Text) : Option Text :=
  if content.length < 200 then none
  else call.findings.searchFoldOf (call.findings.toolName id) id content

def isErrorOutput (block : Value) (shown : Text) : Bool :=
  call.options.protectErrorOutputs &&
    decide (shown.length ≤ call.options.errorProtectionMaxChars) &&
    ((match block.get (text "is_error") with
      | some (.number (.bool isError)) => isError
      | _ => false) || call.findings.hasStrongErrorIndicators shown)

/-- The text that takes the place of a text of a tool, if one does. -/
def toolText (index position : ℕ) (id block : Value) (shown : Text) (state : RouterState K S) :
    Option Text × RouterState K S :=
  match bashSearchFold call id shown with
  | some folded => (some folded, state)
  | none =>
      if isErrorOutput call block shown || !isLong call shown || isPinned shown then (none, state)
      else
        compressBlockContent call.router (call.turnAt index position false)
          ⟨shown, .toolResult, call.settingAt index position⟩ state

/-- An excluded tool whose output is recent, or is never rewritten. -/
def isVerbatimId (id : Value) : Bool :=
  !(call.findings.toolName id).isEmpty && call.findings.isVerbatimTool (call.findings.toolName id)

/-- What takes the place of a tool result, if it changes. -/
def toolResultChange (fromEnd index position : ℕ) (block : Value) (state : RouterState K S) :
    Option (Option Value × RouterState K S) := do
  let id := (block.get (text "tool_use_id")).getD (.str [])
  let content := (block.get (text "content")).getD (.str [])
  let flat ← flatten content
  if !isHashable id then none
  else if call.findings.isProtectedRead id &&
      flat.asText.any call.findings.readOutputShouldBeProtected then
    some (none, state)
  else if call.findings.isExcluded id && isVerbatimId call id then some (none, state)
  else if call.findings.isExcluded id &&
      decide (fromEnd ≤ call.options.readProtectionWindow) then
    some ((content.asText.bind (losslessCompactExcluded call)).map fun folded =>
      block.put (text "content") (.str folded), state)
  else
    match flat with
    | .str shown =>
        let (change, state) := toolText call index position id block shown state
        some (change.map fun shown => block.put (text "content") (rewrap content shown), state)
    | _ => some (none, state)

def textBlockChange (isTool : Bool) (index position : ℕ) (block : Value)
    (state : RouterState K S) : Option Value × RouterState K S :=
  match (block.get (text "text")).getD (.str []) with
  | .str shown =>
      if !isLong call shown || isPinned shown then (none, state)
      else
        let (change, state) := compressBlockContent call.router (call.turnAt index position false)
          ⟨shown, .textBlock isTool, call.settingAt index position⟩ state
        (change.map fun shown => block.put (text "text") (.str shown), state)
  | _ => (none, state)

/-- A block with a cache breakpoint never changes. -/
def blockChange (isTool protectText : Bool) (fromEnd index position : ℕ) (block : Value)
    (state : RouterState K S) : Option (Option Value × RouterState K S) :=
  if !block.isDict || hasCacheControl block then some (none, state)
  else if hasType (text "tool_result") block then
    toolResultChange call fromEnd index position block state
  else if hasType (text "text") block && !protectText then
    some (textBlockChange call isTool index position block state)
  else some (none, state)

/-- The blocks from a position on, and whether one of them changed. -/
def changeBlocks (isTool protectText : Bool) (fromEnd index : ℕ) :
    ℕ → List Value → RouterState K S → Option (List Value × Bool × RouterState K S)
  | _, [], state => some ([], false, state)
  | position, block :: blocks, state => do
      let (change, state) ← blockChange call isTool protectText fromEnd index position block state
      let (rest, changed, state) ←
        changeBlocks isTool protectText fromEnd index (position + 1) blocks state
      some (change.getD block :: rest, change.isSome || changed, state)

/-- `_process_content_blocks` -/
def processContentBlocks (fromEnd index : ℕ) (message : Value) (blocks : List Value)
    (state : RouterState K S) : Option (Value × RouterState K S) := do
  let protectText ← protectTextBlocks call (roleOf message)
  let isTool := (roleOf message).isText (text "tool")
  let (blocks, changed, state) ←
    changeBlocks call isTool protectText fromEnd index 0 blocks state
  some (if changed then message.put (text "content") (.list blocks) else message, state)

/-! ## Strings -/

/-- A message is done, or waits for the compression of its text. -/
inductive Slot (S : Type) where
  | done (message : Value)
  | pending (message : Value) (block : Block S) (index : ℕ)

def shownAs (message : Value) : Emission → Value
  | some shown => message.put (text "content") (.str shown)
  | none => message

/-- The answer for a tool message that does not get to the strategies. -/
def toolMessageAnswer (fromEnd : ℕ) (message : Value) (content : Text) : Option (Option Value) :=
  let id := (message.get (text "tool_call_id")).getD (.str [])
  if !isHashable id then none
  else if call.findings.isExcluded id && isVerbatimId call id then some (some message)
  else if call.findings.isExcluded id &&
      decide (fromEnd ≤ call.options.readProtectionWindow) then
    some (some (shownAs message (losslessCompactExcluded call content)))
  else
    some ((bashSearchFold call id content).map fun folded =>
      shownAs message (some folded))

/-- A read whose output must stay as it is. -/
def isReadObservation (index : ℕ) (message : Value) (content : Text) : Option Bool :=
  let role := roleOf message
  let id := (((message.get (text "tool_call_id")).getD .none).orElse
    ((message.get (text "tool_use_id")).getD .none)).orElse (.str [])
  if !(role.isText (text "user") || role.isText (text "tool") || role.isText (text "function")) then
    some false
  else if !isHashable id then none
  else
    some ((call.findings.isProtectedRead id || call.findings.isProtectedReadAt index) &&
      call.findings.readOutputShouldBeProtected content)

/-- A role whose strings stay as they are. -/
def isProtectedRole (role : Value) : Option Bool :=
  if call.options.skipUser && role.isText (text "user") then some true
  else if !call.options.skipSystem then some false
  else if !isHashable role then none
  else some (role.isText (text "system") || role.isText (text "developer"))

/-- A content that stays as it is. -/
def isProtectedContent (fromEnd : ℕ) (role : Value) (content : Text) : Bool :=
  content.isEmpty || decide (call.router.countText content < call.options.minTokens) ||
    (call.options.protectErrorOutputs && role.isText (text "tool") &&
      decide (content.length ≤ call.options.errorProtectionMaxChars) &&
      call.findings.hasStrongErrorIndicators content) ||
    (decide (0 < call.options.protectRecent) && decide (fromEnd ≤ call.options.protectRecent) &&
      call.findings.isCode content) ||
    (call.options.protectAnalysis && call.findings.analysisIntent &&
      call.findings.isCode content) ||
    isPinned content

/-- A text that gets to the strategies, unless it is protected. -/
def strategySlot (fromEnd index : ℕ) (message : Value) (content : Text)
    (state : RouterState K S) : Slot S × RouterState K S :=
  let role := roleOf message
  if isProtectedContent call fromEnd role content then (.done message, state)
  else
    let block : Block S :=
      ⟨content, .message (role.isText (text "tool")), call.settingAt index 0⟩
    match lookupMessage call.router (call.turnAt index 0 false) block state with
    | (some emission, state) => (.done (shownAs message emission), state)
    | (none, state) => (.pending message block index, state)

def stringSlot (fromEnd index : ℕ) (message : Value) (content : Text) (state : RouterState K S) :
    Option (Slot S × RouterState K S) :=
  let role := roleOf message
  let answer := if role.isText (text "tool") then toolMessageAnswer call fromEnd message content
    else some none
  answer.bind fun answer =>
    match answer with
    | some answer => some (.done answer, state)
    | none =>
        (isReadObservation call index message content).bind fun isRead =>
          if isRead then some (.done message, state)
          else
            (isProtectedRole call role).map fun isProtected =>
              if isProtected then (.done message, state)
              else strategySlot call fromEnd index message content state

/-! ## Messages -/

def messageSlot (count index : ℕ) (message : Value) (state : RouterState K S) :
    Option (Slot S × RouterState K S) :=
  if index < call.options.frozenMessageCount then some (.done message, state)
  else if !message.isDict then none
  else
    match (message.get (text "content")).getD (.str []) with
    | .list blocks =>
        (processContentBlocks call (count - index) index message blocks state).map
          fun (message, state) => (.done message, state)
    | .str content => stringSlot call (count - index) index message content state
    | _ => some (.done message, state)

/-- The first pass, from an index on. -/
def firstPass (count : ℕ) :
    ℕ → List Value → RouterState K S → Option (List (Slot S) × RouterState K S)
  | _, [], state => some ([], state)
  | index, message :: messages, state => do
      let (slot, state) ← messageSlot call count index message state
      let (slots, state) ← firstPass count (index + 1) messages state
      some (slot :: slots, state)

/-- The texts that were compressed in parallel are merged in the order of the messages. -/
def mergePass : List (Slot S) → RouterState K S → List Value × RouterState K S
  | [], state => ([], state)
  | .done message :: slots, state =>
      let (messages, state) := mergePass slots state
      (message :: messages, state)
  | .pending message block index :: slots, state =>
      let (emission, state) :=
        mergeMessage call.router (call.turnAt index 0 true) block state
      let (messages, state) := mergePass slots state
      (shownAs message emission :: messages, state)

/-- The messages before the last pass. -/
def routeMessages (messages : List Value) (state : RouterState K S) :
    Option (List Value × RouterState K S) := do
  let (slots, state) ← firstPass call messages.length 0 messages state
  some (mergePass call slots state)

/-! ## Repetitions -/

/-- Where a text is that may be folded. -/
inductive Location where
  | message (index : ℕ)
  | block (index position : ℕ)
  | sub (index position part : ℕ)
deriving DecidableEq

/-- The nearest assistant or user message before decides. -/
def isUserReadObservation (messages : List Value) (index : ℕ) : Bool :=
  match (messages.take index).reverse.find? fun message =>
      (roleOf message).isText (text "assistant") || (roleOf message).isText (text "user") with
  | some message => (roleOf message).isText (text "assistant") &&
      call.findings.isFencedRead ((message.get (text "content")).getD .none)
  | none => false

/-- The texts of a list content that are not empty. -/
def textParts (items : List Value) : List (ℕ × Text) :=
  items.zipIdx.filterMap fun (item, part) =>
    match hasType (text "text") item, item.get (text "text") with
    | true, some (.str (char :: shown)) => some (part, char :: shown)
    | _, _ => none

/-- Texts that only serve as references. -/
def isReferenceOnly (messages : List Value) (index : ℕ) (value : Value) (idKey : Text) :
    Option Bool :=
  let id := (value.get idKey).getD .none
  if decide (index < call.options.frozenMessageCount) || hasCacheControl value then some true
  else if !isHashable id then none
  else some (call.findings.verbatimToolIds messages id)

def blockTarget (messages : List Value) (index : ℕ) (entry : Value × ℕ) :
    Option (List (Location × CrossTurnDedup.DedupBlock)) :=
  let (block, position) := entry
  if !hasType (text "tool_result") block then some []
  else do
    let isProtected ← isReferenceOnly call messages index block (text "tool_use_id")
    match block.get (text "content") with
    | some (.str (char :: shown)) =>
        some [(.block index position, ⟨char :: shown, index, isProtected⟩)]
    | some (.list items) =>
        match textParts items with
        | [(part, shown)] => some [(.sub index position part, ⟨shown, index, isProtected⟩)]
        | _ => some []
    | _ => some []

def messageTargets (messages : List Value) (entry : Value × ℕ) :
    Option (List (Location × CrossTurnDedup.DedupBlock)) :=
  let (message, index) := entry
  let role := roleOf message
  if !message.isDict then none
  else match message.get (text "content") with
  | some (.list blocks) =>
      (blocks.zipIdx.mapM (blockTarget call messages index)).map List.flatten
  | some (.str (char :: shown)) =>
      if role.isText (text "tool") || role.isText (text "function") ||
          (role.isText (text "user") && isUserReadObservation call messages index) then
        (isReferenceOnly call messages index message (text "tool_call_id")).map fun isProtected =>
          [(.message index, ⟨char :: shown, index, isProtected⟩)]
      else some []
  | _ => some []

def rewriteItem (changes : List (Location × Text)) (index position part : ℕ) (item : Value) :
    Value :=
  match changes.lookup (.sub index position part) with
  | some shown => item.put (text "text") (.str shown)
  | none => item

def rewriteBlock (changes : List (Location × Text)) (index position : ℕ) (block : Value) : Value :=
  match changes.lookup (.block index position) with
  | some shown => block.put (text "content") (.str shown)
  | none =>
      match block.get (text "content") with
      | some (.list items) =>
          block.put (text "content") (.list (items.mapIdx (rewriteItem changes index position)))
      | _ => block

def rewriteMessage (changes : List (Location × Text)) (index : ℕ) (message : Value) : Value :=
  match message.get (text "content") with
  | some (.list blocks) =>
      message.put (text "content") (.list (blocks.mapIdx (rewriteBlock changes index)))
  | _ => shownAs message (changes.lookup (.message index))

def dedupChanges (messages : List Value) : Option (List (Location × Text)) := do
  let targets ← (messages.zipIdx.mapM (messageTargets call messages)).map List.flatten
  let emitted := CrossTurnDedup.dedupBlocks call.tables 3 40 (targets.map Prod.snd)
  if targets.length < 2 then some []
  else
    some ((targets.zip emitted).filterMap fun ((location, block), emitted) =>
      if block.isProtected || emitted.text == block.text then none
      else some (location, emitted.text))

/-- `_cross_turn_dedup_messages`; all messages as they are if anything raises. -/
def crossTurnDedupMessages (messages : List Value) : List Value :=
  match dedupChanges call messages with
  | some changes => messages.mapIdx (rewriteMessage changes)
  | none => messages

/-- `apply` -/
def apply (messages : List Value) (state : RouterState K S) :
    Option (List Value × RouterState K S) := do
  let (routed, state) ← routeMessages call messages state
  some (if call.options.crossTurnDedup then crossTurnDedupMessages call routed else routed, state)

end

end Legroom.RouterApply
