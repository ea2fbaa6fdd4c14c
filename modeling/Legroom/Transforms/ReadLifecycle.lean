import Legroom.Lib.Python.Access
import Legroom.Lib.Python.Dict
import Legroom.Lib.Python.Utf8

/-!
# Read lifecycle

The result of a Read is stale once its file is edited, and superseded once the file is read
again over the same lines.  Such a result is replaced with a marker that has the hash of the
content.  The store and the digest are parameters, and so is what Python makes of offsets
and limits that are no integers.
-/

namespace Legroom.Transforms

open Python

namespace ReadLifecycle

structure ReadLifecycleConfig where
  enabled : Bool
  compressStale : Bool
  compressSuperseded : Bool
  minSizeBytes : ℤ

def ReadLifecycleConfig.default : ReadLifecycleConfig := ⟨true, true, false, 512⟩

inductive ReadState where
  | fresh
  | stale
  | superseded
deriving DecidableEq

def ReadState.value : ReadState → Text
  | .fresh => text "fresh"
  | .stale => text "stale"
  | .superseded => text "superseded"

/-- A key of a dictionary.  Equal numbers are the same key. -/
inductive Key where
  | none
  | number (number : Number)
  | str (text : Text)
deriving DecidableEq

/-- Lists and dictionaries are no keys. -/
def keyOf : Value → Option Key
  | .none => some .none
  | .number number => some (.number number.exact)
  | .str text => some (.str text)
  | .list _ => Option.none
  | .dict _ => Option.none

structure FileOperation where
  msgIndex : ℕ
  toolCallId : Key
  filePath : Value
  isRead : Bool
  readOffset : Value
  readLimit : Value

structure ReadClassification where
  msgIndex : ℕ
  toolCallId : Key
  filePath : Value
  state : ReadState

/-! ## Calls -/

/-- What is known of a call. -/
structure ToolMetadata where
  name : Value
  filePath : Value
  offset : Value
  limit : Value

def readToolNames : List Text := [text "Read", text "read"]

def mutatingToolNames : List Text := [text "Edit", text "edit", text "Write", text "write"]

/-- `file_path`, `offset` and `limit` of the arguments of a call. -/
def argumentsMetadata (name arguments : Value) : Option ToolMetadata := do
  let filePath ← arguments.getOr (text "file_path") .none
  let path ← arguments.getOr (text "path") .none
  let offset ← arguments.getOr (text "offset") .none
  let limit ← arguments.getOr (text "limit") .none
  some ⟨name, filePath.orElse path, offset, limit⟩

/-- What is known of a call whose arguments are not known. -/
def ToolMetadata.bare (name : Value) : ToolMetadata := ⟨name, .none, .none, .none⟩

/-- Arguments that cannot be decoded are left out. -/
def functionMetadata (format : FloatFormat) (name function : Value) : Option ToolMetadata :=
  match (function.get (text "arguments")).getD (.str (text "\x7b\x7d")) with
  | .str arguments =>
      match loadJson format arguments with
      | .ok arguments => argumentsMetadata name arguments
      | .error .decode => some (.bare name)
      | .error .tooManyDigits => none
  | _ => some (.bare name)

def inputMetadata (name input : Value) : Option ToolMetadata :=
  if input.isDict then argumentsMetadata name input else some (.bare name)

/-- `metadata[tc_id] = ...` -/
def metadataEntry (id : Value) (metadata : ToolMetadata) : Option (Option (Key × ToolMetadata)) :=
  (keyOf id).map fun key => some (key, metadata)

/-- A call in the format of OpenAI. -/
def callMetadata (format : FloatFormat) (call : Value) : Option (Option (Key × ToolMetadata)) :=
  if !call.isDict then some none
  else do
    let id ← call.getOr (text "id") (.str [])
    let function ← call.getOr (text "function") (.dict [])
    let name ← function.getOr (text "name") (.str [])
    if !id.truthy || !name.truthy then some none
    else metadataEntry id (← functionMetadata format name function)

def isToolUse (block : Value) : Bool :=
  (block.get (text "type")).any fun type => type.isText (text "tool_use")

/-- A block of the type `tool_use`. -/
def blockMetadata (block : Value) : Option (Option (Key × ToolMetadata)) :=
  if !isToolUse block then some none
  else do
    let id ← block.getOr (text "id") (.str [])
    let name ← block.getOr (text "name") (.str [])
    if !id.truthy || !name.truthy then some none
    else
      let input ← block.getOr (text "input") (.dict [])
      metadataEntry id (← inputMetadata name input)

def isAssistant (message : Value) : Option Bool := do
  let role ← message.getOr (text "role") .none
  some (role.isText (text "assistant"))

def toolCallsOf (message : Value) : Option (List Value) := do
  let calls ← message.getOr (text "tool_calls") .none
  (calls.orElse (.list [])).iterate

/-- The blocks of a content that is a list. -/
def blocksOf (message : Value) : Option (List Value) := do
  let content ← message.getOr (text "content") (.list [])
  some (content.asList.getD [])

/-- The calls of a message. -/
def messageMetadata (format : FloatFormat) (message : Value) :
    Option (List (Key × ToolMetadata)) := do
  if ← isAssistant message then
    let calls ← (← toolCallsOf message).mapM (callMetadata format)
    let blocks ← (← blocksOf message).mapM blockMetadata
    some ((calls ++ blocks).filterMap id)
  else some []

/-- `_build_tool_metadata` -/
def buildToolMetadata (format : FloatFormat) (messages : List Value) :
    Option (Dict Key ToolMetadata) := do
  let calls ← messages.mapM (messageMetadata format)
  some (calls.flatten.foldl (fun metadata call => metadata.set call.1 call.2) .empty)

/-! ## Operations -/

def hasId (key : Key) (call : Value) : Bool := (call.get (text "id")).bind keyOf = some key

def mentionsCall (key : Key) (message : Value) : Option Bool := do
  if ← isAssistant message then
    let calls ← toolCallsOf message
    let blocks ← blocksOf message
    some (calls.any (hasId key) || blocks.any fun block => isToolUse block && hasId key block)
  else some false

/-- `_find_tool_call_msg_index`, from an index on -/
def findToolCallMsgIndex (key : Key) : ℕ → List Value → Option (Option ℕ)
  | _, [] => some none
  | index, message :: messages => do
      if ← mentionsCall key message then some (some index)
      else findToolCallMsgIndex key (index + 1) messages

/-- `file_ops[file_path].append` -/
def appendOperation (ops : Dict Key (List FileOperation)) (path : Key) (op : FileOperation) :
    Dict Key (List FileOperation) :=
  ops.set path ((ops.get? path).getD [] ++ [op])

/-- The operation of a call, with its file, if its tool is one of those that read or change
files. -/
def operationOf (messages : List Value) (call : Key × ToolMetadata) :
    Option (Option (Key × FileOperation)) :=
  let metadata := call.2
  if !metadata.filePath.truthy then some none
  else do
    let isRead ← metadata.name.isIn readToolNames.contains
    let isEdit ← metadata.name.isIn mutatingToolNames.contains
    if !isRead && !isEdit then some none
    else
      match ← findToolCallMsgIndex call.1 0 messages with
      | none => some none
      | some index =>
          (keyOf metadata.filePath).map fun path =>
            some (path, ⟨index, call.1, metadata.filePath, isRead,
              if isRead then metadata.offset else .none,
              if isRead then metadata.limit else .none⟩)

/-- `_build_file_operation_index` -/
def buildFileOperationIndex (messages : List Value) (metadata : Dict Key ToolMetadata) :
    Option (Dict Key (List FileOperation)) := do
  let found ← metadata.entries.mapM (operationOf messages)
  some ((found.filterMap id).foldl (fun ops entry => appendOperation ops entry.1 entry.2) .empty)

/-! ## Classification -/

def isNone : Value → Bool
  | .none => true
  | _ => false

def asInt : Value → Option ℤ
  | .number (.bool value) => some (if value then 1 else 0)
  | .number (.int value) => some value
  | _ => Option.none

/-- The first line and the line behind the last one. -/
def bounds (op : FileOperation) : Option (ℤ × ℤ) := do
  let start ← asInt (op.readOffset.orElse (.number (.int 0)))
  let limit ← asInt (op.readLimit.orElse (.number (.int 2000)))
  some (start, start + limit)

def FileOperation.isFull (op : FileOperation) : Bool := isNone op.readOffset && isNone op.readLimit

section

-- What the comparison gives for offsets and limits that are not integers, unless it raises.
variable (otherCovers : FileOperation → FileOperation → Option Bool)

/-- `_read_covers` -/
def readCovers (later earlier : FileOperation) : Option Bool :=
  if later.isFull then some true
  else if earlier.isFull then some false
  else
    match bounds later, bounds earlier with
    | some (laterStart, laterEnd), some (earlierStart, earlierEnd) =>
        some (laterStart ≤ earlierStart && earlierEnd ≤ laterEnd)
    | _, _ => otherCovers later earlier

variable (config : ReadLifecycleConfig)

/-- The state of a Read among the operations on its file. -/
def classifyRead (ops : List FileOperation) (read : FileOperation) : Option ReadState := do
  let isStale := config.compressStale &&
    (ops.filter fun op => !op.isRead).any fun edit => read.msgIndex < edit.msgIndex
  let isSuperseded ←
    if config.compressSuperseded then
      (ops.filter (·.isRead)).anyM fun later =>
        if read.msgIndex < later.msgIndex then readCovers otherCovers later read else some false
    else some false
  some (if isStale then .stale else if isSuperseded then .superseded else .fresh)

/-- The Reads of a file.  The key of a dictionary is the first of equal ones. -/
def classifyFile (ops : List FileOperation) : Option (List ReadClassification) :=
  (ops.filter (·.isRead)).mapM fun read => do
    let state ← classifyRead otherCovers config ops read
    some ⟨read.msgIndex, read.toolCallId, (ops.head?.map (·.filePath)).getD .none, state⟩

/-- `_classify_reads` -/
def classifyReads (fileOps : Dict Key (List FileOperation)) :
    Option (List ReadClassification) := do
  let files ← fileOps.entries.mapM fun file => classifyFile otherCovers config file.2
  some files.flatten

end

/-- Reads that were called in the frozen prefix are left alone. -/
def thaw (frozenMessageCount : ℤ) (classification : ReadClassification) : ReadClassification :=
  if classification.msgIndex < frozenMessageCount then { classification with state := .fresh }
  else classification

/-! ## Replacement -/

/-- `str.encode`, unless it raises. -/
def encodeText (content : Text) : Option Bytes :=
  if content.all fun char => !(0xD800 ≤ char && char ≤ 0xDFFF) then some (encode content) else none

/-- What an f-string writes for a key of a dictionary. -/
def formatValue (format : FloatFormat) : Value → Option Text
  | .none => some (text "None")
  | .number (.bool value) => some (if value then text "True" else text "False")
  | .number (.int value) => intText value
  | .number (.finite value) => some (format.repr value)
  | .number (.infinite negative) => some (if negative then text "-inf" else text "inf")
  | .number (.nan _) => some (text "nan")
  | .str text => some text
  | .list _ => Option.none
  | .dict _ => Option.none

/-- `read_lifecycle:<state>:<file_path>` -/
def transformText (format : FloatFormat) (classification : ReadClassification) : Option Text := do
  let path ← formatValue format (classification.filePath.orElse (.str []))
  some (text "read_lifecycle:" ++ classification.state.value ++ text ":" ++ path)

def markerText (fileDisplay ccrHash : Text) : ReadState → Text
  | .stale =>
      text "[Read content stale: " ++ fileDisplay ++
        text " was modified after this read — re-read the file for current content. " ++
        text "Retrieve original: hash=" ++ ccrHash ++ text "]"
  | _ =>
      text "[Read content superseded: " ++ fileDisplay ++
        text " was re-read later — re-read the file if needed. " ++
        text "Retrieve original: hash=" ++ ccrHash ++ text "]"

/-- The arguments of a call of the store. -/
structure StoreCall where
  original : Text
  toolCallId : Key
  compressionStrategy : Text
  explicitHash : Text
deriving DecidableEq

/-- What is changed while the messages are processed. -/
structure LifecycleState (Store : Type) where
  store : Store
  transforms : List Text
  ccrHashes : List Text
  bytesBefore : ℕ
  bytesAfter : ℕ

section

variable {Store : Type} (config : ReadLifecycleConfig) (format : FloatFormat)
  -- The first digits of the SHA-256 of a text.
  (digest : Bytes → Text)
  -- A call of the store, if there is one.  No answer means that it raises.
  (storeCall : Option (Store → StoreCall → Store × Option Text))
  (replacements : Dict Key ReadClassification)

/-- The hash in the marker of a content. -/
def recordContent (store : Store) (content : Text) (bytes : Bytes)
    (classification : ReadClassification) : Store × Text :=
  match storeCall with
  | none => (store, digest bytes)
  | some call =>
      let answer := call store ⟨content, classification.toolCallId,
        text "read_lifecycle:" ++ classification.state.value, digest bytes⟩
      (answer.1, answer.2.getD (digest bytes))

/-- The marker and its hash, if the content is replaced. -/
def replaceContent (store : Store) (content : Text) (classification : ReadClassification) :
    Option (Store × Option (Text × Text)) := do
  let bytes ← encodeText content
  if bytes.length < config.minSizeBytes then some (store, none)
  else
    let recorded := recordContent digest storeCall store content bytes classification
    let fileDisplay ← formatValue format (classification.filePath.orElse (.str (text "unknown")))
    some (recorded.1,
      some (markerText fileDisplay recorded.2 classification.state, recorded.2))

/-- The transform and the hash of a replacement are recorded. -/
def LifecycleState.push (state : LifecycleState Store) (store : Store) (transform ccrHash : Text) :
    LifecycleState Store :=
  { state with
    store := store
    transforms := state.transforms ++ [transform]
    ccrHashes := state.ccrHashes ++ if ccrHash.isEmpty then [] else [ccrHash] }

/-- `replacements.get` -/
def replacementOf (id : Value) : Option (Option ReadClassification) := do
  let key ← keyOf id
  some (replacements.get? key)

/-- A block behind the pass, if it changes. -/
def processBlock (state : LifecycleState Store) (block : Value) :
    Option (LifecycleState Store × Option Value) :=
  if !(block.get (text "type")).any fun type => type.isText (text "tool_result") then
    some (state, none)
  else do
    let id ← block.getOr (text "tool_use_id") (.str [])
    let content ← block.getOr (text "content") (.str [])
    match ← replacementOf replacements id, content with
    | some classification, .str content =>
        match ← replaceContent config format digest storeCall state.store content
            classification with
        | (store, some (marker, ccrHash)) =>
            let transform ← transformText format classification
            some (state.push store transform ccrHash,
              some (block.put (text "content") (.str marker)))
        | (_, none) => some (state, none)
    | _, _ => some (state, none)

/-- `_process_anthropic_blocks`: the blocks, and whether one of them was replaced. -/
def processBlocks : LifecycleState Store → List Value →
    Option (LifecycleState Store × List Value × Bool)
  | state, [] => some (state, [], false)
  | state, block :: blocks => do
      let (state, replaced) ← processBlock config format digest storeCall replacements state block
      let (state, rest, anyReplaced) ← processBlocks state blocks
      some (state, replaced.getD block :: rest, replaced.isSome || anyReplaced)

/-- A message of the role `tool` behind the pass, if it changes. -/
def processToolMessage (state : LifecycleState Store) (message content : Value) :
    Option (LifecycleState Store × Option Value) := do
  let id ← message.getOr (text "tool_call_id") (.str [])
  match ← replacementOf replacements id, content with
  | some classification, .str content =>
      match ← replaceContent config format digest storeCall state.store content
          classification with
      | (store, some (marker, ccrHash)) =>
          let transform ← transformText format classification
          let before ← encodeText content
          let behind ← encodeText marker
          let pushed := state.push store transform ccrHash
          some ({ pushed with
              bytesBefore := pushed.bytesBefore + before.length
              bytesAfter := pushed.bytesAfter + behind.length },
            some (message.put (text "content") (.str marker)))
      | (_, none) => some (state, none)
  | _, _ => some (state, none)

def processMessage (state : LifecycleState Store) (message : Value) :
    Option (LifecycleState Store × Value) := do
  let role ← message.getOr (text "role") (.str [])
  let content ← message.getOr (text "content") (.str [])
  let (state, replaced) ←
    if role.isText (text "tool") then
      processToolMessage config format digest storeCall replacements state message content
    else some (state, none)
  match replaced, content with
  | some message, _ => some (state, message)
  | none, .list blocks =>
      let (state, blocks, anyReplaced) ←
        processBlocks config format digest storeCall replacements state blocks
      some (state, if anyReplaced then message.put (text "content") (.list blocks) else message)
  | none, _ => some (state, message)

/-- The loop of `_apply_lifecycle`. -/
def processMessages : LifecycleState Store → List Value →
    Option (LifecycleState Store × List Value)
  | state, [] => some (state, [])
  | state, message :: messages => do
      let (state, message) ←
        processMessage config format digest storeCall replacements state message
      let (state, rest) ← processMessages state messages
      some (state, message :: rest)

end

structure ReadLifecycleResult where
  messages : List Value
  readsTotal : ℕ
  readsStale : ℕ
  readsSuperseded : ℕ
  readsFresh : ℕ
  bytesBefore : ℕ
  bytesAfter : ℕ
  transformsApplied : List Text
  ccrHashes : List Text

/-- Nothing is replaced. -/
def ReadLifecycleResult.unchanged (messages : List Value) (reads : ℕ) : ReadLifecycleResult :=
  ⟨messages, reads, 0, 0, reads, 0, 0, [], []⟩

def replacementsOf (classifications : List ReadClassification) : Dict Key ReadClassification :=
  (classifications.filter fun classification => classification.state ≠ .fresh).foldl
    (fun replacements classification =>
      replacements.set classification.toolCallId classification) .empty

def countState (state : ReadState) (classifications : List ReadClassification) : ℕ :=
  classifications.countP fun classification => classification.state = state

section

variable {Store : Type} (otherCovers : FileOperation → FileOperation → Option Bool)
  (format : FloatFormat) (digest : Bytes → Text)
  (storeCall : Option (Store → StoreCall → Store × Option Text)) (config : ReadLifecycleConfig)

/-- `_apply_lifecycle`, with the store behind it -/
def applyLifecycle (store : Store) (messages : List Value)
    (classifications : List ReadClassification) : Option (Store × ReadLifecycleResult) :=
  let replacements := replacementsOf classifications
  if replacements.entries.isEmpty then
    some (store, .unchanged messages classifications.length)
  else do
    let (state, processed) ← processMessages config format digest storeCall replacements
      ⟨store, [], [], 0, 0⟩ messages
    some (state.store, ⟨processed, classifications.length, countState .stale classifications,
      countState .superseded classifications, countState .fresh classifications,
      state.bytesBefore, state.bytesAfter, state.transforms, state.ccrHashes⟩)

/-- The Reads of a conversation, with those of the frozen prefix left alone. -/
def classified (messages : List Value) (frozenMessageCount : ℤ) :
    Option (List ReadClassification) := do
  let metadata ← buildToolMetadata format messages
  let fileOps ← buildFileOperationIndex messages metadata
  let classifications ← classifyReads otherCovers config fileOps
  some (classifications.map (thaw frozenMessageCount))

/-- The store and the result behind a request, unless it raises. -/
def apply (store : Store) (messages : List Value) (frozenMessageCount : ℤ) :
    Option (Store × ReadLifecycleResult) :=
  if !config.enabled then some (store, .unchanged messages 0)
  else do
    let classifications ← classified otherCovers format config messages frozenMessageCount
    if classifications.isEmpty then some (store, .unchanged messages 0)
    else applyLifecycle format digest storeCall config store messages classifications

end

end ReadLifecycle

end Legroom.Transforms
