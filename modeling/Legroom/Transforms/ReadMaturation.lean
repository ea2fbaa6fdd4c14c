import Legroom.Lib.Python.Access
import Legroom.Lib.Python.Dict
import Mathlib.Data.List.Infix

/-!
# Read maturation

A fresh result of a Read stays as it is while its file is in use.  Once the file is
quiet, the result is replaced with a marker, and the marker is applied to every later
request of the session.  The hash under which a content is recorded is a parameter.
-/

namespace Legroom.Transforms

open Python

namespace ReadMaturation

structure ReadMaturationConfig where
  enabled : Bool
  quiesceTurns : ℤ
  maxHoldTurns : ℤ
  minSizeBytes : ℤ

def readTools : List Text := [text "Read", text "read"]

def touchTools : List Text :=
  [text "Read", text "read", text "Edit", text "edit", text "Write", text "write",
    text "MultiEdit", text "NotebookEdit"]

structure MaturedRead where
  marker : Text
  ccrHash : Text

/-- The tool activity of a conversation, in assistant turns. -/
structure Activity where
  /-- The file and the turn of a Read call. -/
  readCalls : Dict Text (Text × ℕ)
  fileLastTouch : Dict Text ℕ
  assistantCount : ℕ

namespace Activity

def empty : Activity := ⟨.empty, .empty, 0⟩

/-- A call of one of the tools that touch a file. -/
def touch (activity : Activity) (isRead : Bool) (filePath : Text) (id : Value) :
    Option Activity := do
  let turn := activity.assistantCount
  let activity :=
    if filePath.isEmpty then activity
    else { activity with fileLastTouch := activity.fileLastTouch.set filePath turn }
  if isRead then
    let id ← id.asText
    some { activity with readCalls := activity.readCalls.set id (filePath, turn) }
  else some activity

/-- `args.get("file_path") or args.get("path") or ""` -/
def filePathOf (args : Value) : Option Text := do
  let filePath ← args.getOr (text "file_path") .none
  let path ← args.getOr (text "path") .none
  ((filePath.orElse path).orElse (.str [])).asText

/-- `args` of a call in the format of OpenAI. -/
def argumentsOf (format : FloatFormat) (function : Value) : Option Value := do
  let arguments ← function.getOr (text "arguments") (.str (text "\x7b\x7d"))
  match arguments with
  | .str arguments => some ((loads format arguments).getD (.dict []))
  | _ => some (.dict [])

def scanToolCall (format : FloatFormat) (activity : Activity) (call : Value) :
    Option Activity :=
  if !call.isDict then some activity
  else do
    let function ← call.getOr (text "function") (.dict [])
    let name ← function.getOr (text "name") (.str [])
    if ← name.isIn touchTools.contains then
      let filePath ← filePathOf (← argumentsOf format function)
      activity.touch (← name.isIn readTools.contains) filePath (← call.getOr (text "id") (.str []))
    else some activity

def scanBlock (activity : Activity) (block : Value) : Option Activity :=
  if (block.get (text "type")).any fun type => type.isText (text "tool_use") then do
    let name ← block.getOr (text "name") (.str [])
    if ← name.isIn touchTools.contains then
      let input := (← block.getOr (text "input") .none).orElse (.dict [])
      activity.touch (← name.isIn readTools.contains) (← filePathOf input)
        (← block.getOr (text "id") (.str []))
    else some activity
  else some activity

def scanMessage (format : FloatFormat) (activity : Activity) (message : Value) :
    Option Activity := do
  let role ← message.getOr (text "role") .none
  if role.isText (text "assistant") then
    let activity := { activity with assistantCount := activity.assistantCount + 1 }
    let calls := (← message.getOr (text "tool_calls") (.list [])).orElse (.list [])
    let activity ← (← calls.iterate).foldlM (scanToolCall format) activity
    match ← message.getOr (text "content") .none with
    | .list blocks => blocks.foldlM scanBlock activity
    | _ => some activity
  else some activity

end Activity

def scanActivity (format : FloatFormat) (messages : List Value) : Option Activity :=
  messages.foldlM (Activity.scanMessage format) .empty

/-- The counts of a `MaturationResult`. -/
structure MaturationCounts where
  holdingReads : ℕ
  newlyMatured : ℕ
  replacementsApplied : ℕ
  bytesSaved : ℕ

def MaturationCounts.zero : MaturationCounts := ⟨0, 0, 0, 0⟩

/-- What a pass over the messages changes. -/
structure PassState where
  matured : Dict Text MaturedRead
  counts : MaturationCounts

/-- The bytes of a character; an unpaired surrogate is replaced with a question mark. -/
def charBytes (char : CodePoint) : ℕ :=
  if char < 0x80 then 1
  else if char < 0x800 then 2
  else if 0xD800 ≤ char ∧ char ≤ 0xDFFF then 1
  else if char < 0x10000 then 3
  else 4

def sizeOf (content : Text) : ℕ := (content.map charBytes).sum

/-- A content that another transform has replaced already. -/
def isLifecycleMarker (content : Text) : Bool :=
  decide (text "Retrieve original: hash=" <:+: content) ||
    decide (text "Retrieve more: hash=" <:+: content)

def markerOf (filePath ccrHash : Text) : Text :=
  text "[Read of " ++ (if filePath.isEmpty then text "unknown" else filePath) ++
    text " compressed after use — re-read the file if needed. Retrieve original: hash=" ++
    ccrHash ++ text "]"

section

-- The hash that the store gives for the content of a call, or else the hash of the content.
variable (config : ReadMaturationConfig) (ccrHash : Text → Text → Text) (activity : Activity)

/-- The replacement, if any, and whether the Read is still held. -/
def handleRead (state : PassState) (id content : Text) (call : Text × ℕ) :
    PassState × Option Text × Bool :=
  match state.matured.get? id with
  | some matured =>
      if content = matured.marker then (state, none, false)
      else
        ({ state with
            counts := { state.counts with
              replacementsApplied := state.counts.replacementsApplied + 1
              bytesSaved := state.counts.bytesSaved + (content.length - matured.marker.length) } },
          some matured.marker, false)
  | none =>
      let lastTouch := (activity.fileLastTouch.get? call.1).getD call.2
      let quietTurns : ℤ := activity.assistantCount - lastTouch
      let heldTurns : ℤ := activity.assistantCount - call.2
      if sizeOf content < config.minSizeBytes then (state, none, false)
      else if isLifecycleMarker content then (state, none, false)
      else if quietTurns < config.quiesceTurns ∧ heldTurns < config.maxHoldTurns then
        ({ state with
            counts := { state.counts with holdingReads := state.counts.holdingReads + 1 } },
          none, true)
      else
        let ccrHash := ccrHash id content
        let marker := markerOf call.1 ccrHash
        (⟨state.matured.set id ⟨marker, ccrHash⟩,
            { state.counts with
              newlyMatured := state.counts.newlyMatured + 1
              replacementsApplied := state.counts.replacementsApplied + 1
              bytesSaved := state.counts.bytesSaved + (content.length - marker.length) }⟩,
          some marker, false)

/-- The call of a result, if it is a Read and the content is a text. -/
def readOf (id content : Value) : Option (Option (Text × Text × Text × ℕ)) := do
  let isRead ← id.isIn fun id => (activity.readCalls.get? id).isSome
  if isRead then
    match id, content with
    | .str id, .str content =>
        some ((activity.readCalls.get? id).map fun call => (id, content, call))
    | _, _ => some none
  else some none

/-- A block of a message: the block behind the pass, and whether its Read is held. -/
def processBlock (state : PassState) (block : Value) : Option (PassState × Value × Bool) :=
  if (block.get (text "type")).any fun type => type.isText (text "tool_result") then do
    let id ← block.getOr (text "tool_use_id") (.str [])
    let content ← block.getOr (text "content") .none
    match ← readOf activity id content with
    | none => some (state, block, false)
    | some (_, content, call) =>
        -- `b["tool_use_id"]`
        let id ← (← block.get (text "tool_use_id")).asText
        let handled := handleRead config ccrHash activity state id content call
        match handled.2.1 with
        | some replacement =>
            some (handled.1, block.put (text "content") (.str replacement), handled.2.2)
        | none => some (handled.1, block, handled.2.2)
  else some (state, block, false)

/-- The blocks of a message, unless one of them raises. -/
def processBlocks (state : PassState) :
    List Value → PassState × Option (List Value × Bool)
  | [] => (state, some ([], false))
  | block :: blocks =>
      match processBlock config ccrHash activity state block with
      | none => (state, none)
      | some (state, block, holding) =>
          let processed := processBlocks state blocks
          (processed.1, processed.2.map fun rest => (block :: rest.1, holding || rest.2))

/-- A message: the message behind the pass, and whether a Read in it is held. -/
def processMessage (state : PassState) (message : Value) :
    PassState × Option (Value × Bool) :=
  match message.getOr (text "role") (.str []), message.getOr (text "content") (.str []) with
  | some role, some content =>
      if role.isText (text "tool") then
        match (message.getOr (text "tool_call_id") (.str [])).bind fun id =>
            readOf activity id content with
        | none => (state, none)
        | some none => (state, some (message, false))
        | some (some (id, content, call)) =>
            let handled := handleRead config ccrHash activity state id content call
            match handled.2.1 with
            | some replacement =>
                (handled.1, some (message.put (text "content") (.str replacement), handled.2.2))
            | none => (handled.1, some (message, handled.2.2))
      else
        match content with
        | .list blocks =>
            let processed := processBlocks config ccrHash activity state blocks
            (processed.1, processed.2.map fun result =>
              (message.put (text "content") (.list result.1), result.2))
        | _ => (state, some (message, false))
  | _, _ => (state, none)

/-- The loop of `apply`: the messages from an index on, and the indices of those that hold. -/
def processMessages (frozenMessageCount : ℕ) :
    ℕ → PassState → List Value → PassState × Option (List Value × List ℕ)
  | _, state, [] => (state, some ([], []))
  | index, state, message :: messages =>
      if index < frozenMessageCount then
        let rest := processMessages frozenMessageCount (index + 1) state messages
        (rest.1, rest.2.map fun result => (message :: result.1, result.2))
      else
        match processMessage config ccrHash activity state message with
        | (state, none) => (state, none)
        | (state, some (message, holding)) =>
            let rest := processMessages frozenMessageCount (index + 1) state messages
            (rest.1, rest.2.map fun result =>
              (message :: result.1, (if holding then [index] else []) ++ result.2))

end

structure MaturationResult where
  messages : List Value
  holdingMsgIndices : List ℕ
  counts : MaturationCounts

/-- The session state of a manager behind a request, and the result unless the request raises. -/
def apply (format : FloatFormat) (config : ReadMaturationConfig) (ccrHash : Text → Text → Text)
    (matured : Dict Text MaturedRead) (messages : List Value) (frozenMessageCount : ℕ) :
    Dict Text MaturedRead × Option MaturationResult :=
  if !config.enabled then (matured, some ⟨messages, [], .zero⟩)
  else
    match scanActivity format messages with
    | none => (matured, none)
    | some activity =>
        let processed := processMessages config ccrHash activity frozenMessageCount 0
          ⟨matured, .zero⟩ messages
        (processed.1.matured, processed.2.map fun result =>
          ⟨result.1, result.2, processed.1.counts⟩)

end ReadMaturation

end Legroom.Transforms
