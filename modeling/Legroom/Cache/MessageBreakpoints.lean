import Mathlib.Algebra.BigOperators.Group.List.Basic
import Legroom.Lib.Python.Access

/-!
# Breakpoints of messages

The markers of the cached prefix are on blocks of messages.  One is put on the last block, or
before the Reads that are held back.  A marker below the level of the blocks is not seen.
-/

namespace Legroom.Cache.Breakpoints

open Python

/-! ## Markers -/

def cacheControl : Text := text "cache_control"

def hasMarker (block : Value) : Bool := (block.get cacheControl).isSome

/-- `{k: v for k, v in block.items() if k != "cache_control"}`, for a dictionary -/
def withoutMarker : Value → Value
  | .dict entries => .dict (entries.filter fun entry => entry.1 ≠ cacheControl)
  | block => block

/-- `{**block, "cache_control": {"type": "ephemeral"}}` -/
def marked (block : Value) : Value :=
  block.put cacheControl (.dict [(text "type", .str (text "ephemeral"))])

/-- The content of a message that is a list. -/
def blockList (message : Value) : Option (List Value) :=
  (message.get (text "content")).bind Value.asList

def hadMarker (message : Value) : Bool := ((blockList message).getD []).any hasMarker

def stripMessage (message : Value) : Value :=
  if hadMarker message then
    message.put (text "content") (.list (((blockList message).getD []).map withoutMarker))
  else message

/-- The last block is a dictionary. -/
def endsInDict (message : Value) : Bool :=
  ((blockList message).bind List.getLast?).any Value.isDict

/-- The last block gets the marker. -/
def markLast (message : Value) : Value :=
  match blockList message with
  | some blocks =>
      message.put (text "content") (.list (blocks.modify (blocks.length - 1) marked))
  | none => message

/-- The latest message that ends in a dictionary gets the marker. -/
def placeBreakpoint : List Value → List Value
  | [] => []
  | message :: messages =>
      if messages.any endsInDict then message :: placeBreakpoint messages
      else if endsInDict message then markLast message :: messages
      else message :: messages

/-- `normalize_message_cache_control` -/
def normalizeMessageCacheControl (messages : List Value) : List Value :=
  let stripped := messages.map stripMessage
  if stripped.any endsInDict then placeBreakpoint stripped
  else if messages.any hadMarker then stripped
  else messages

/-- The messages before the held ones, from the latest on.  Only dictionaries have `get`. -/
def reanchor : List Value → Option (List Value)
  | [] => some []
  | message :: messages =>
      if messages.any endsInDict then (reanchor messages).map (message :: ·)
      else if message.isDict && messages.all Value.isDict then
        some ((if endsInDict message then markLast message else message) :: messages)
      else none

/-- `relocate_cache_breakpoint`, unless it raises -/
def relocateCacheBreakpoint (messages : List Value) (holdingMsgIndices : List ℕ) :
    Option (List Value) :=
  match holdingMsgIndices.min? with
  | none => some messages
  | some earliest =>
      let leading := messages.take earliest
      let held := messages.drop earliest
      if !held.all Value.isDict then none
      else if !held.any hadMarker then some (leading ++ held.map stripMessage)
      else (reanchor leading).map (· ++ held.map stripMessage)

/-! ## Counts -/

mutual

/-- The number of keys `cache_control`, at any depth. -/
def markers : Value → ℕ
  | .list items => markersItems items
  | .dict entries => markersEntries entries
  | _ => 0

def markersItems : List Value → ℕ
  | [] => 0
  | item :: items => markers item + markersItems items

def markersEntries : List (Text × Value) → ℕ
  | [] => 0
  | (key, value) :: entries =>
      (if key = cacheControl then 1 else 0) + markers value + markersEntries entries

end

mutual

/-- `_strip_cache_control` -/
def stripCacheControl : Value → Value
  | .list items => .list (stripItems items)
  | .dict entries => .dict (stripEntries entries)
  | value => value

def stripItems : List Value → List Value
  | [] => []
  | item :: items => stripCacheControl item :: stripItems items

def stripEntries : List (Text × Value) → List (Text × Value)
  | [] => []
  | (key, value) :: entries =>
      if key = cacheControl then stripEntries entries
      else (key, stripCacheControl value) :: stripEntries entries

end

/-- The keys below the level of the blocks. -/
def hiddenInContent : Value → ℕ
  | .list blocks => (blocks.map fun block => markers (withoutMarker block)).sum
  | content => markers content

def hiddenEntries : List (Text × Value) → ℕ
  | [] => 0
  | (key, value) :: entries =>
      if key = text "content" then hiddenInContent value + markersEntries entries
      else (if key = cacheControl then 1 else 0) + markers value + hiddenEntries entries

/-- The keys of a message that are not on a block of its content. -/
def hidden : Value → ℕ
  | .dict entries => hiddenEntries entries
  | message => markers message

def totalMarkers (messages : List Value) : ℕ := (messages.map markers).sum

def totalHidden (messages : List Value) : ℕ := (messages.map hidden).sum

/-- Messages that differ in keys `cache_control` only. -/
def SameButMarkers (left right : List Value) : Prop :=
  left.map stripCacheControl = right.map stripCacheControl

/-- What is expected of the two functions.  They build new lists and dictionaries, so their
arguments stay as they are. -/
structure OwnsBreakpoints (messages : List Value) (holdingMsgIndices : List ℕ) : Prop where
  normalizeFrame : SameButMarkers messages (normalizeMessageCacheControl messages)
  atMostOne : totalMarkers (normalizeMessageCacheControl messages) ≤ 1
  idempotent : normalizeMessageCacheControl (normalizeMessageCacheControl messages) =
    normalizeMessageCacheControl messages
  relocated : ∃ behind, relocateCacheBreakpoint messages holdingMsgIndices = some behind ∧
    SameButMarkers messages behind ∧
    (∀ earliest ∈ holdingMsgIndices.min?, totalMarkers (behind.drop earliest) = 0) ∧
    totalMarkers behind ≤ totalMarkers messages

end Legroom.Cache.Breakpoints
