import Legroom.Lib.Json.Put

/-!
# Placing a cache marker

A body without any `cache_control` marker gets one on its last tool.  A marker that
is there already, on a block or on a tool, is the customer's choice and stands.
-/

namespace Legroom.CacheStabilization

open Json Utf8

inductive SkipReason where
  | authMode
  | markerPresent
  deriving DecidableEq

inductive AutoPlaceOutcome where
  | applied (placedCount : ℕ) (locations : List String)
  | skipped (reason : SkipReason)
  deriving DecidableEq

def blockHasCacheControl (block : Value) : Bool := (block.get (constant "cache_control")).isSome

/-- The elements of an array field; there are none if the field is anything else. -/
def elementsAt (value : Value) (name : String) : List Value :=
  ((value.get (constant name)).bind Value.asArray).getD []

def anyAnthropicCacheControl (body : Value) : Bool :=
  (elementsAt body "system").any blockHasCacheControl ||
    (elementsAt body "messages").any
      (fun message => (elementsAt message "content").any blockHasCacheControl) ||
    (elementsAt body "tools").any blockHasCacheControl

def ephemeral : Value := .object [(constant "type", .string (constant "ephemeral"))]

def insertCacheControlOnObject : Value → Option Value
  | .object fields => some ((Value.object fields).put (constant "cache_control") ephemeral)
  | _ => none

/-- The last tool gets the marker, if it is an object. -/
def autoPlaceAnthropicCacheControl (body : Value) : Value × AutoPlaceOutcome :=
  if anyAnthropicCacheControl body then (body, .skipped .markerPresent)
  else
    let tools := elementsAt body "tools"
    match tools.getLast?.bind insertCacheControlOnObject with
    | none => (body, .applied 0 [])
    | some marked =>
        (body.put (constant "tools") (.array (tools.dropLast ++ [marked])),
          .applied 1 ["tools[" ++ toString (tools.length - 1) ++ "]"])

/-! ## What is placed -/

theorem insertCacheControl_eq {tool marked : Value}
    (hmarked : insertCacheControlOnObject tool = some marked) :
    marked = tool.put (constant "cache_control") ephemeral ∧
      (marked.get (constant "cache_control")).isSome = true := by
  cases tool with
  | object fields =>
      cases hmarked
      refine ⟨rfl, ?_⟩
      rw [Value.put, Value.get, Value.find?_insertField, if_pos rfl]
      rfl
  | _ => cases hmarked

theorem anyAnthropicCacheControl_of_tools {body : Value}
    (htools : (elementsAt body "tools").any blockHasCacheControl = true) :
    anyAnthropicCacheControl body = true := by
  rw [anyAnthropicCacheControl, htools, Bool.or_true]

/-- The body stays as it is, or no tool bears a marker and the last one gets it. -/
theorem autoPlace_cases (body : Value) :
    autoPlaceAnthropicCacheControl body = (body, .skipped .markerPresent) ∨
      autoPlaceAnthropicCacheControl body = (body, .applied 0 []) ∨
      ∃ front last marked, elementsAt body "tools" = front ++ [last] ∧
        insertCacheControlOnObject last = some marked ∧
        anyAnthropicCacheControl body = false ∧
        autoPlaceAnthropicCacheControl body =
          (body.put (constant "tools") (.array (front ++ [marked])),
            .applied 1 ["tools[" ++ toString front.length ++ "]"]) := by
  rw [autoPlaceAnthropicCacheControl]
  cases hany : anyAnthropicCacheControl body with
  | true => exact .inl rfl
  | false =>
      cases hlast : (elementsAt body "tools").getLast?.bind insertCacheControlOnObject with
      | none => exact .inr (.inl (by simp [hlast]))
      | some marked =>
          obtain ⟨last, hget, hmarked⟩ := Option.bind_eq_some_iff.mp hlast
          have htools : elementsAt body "tools" = (elementsAt body "tools").dropLast ++ [last] :=
            (List.dropLast_append_getLast? last hget).symm
          refine .inr (.inr ⟨_, last, marked, htools, hmarked, rfl, ?_⟩)
          simp [hlast]

/-- Where a tool bears a marker nothing is placed. -/
theorem autoPlace_of_tools {body : Value}
    (htools : (elementsAt body "tools").any blockHasCacheControl = true) :
    autoPlaceAnthropicCacheControl body = (body, .skipped .markerPresent) := by
  rw [autoPlaceAnthropicCacheControl, if_pos (anyAnthropicCacheControl_of_tools htools)]

end Legroom.CacheStabilization
