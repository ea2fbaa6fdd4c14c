import Legroom.Lib.Json.Value
import Legroom.Lib.Routing
import Legroom.Sse.Framing

/-!
# Payloads of stream events

The stream machines read the data of an event as JSON.  They share the errors of
doing so; only the Anthropic and the Responses machine insist on fields.
-/

namespace Legroom.Streams

open Utf8 Json Sse

inductive StateError where
  | payloadNotUtf8 (error : Utf8Error)
  | payloadNotJson
  | missingField (field : String)
  deriving DecidableEq

def parseJson (data : Bytes) : Except StateError Value :=
  match fromUtf8 data with
  | .error error => .error (.payloadNotUtf8 error)
  | .ok _ =>
      match valueFromSlice data with
      | some value => .ok value
      | none => .error .payloadNotJson

/-- `ok_or(MissingField)`. -/
def orMissing {A : Type} (field : String) : Option A → Except StateError A
  | some found => .ok found
  | none => .error (.missingField field)

/-- The streaming task logs a refused event and goes on with the next one. -/
def applyAll {State : Type} (apply : State → SseEvent → Except StateError State)
    (state : State) (events : List SseEvent) : State :=
  events.foldl (fun state event => (apply state event).toOption.getD state) state

end Legroom.Streams
