import Legroom.Streams.Anthropic
import Legroom.Streams.OpenAiChat
import Legroom.Streams.OpenAiResponses

/-!
# The telemetry of a stream

A task reads along with the client.  It frames every chunk as it comes and applies
the events; an event that is refused and a block that is not an event change nothing.
-/

namespace Legroom.Streams

open Sse

variable {State : Type} (apply : State → SseEvent → Except StateError State)

/-- The framer and the state behind some chunks. -/
def runStateMachine : SseFramer → State → List Bytes → SseFramer × State
  | framer, state, [] => (framer, state)
  | framer, state, chunk :: chunks =>
      let drained := (framer.push chunk).drain
      runStateMachine drained.2 (applyAll apply state (drained.1.filterMap Except.toOption)) chunks

inductive SseStreamKind where
  | anthropic
  | openAiChat
  | openAiResponses

inductive StreamState where
  | anthropic (state : Anthropic.AnthropicStreamState)
  | openAiChat (state : OpenAiChat.ChunkState)
  | openAiResponses (state : OpenAiResponses.ResponseState)

def runSseStateMachine (kind : SseStreamKind) (chunks : List Bytes) : StreamState :=
  match kind with
  | .anthropic => .anthropic (runStateMachine Anthropic.AnthropicStreamState.apply .new .new
      chunks).2
  | .openAiChat => .openAiChat (runStateMachine OpenAiChat.ChunkState.apply .new .new chunks).2
  | .openAiResponses =>
      .openAiResponses (runStateMachine OpenAiResponses.ResponseState.apply .new .new chunks).2

/-- From a drained framer on, the events of all chunks are applied in their order. -/
theorem runStateMachine_eq (framer : SseFramer) (state : State) (chunks : List Bytes)
    (hdrained : frameDecoder.drain framer.buf = ([], framer.buf)) :
    (runStateMachine apply framer state chunks).2 =
      applyAll apply state ((frameDecoder.drain (framer.buf ++ chunks.flatten)).1.filterMap
        Except.toOption) := by
  induction chunks generalizing framer state with
  | nil => rw [List.flatten_nil, List.append_nil, hdrained]; rfl
  | cons chunk chunks ih =>
      have hclean (bytes : Bytes) : ∀ output ∈ (frameDecoder.drain bytes).1,
          frameDecoder.fatal output = false := fun _ _ => rfl
      have hagain := frameDecoder.drain_append (framer.buf ++ chunk) [] (hclean _)
      have hlater := frameDecoder.drain_append (framer.buf ++ chunk) chunks.flatten (hclean _)
      rw [List.append_nil, List.append_nil] at hagain
      rw [runStateMachine, SseFramer.drain_eq, List.flatten_cons, ← List.append_assoc, hlater,
        List.filterMap_append]
      dsimp only [SseFramer.push]
      rw [ih _ _ ?_]
      · exact (List.foldl_append ..).symm
      · obtain ⟨houtputs, hrest⟩ := Prod.ext_iff.mp hagain
        exact Prod.ext (List.self_eq_append_right.mp houtputs) hrest.symm

/-- What is known of a stream in the end does not depend on where it was cut. -/
theorem runSseStateMachine_flatten (kind : SseStreamKind) (chunks : List Bytes) :
    runSseStateMachine kind chunks = runSseStateMachine kind [chunks.flatten] := by
  have hdrained : frameDecoder.drain SseFramer.new.buf = ([], SseFramer.new.buf) :=
    frameDecoder.drain_of_none rfl
  cases kind <;> simp [runSseStateMachine, runStateMachine_eq, hdrained]

end Legroom.Streams
