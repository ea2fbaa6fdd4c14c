import Legroom.Lib.LastWrite
import Legroom.Streams.AnthropicBlocks
import Legroom.Streams.OpenAiResponsesItems

/-!
# Terminal statuses

The documentation of the statuses calls some of them terminal.  No handler looks at
the status before it writes it, so a terminal status lasts only until the next event
that writes one.
-/

namespace Legroom.Streams

open Utf8 Json Sse LastWrite

/-- What a terminal status promises about the run that follows it. -/
structure Absorbing {Status : Type} (statusAfter : List SseEvent → Status)
    (isTerminal isErrored isSucceeded : Status → Bool) (events : List SseEvent) : Prop where
  stays : ∀ front middle, front ++ middle <+: events → isTerminal (statusAfter front) →
    statusAfter (front ++ middle) = statusAfter front
  errored : ∀ front middle, front ++ middle <+: events → isErrored (statusAfter front) →
    ¬ isSucceeded (statusAfter (front ++ middle))

/-- Where statuses are overwritten only, a run is absorbing exactly when nothing else is
written over a terminal status. -/
theorem absorbing_iff {State Status : Type} (register : Register State SseEvent Status)
    {isTerminal isErrored isSucceeded : Status → Bool}
    (herrored : ∀ status, isErrored status → isTerminal status ∧ ¬ isSucceeded status)
    (start : State) (events : List SseEvent) :
    Absorbing (fun front => register.value (register.run start front))
        isTerminal isErrored isSucceeded events ↔
      (register.history start events).Pairwise fun earlier later =>
        isTerminal earlier → later = earlier := by
  rw [← register.keeps_iff (fun status => isTerminal status)]
  constructor
  · intro habsorbing
    exact habsorbing.stays
  · intro hkeeps
    constructor
    · exact hkeeps
    · intro front middle hpart hfailed
      obtain ⟨hterminal, hsucceeded⟩ := herrored _ hfailed
      rw [hkeeps front middle hpart hterminal]
      exact hsucceeded

/-! ## Anthropic -/

namespace Anthropic

/-- `MessageStop` and `Errored` are terminal. -/
def StreamStatus.isTerminal : StreamStatus → Bool
  | .opened => false
  | .messageStop => true
  | .errored => true

/-- The status that an event writes.  A `message_start` is refused unless it has a
message. -/
def statusWritten (event : SseEvent) : Option StreamStatus :=
  event.eventName.bind fun name =>
    if name = constant "message_start" then
      (parseJson event.data).toOption.bind fun value =>
        (value.get (constant "message")).map fun _ => .opened
    else if name = constant "message_stop" then some .messageStop
    else if name = constant "error" then some .errored
    else none

variable (state : AnthropicStreamState)
variable (event : SseEvent)

theorem status_onMessageStart :
    ((state.onMessageStart event).toOption.getD state).status =
      ((parseJson event.data).toOption.bind fun value =>
        (value.get (constant "message")).map fun _ => StreamStatus.opened).getD state.status := by
  rw [AnthropicStreamState.onMessageStart]
  cases parseJson event.data with
  | error error => rfl
  | ok value =>
      cases hmessage : value.get (constant "message") <;>
        simp [bind, Except.bind, Except.toOption, hmessage, orMissing, pure, Except.pure]

theorem status_onContentBlockStart :
    ((state.onContentBlockStart event).toOption.getD state).status = state.status := by
  rw [AnthropicStreamState.onContentBlockStart]
  cases parseJson event.data with
  | error error => rfl
  | ok value =>
      cases hindex : value.getU64 "index" <;>
        cases hblock : value.get (constant "content_block") <;>
        simp [bind, Except.bind, Except.toOption, hindex, hblock, orMissing, pure, Except.pure]

theorem status_onContentBlockDelta :
    ((state.onContentBlockDelta event).toOption.getD state).status = state.status := by
  rw [AnthropicStreamState.onContentBlockDelta]
  cases parseJson event.data with
  | error error => rfl
  | ok value =>
      cases hindex : value.getU64 "index" with
      | none => simp [bind, Except.bind, Except.toOption, hindex, orMissing]
      | some index =>
          cases hdelta : value.get (constant "delta") with
          | none => simp [bind, Except.bind, Except.toOption, hindex, hdelta, orMissing]
          | some delta =>
              cases htype : delta.getStr "type" <;>
                simp [bind, Except.bind, Except.toOption, hindex, hdelta, htype, orMissing, pure,
                  Except.pure]

theorem status_onContentBlockStop :
    ((state.onContentBlockStop event).toOption.getD state).status = state.status := by
  rw [AnthropicStreamState.onContentBlockStop]
  cases parseJson event.data with
  | error error => rfl
  | ok value =>
      cases hindex : value.getU64 "index" <;>
        simp [bind, Except.bind, Except.toOption, hindex, orMissing, pure, Except.pure]

theorem status_onMessageDelta :
    ((state.onMessageDelta event).toOption.getD state).status = state.status := by
  rw [AnthropicStreamState.onMessageDelta]
  cases parseJson event.data <;> rfl

theorem statusWritten_eq_none {event : SseEvent} {name : Utf8String}
    (hname : event.eventName = some name) (hstart : name ≠ constant "message_start")
    (hstop : name ≠ constant "message_stop") (herror : name ≠ constant "error") :
    statusWritten event = none := by
  rw [statusWritten, hname, Option.bind_some, if_neg hstart, if_neg hstop, if_neg herror]

/-- No handler asks for the status that was there. -/
theorem status_after : (state.after event).status = (statusWritten event).getD state.status := by
  rw [AnthropicStreamState.after, AnthropicStreamState.apply]
  cases hname : event.eventName with
  | none =>
      rw [statusWritten, hname]
      rfl
  | some name =>
      have hidle : statusWritten event = none →
          (statusWritten event).getD state.status = state.status := by
        intro hnone
        rw [hnone, Option.getD_none]
      have hnone := @statusWritten_eq_none event name hname
      dsimp only
      split_ifs with hping hstart hblockStart hblockDelta hblockStop hdelta hstop herror
      · rw [hidle (hnone (by rw [hping]; decide) (by rw [hping]; decide) (by rw [hping]; decide))]
        rfl
      · rw [status_onMessageStart, statusWritten, hname, Option.bind_some, if_pos hstart]
      · rw [hidle (hnone hstart (by rw [hblockStart]; decide) (by rw [hblockStart]; decide))]
        exact status_onContentBlockStart state event
      · rw [hidle (hnone hstart (by rw [hblockDelta]; decide) (by rw [hblockDelta]; decide))]
        exact status_onContentBlockDelta state event
      · rw [hidle (hnone hstart (by rw [hblockStop]; decide) (by rw [hblockStop]; decide))]
        exact status_onContentBlockStop state event
      · rw [hidle (hnone hstart (by rw [hdelta]; decide) (by rw [hdelta]; decide))]
        exact status_onMessageDelta state event
      · rw [statusWritten, hname, Option.bind_some, if_neg hstart, if_pos hstop]
        rfl
      · rw [statusWritten, hname, Option.bind_some, if_neg hstart, if_neg hstop, if_pos herror]
        rfl
      · rw [hidle (hnone hstart hstop herror)]
        rfl

def statusRegister : Register AnthropicStreamState SseEvent StreamStatus where
  after := AnthropicStreamState.after
  value := AnthropicStreamState.status
  writes := statusWritten
  value_after := status_after

/-- The statuses of a run, the first of them before any event. -/
def statuses (start : AnthropicStreamState) (events : List SseEvent) : List StreamStatus :=
  start.status :: events.filterMap statusWritten

/-- The promise about a run of the Anthropic machine. -/
def TerminalAbsorbs (start : AnthropicStreamState) (events : List SseEvent) : Prop :=
  Absorbing (fun front => (start.applyAll front).status) StreamStatus.isTerminal
    (· = .errored) (· = .messageStop) events

theorem terminalAbsorbs_iff (start : AnthropicStreamState) (events : List SseEvent) :
    TerminalAbsorbs start events ↔ (statuses start events).Pairwise fun earlier later =>
      earlier.isTerminal → later = earlier := by
  refine absorbing_iff statusRegister ?_ start events
  intro status herrored
  rw [of_decide_eq_true herrored]
  decide

end Anthropic

/-! ## Responses -/

namespace OpenAiResponses

/-- A completed, a failed and an incomplete response have ended. -/
def StreamStatus.isTerminal : StreamStatus → Bool
  | .opened => false
  | .completed => true
  | .failed => true
  | .incomplete => true

def statusOfKind : Option EventKind → Option StreamStatus
  | some .responseCompleted => some .completed
  | some .responseFailed => some .failed
  | some .responseIncomplete => some .incomplete
  | _ => none

/-- The status that an event writes, once its payload has been read. -/
def statusWritten (event : SseEvent) : Option StreamStatus :=
  event.eventName.bind fun name =>
    (parseJson event.data).toOption.bind fun _ => statusOfKind (kindOf name)

variable (state : ResponseState)

theorem status_captureEnvelopeMetadata (value : Value) :
    (state.captureEnvelopeMetadata value).status = state.status := by
  rw [ResponseState.captureEnvelopeMetadata]
  split <;> rfl

/-- The status after a handler. -/
theorem status_handle (value : Value) (kind : Option EventKind) :
    ((state.handle value kind).toOption.getD state).status =
      (statusOfKind kind).getD state.status := by
  by_cases hkind : kind ∈ envelopeKinds
  · simp only [envelopeKinds, List.mem_cons, List.not_mem_nil, or_false] at hkind
    rcases hkind with rfl | rfl | rfl | rfl
    · rw [ResponseState.handle, ResponseState.onResponseCreated]
      cases value.get (constant "response") <;> rfl
    all_goals exact status_captureEnvelopeMetadata _ _
  · rw [handle_eq state value hkind]
    rcases kind with _ | ⟨⟩ <;> simp_all [envelopeKinds, statusOfKind]

theorem status_after (event : SseEvent) :
    (state.after event).status = (statusWritten event).getD state.status := by
  rw [ResponseState.after, ResponseState.apply, statusWritten]
  cases event.eventName with
  | none => rfl
  | some name =>
      cases parseJson event.data with
      | error error => rfl
      | ok value => exact status_handle state value (kindOf name)

def statusRegister : Register ResponseState SseEvent StreamStatus where
  after := ResponseState.after
  value := ResponseState.status
  writes := statusWritten
  value_after := status_after

/-- The statuses of a run, the first of them before any event. -/
def statuses (start : ResponseState) (events : List SseEvent) : List StreamStatus :=
  start.status :: events.filterMap statusWritten

/-- The promise about a run of the Responses machine. -/
def TerminalAbsorbs (start : ResponseState) (events : List SseEvent) : Prop :=
  Absorbing (fun front => (start.applyAll front).status) StreamStatus.isTerminal
    (· = .failed) (· = .completed) events

theorem terminalAbsorbs_iff (start : ResponseState) (events : List SseEvent) :
    TerminalAbsorbs start events ↔ (statuses start events).Pairwise fun earlier later =>
      earlier.isTerminal → later = earlier := by
  refine absorbing_iff statusRegister ?_ start events
  intro status hfailed
  rw [of_decide_eq_true hfailed]
  decide

end OpenAiResponses

/-! ## Both machines -/

/-- Over runs from any state, a terminal status is absorbing exactly where no event writes
another status behind it. -/
theorem terminal_absorbs (start : Anthropic.AnthropicStreamState) (events : List SseEvent)
    (start' : OpenAiResponses.ResponseState) (events' : List SseEvent) :
    (Anthropic.TerminalAbsorbs start events ↔
      (Anthropic.statuses start events).Pairwise fun earlier later =>
        earlier.isTerminal → later = earlier) ∧
    (OpenAiResponses.TerminalAbsorbs start' events' ↔
      (OpenAiResponses.statuses start' events').Pairwise fun earlier later =>
        earlier.isTerminal → later = earlier) :=
  ⟨Anthropic.terminalAbsorbs_iff start events,
    OpenAiResponses.terminalAbsorbs_iff start' events'⟩

/-- A `message_stop` makes an errored stream a stopped one, and a completed response does
the same to a failed one. -/
theorem error_is_forgotten :
    ¬ Anthropic.TerminalAbsorbs .new
        [Anthropic.eventOf "error" "\x7b\x7d", Anthropic.eventOf "message_stop" "\x7b\x7d"] ∧
      ¬ OpenAiResponses.TerminalAbsorbs .new
        [OpenAiResponses.eventOf "response.failed" "\x7b\x7d",
          OpenAiResponses.eventOf "response.completed" "\x7b\x7d"] := by
  constructor
  · rw [Anthropic.terminalAbsorbs_iff]
    decide
  · rw [OpenAiResponses.terminalAbsorbs_iff]
    decide

end Legroom.Streams
