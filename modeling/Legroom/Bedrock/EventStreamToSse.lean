import Legroom.Bedrock.EventStream
import Legroom.Sse.FrameLines

/-!
# Bedrock messages as SSE frames

Clients that speak SSE get each EventStream message as a frame of its own: an
`event` line with the `type` of the JSON payload, a `data` line with the payload as
it is, and an empty line.
-/

namespace Legroom.Bedrock

open Utf8 Json

inductive OutputMode where
  | eventStream
  | sse
  deriving DecidableEq

inductive TranslateOutcome where
  | emit (frame : Bytes)
  | skip (eventType : Utf8String)
  deriving DecidableEq

inductive TranslateError where
  | upstreamException (payloadPreview : Utf8String)
  | missingEventType
  deriving DecidableEq

/-- The string under `type`. -/
def typeString (value : Value) : Option Utf8String :=
  (value.get (constant "type")).bind Value.asStr

def extractAnthropicEventType (payload : Bytes) : Option Utf8String :=
  (valueFromSlice payload).bind typeString

/-- The `event` line of a frame. -/
def eventLine : Option Utf8String → Bytes
  | some name => ascii "event: " ++ (name.bytes ++ [Byte.lf])
  | none => []

def payloadToSseFrame (payload : Bytes) : Bytes :=
  eventLine (extractAnthropicEventType payload) ++
    (ascii "data: " ++ (payload ++ [Byte.lf, Byte.lf]))

/-- The event types whose payload is an Anthropic event. -/
def translatedEventTypes : List Utf8String :=
  ["chunk", "messageStart", "contentBlockStart", "contentBlockDelta", "contentBlockStop",
    "messageStop", "metadata"].map constant

def translateMessage (message : EventStreamMessage) (mode : OutputMode) :
    Except TranslateError TranslateOutcome :=
  -- An exception is an error in either mode, and whatever its event type.
  if message.messageType = some (constant "exception") then
    .error (.upstreamException (fromUtf8Lossy (message.payload.take 160)))
  else
    match message.eventType with
    | none => .error .missingEventType
    | some eventType =>
        match mode with
        | .eventStream => .ok (.skip eventType)
        | .sse =>
            if eventType ∈ translatedEventTypes then
              .ok (.emit (payloadToSseFrame message.payload))
            else .ok (.skip eventType)

/-!
## From Bedrock to the framer

The payload goes into a `data` line unchanged, and a line feed ends that line.  A
line feed in a JSON text is white space, so what the framer hears is the payload up
to its first line feed; that is the payload again if only white space is left out.
-/

open Sse

/-- A message whose payload is an Anthropic event. -/
structure IsChunk (message : EventStreamMessage) : Prop where
  eventType : message.eventType = some (constant "chunk")
  noException : message.messageType ≠ some (constant "exception")
  payload : ∃ fields, valueFromSlice message.payload = some (.object fields)

/-- The event has the payload as its data and the `type` of the payload as its name. -/
def Delivers (event : SseEvent) (message : EventStreamMessage) : Prop :=
  ∃ value, valueFromSlice message.payload = some value ∧
    valueFromSlice event.data = some value ∧ event.eventName = typeString value

/-- However the bytes reach the framer, it yields these events and no error. -/
def Frames (bytes : Bytes) (events : List SseEvent) : Prop :=
  ∀ calls, FramerCall.stream calls = bytes →
    (SseFramer.new.runAndDrain calls).1 = events.map .ok

/-- Each message is emitted as a frame, which the framer reads as one event that
delivers it; and the frames in a row are read as the events in a row. -/
def RoundTrips (messages : List EventStreamMessage) : Prop :=
  ∃ frames : List Bytes,
    messages.map (translateMessage · .sse) = frames.map (.ok ∘ .emit) ∧
    List.Forall₂ (fun frame message => ∃ event, Frames frame [event] ∧
      Delivers event message) frames messages ∧
    ∃ events, Frames frames.flatten events ∧ List.Forall₂ Delivers events messages

/-- Nothing but white space follows the first line feed of the payload, and the name
of the event is one line. -/
structure OneLine (payload : Bytes) : Prop where
  rest : ∀ byte ∈ payload.dropWhile (· ≠ Byte.lf), isSpace byte = true
  name : ∀ name ∈ extractAnthropicEventType payload,
    Byte.lf ∉ name.bytes ∧ name.bytes.getLast? ≠ some Byte.cr

variable {message : EventStreamMessage}

theorem translateMessage_chunk (hchunk : IsChunk message) :
    translateMessage message .sse = .ok (.emit (payloadToSseFrame message.payload)) := by
  have hmem : constant "chunk" ∈ translatedEventTypes := by decide
  rw [translateMessage, if_neg hchunk.noException, hchunk.eventType]
  simp only [if_pos hmem]

theorem frames_iff {bytes : Bytes} {events : List SseEvent} :
    Frames bytes events ↔ (frameDecoder.drain bytes).1 = events.map .ok := by
  have hdrain : ∀ calls, (SseFramer.new.runAndDrain calls).1 =
      (frameDecoder.drain (FramerCall.stream calls)).1 := by
    intro calls
    rw [SseFramer.runAndDrain_chunk_invariant, SseFramer.drain_eq]
    rfl
  constructor
  · intro hframes
    have hpush := hframes [.push bytes] (by simp [FramerCall.stream])
    rw [hdrain, FramerCall.stream, FramerCall.stream, List.append_nil] at hpush
    exact hpush
  · rintro hevents calls rfl
    rw [hdrain, hevents]

/-! ## The name of an event -/

theorem lf_notMem_blockLines (bytes : Bytes) : ∀ line ∈ blockLines bytes, Byte.lf ∉ line := by
  induction bytes with
  | nil => simp [blockLines]
  | cons byte bytes ih =>
      rw [blockLines]
      split_ifs with hlf
      · simpa using ih
      · split
        · simpa using fun heq : Byte.lf = byte => hlf heq.symm
        · rename_i line lines hlines
          rw [hlines] at ih
          intro other hother
          rcases List.mem_cons.mp hother with rfl | hother
          · rw [List.mem_cons, not_or]
            exact ⟨fun heq => hlf heq.symm, ih line List.mem_cons_self⟩
          · exact ih other (List.mem_cons_of_mem _ hother)

theorem fieldValue_suffix (line : Bytes) : fieldValue line <:+ line := by
  have hbehind : (line.dropWhile (· ≠ Byte.colon)).drop 1 <:+ line :=
    (List.drop_suffix _ _).trans (List.dropWhile_suffix _)
  rw [fieldValue]
  split
  · exact List.nil_suffix
  · rename_i byte rest hrest
    rw [hrest] at hbehind
    split_ifs
    · exact (List.suffix_cons _ _).trans hbehind
    · exact hbehind

theorem stripCr_subset (line : Bytes) : stripCr line ⊆ line := by
  rw [stripCr]
  split_ifs
  · exact List.dropLast_subset line
  · exact List.Subset.refl line

/-- The name is one line whatever the stream holds. -/
def NameInLine (fields : EventFields) : Prop :=
  ∀ name ∈ fields.eventName, Byte.lf ∉ name.bytes

variable {line : Bytes}
variable {fields next : EventFields}

theorem nameInLine_readLine (hfields : NameInLine fields) (hline : Byte.lf ∉ line)
    (hread : readLine fields line = .ok next) : NameInLine next := by
  rw [readLine] at hread
  split_ifs at hread
  · cases hread
    exact hfields
  · cases hread
    exact hfields
  · cases hvalue : fromUtf8 (fieldValue line) with
    | error error => simp [hvalue] at hread
    | ok text =>
        simp only [hvalue] at hread
        cases hread
        intro name hname
        cases hname
        rw [fromUtf8_eq_ok_iff.mp hvalue]
        exact fun hlf => hline ((fieldValue_suffix line).subset hlf)
  · cases hread
    exact hfields
  · cases hread
    exact hfields

theorem nameInLine_readLines {lines : List Bytes} (hfields : NameInLine fields)
    (hlines : ∀ line ∈ lines, Byte.lf ∉ line) (hread : readLines fields lines = .ok next) :
    NameInLine next := by
  induction lines generalizing fields with
  | nil =>
      cases hread
      exact hfields
  | cons line lines ih =>
      rw [readLines_cons] at hread
      cases hfirst : readLine fields (stripCr line) with
      | error error => simp [hfirst, Except.bind] at hread
      | ok after =>
          rw [hfirst] at hread
          refine ih (nameInLine_readLine hfields (fun hlf => ?_) hfirst)
            (fun other hother => hlines other (List.mem_cons_of_mem _ hother)) hread
          exact hlines line List.mem_cons_self (stripCr_subset line hlf)

variable {event : SseEvent}

theorem lf_notMem_eventName {buf rest : Bytes} (hnext : nextFrame buf = (some (.ok event), rest)) :
    ∀ name ∈ event.eventName, Byte.lf ∉ name.bytes := by
  induction hlength : buf.length using Nat.strong_induction_on generalizing buf with
  | _ length ih =>
      subst hlength
      rw [nextFrame_eq] at hnext
      split at hnext
      · cases hnext
      · rename_i blockEnd termLen hfind
        have hbounds := findDoubleNewline_bounds hfind
        split at hnext
        · rename_i parsed hparse
          cases hnext
          rw [parseEventBlock] at hparse
          cases hread : readLines EventFields.empty (blockLines (buf.take blockEnd)) with
          | error error => simp [hread, Except.map] at hparse
          | ok fields =>
              have hname : NameInLine fields := nameInLine_readLines (fun name hname => by
                cases hname) (lf_notMem_blockLines _) hread
              rw [hread, Except.map, EventFields.finish] at hparse
              split_ifs at hparse
              · cases hparse
              · have hevent := Option.some.inj (Except.ok.inj hparse)
                rw [← hevent]
                exact hname
        · exact ih _ (by simp only [List.length_drop]; omega) hnext rfl
        · cases hnext

/-! ## What the framer hears of a frame -/

theorem stripCr_of_getLast? (hline : line.getLast? ≠ some Byte.cr) :
    stripCr line = line := if_neg hline

theorem valid_stripCr (hvalid : Valid line) : Valid (stripCr line) := by
  rw [stripCr]
  split_ifs with hlast
  · obtain ⟨front, rfl⟩ := List.getLast?_eq_some_iff.mp hlast
    rw [List.dropLast_concat]
    have hcut : Valid (front ++ Byte.cr :: []) := hvalid
    exact (hcut.split (by decide)).1
  · exact hvalid

theorem firstLine (payload : Bytes) :
    Byte.lf ∉ payload.takeWhile (· ≠ Byte.lf) ∧
      (payload.dropWhile (· ≠ Byte.lf) = [] ∨
        ∃ back, payload.dropWhile (· ≠ Byte.lf) = Byte.lf :: back) := by
  induction payload with
  | nil => simp
  | cons byte payload ih =>
      by_cases hbyte : byte = Byte.lf
      · exact ⟨by simp [hbyte], Or.inr ⟨payload, by simp [hbyte]⟩⟩
      · rw [List.takeWhile_cons_of_pos (by simpa using hbyte),
          List.dropWhile_cons_of_pos (by simpa using hbyte), List.mem_cons, not_or]
        exact ⟨⟨fun heq => hbyte heq.symm, ih.1⟩, ih.2⟩

/-- The name that is heard of a name of one line. -/
def heardName (name : Utf8String) : Utf8String :=
  ⟨stripCr name.bytes, valid_stripCr name.valid⟩

variable {kept : Bytes}
variable {payload : Bytes}

/-- The frame in the buffer, with at most a line feed left over in front of it. -/
theorem exists_cutAt_frame {value : Value} (hvalue : valueFromSlice payload = some value)
    (hkept : kept = [] ∨ kept = [Byte.lf])
    (hname : ∀ name ∈ typeString value, Byte.lf ∉ name.bytes) :
    ∃ block data spare rest,
      CutAt (kept ++ payloadToSseFrame payload) block rest ∧
      parseEventBlock block = .ok (some ⟨(typeString value).map heardName, data⟩) ∧
      payload.takeWhile (· ≠ Byte.lf) = data ++ spare ∧ (∀ byte ∈ spare, byte = Byte.cr) ∧
      rest <:+ payload.dropWhile (· ≠ Byte.lf) ++ [Byte.lf, Byte.lf] := by
  obtain ⟨document, hrender, -, -⟩ := valueFromSlice_eq_some_iff.mp hvalue
  have hsplit := List.takeWhile_append_dropWhile (p := (· ≠ Byte.lf)) (l := payload)
  obtain ⟨hline, hback⟩ := firstLine payload
  obtain ⟨tail, htail, hstarts, hends⟩ : ∃ tail,
      payload.dropWhile (· ≠ Byte.lf) ++ [Byte.lf, Byte.lf] = Byte.lf :: tail ∧
      LineStarts tail ∧ [Byte.lf, Byte.lf] <:+ Byte.lf :: tail := by
    rcases hback with hback | ⟨back, hback⟩
    · rw [hback]
      exact ⟨[Byte.lf], rfl, .of_singleton (by decide), List.suffix_refl _⟩
    · have hdocument := document.lineStarts
      rw [hrender, ← hsplit, hback] at hdocument
      rw [hback]
      exact ⟨back ++ [Byte.lf, Byte.lf], rfl, hdocument.of_behind.append (lineStarts_cons (by decide)
        (.of_singleton (by decide))),
        List.suffix_append (Byte.lf :: back) _⟩
  obtain ⟨block, data, spare, rest, hcut, hdata, hspare, hrest, hread⟩ :=
    exists_cutAt_data hline hstarts hends
  have hframe : ascii "data: " ++ (payload ++ [Byte.lf, Byte.lf]) =
      ascii "data: " ++ payload.takeWhile (· ≠ Byte.lf) ++ Byte.lf :: tail := by
    rw [← htail, List.append_assoc, ← List.append_assoc (payload.takeWhile _), hsplit]
  have hdataHead : ∀ byte ∈ (ascii "data: " ++ payload.takeWhile (· ≠ Byte.lf) ++
      Byte.lf :: tail).head?, byte ≠ Byte.lf ∧ byte ≠ Byte.cr := by
    intro byte hbyte
    cases hbyte
    decide
  -- The event line stands in front of the data line.
  obtain ⟨named, hnamed, hnamedHead, hnamedRead⟩ : ∃ named,
      CutAt (payloadToSseFrame payload) named rest ∧
      (∀ byte ∈ (payloadToSseFrame payload).head?, byte ≠ Byte.lf ∧ byte ≠ Byte.cr) ∧
      readLines EventFields.empty (blockLines named) =
        .ok ⟨(typeString value).map heardName, [data]⟩ := by
    rw [payloadToSseFrame, extractAnthropicEventType, hvalue, Option.bind_some, hframe]
    cases htype : typeString value with
    | none => exact ⟨block, hcut, hdataHead, hread _⟩
    | some name =>
        have hlead : (ascii "event: ").getLast? ≠ some Byte.cr := by decide
        have hnone : Byte.lf ∉ ascii "event: " ++ name.bytes := by
          rw [List.mem_append, not_or]
          exact ⟨by decide, hname name htype⟩
        have hcons : eventLine (some name) ++ (ascii "data: " ++
            payload.takeWhile (· ≠ Byte.lf) ++ Byte.lf :: tail) =
            (ascii "event: " ++ name.bytes) ++ Byte.lf :: (ascii "data: " ++
              payload.takeWhile (· ≠ Byte.lf) ++ Byte.lf :: tail) := by
          simp [eventLine]
        rw [hcons]
        refine ⟨_, hcut.line hnone hdataHead, ?_, ?_⟩
        · intro byte hbyte
          cases hbyte
          decide
        · have hevent := readLine_event EventFields.empty (heardName name)
          rw [blockLines_line _ hnone, readLines_cons, stripCr_append hlead]
          rw [show stripCr name.bytes = (heardName name).bytes from rfl, hevent]
          exact hread _
  have hparse : ∀ other, readLines EventFields.empty (blockLines other) =
      .ok ⟨(typeString value).map heardName, [data]⟩ →
      parseEventBlock other = .ok (some ⟨(typeString value).map heardName, data⟩) := by
    intro other hother
    rw [parseEventBlock, hother]
    simp [Except.map, EventFields.finish]
  rw [htail]
  rcases hkept with rfl | rfl
  · exact ⟨named, data, spare, rest, hnamed, hparse _ hnamedRead, hdata, hspare, hrest⟩
  · have hempty : Byte.lf ∉ ([] : Bytes) := List.not_mem_nil
    refine ⟨_, data, spare, rest, hnamed.line hempty hnamedHead, hparse _ ?_, hdata, hspare,
      hrest⟩
    rw [blockLines_line _ (by simp), readLines_cons]
    exact hnamedRead

/-! ## The round trip -/

/-- A line feed in front of white space ends nothing. -/
theorem drain_frame (hchunk : IsChunk message) (hline : OneLine message.payload)
    (hkept : kept = [] ∨ kept = [Byte.lf]) :
    ∃ event behind, Delivers event message ∧ (behind = [] ∨ behind = [Byte.lf]) ∧
      ∀ more, (frameDecoder.drain (kept ++ (payloadToSseFrame message.payload ++ more))).1 =
        .ok event :: (frameDecoder.drain (behind ++ more)).1 := by
  obtain ⟨fields, hvalue⟩ := hchunk.payload
  have hname := hline.name
  rw [extractAnthropicEventType, hvalue, Option.bind_some] at hname
  obtain ⟨block, data, spare, rest, hcut, hparse, hdata, hspare, hrest⟩ :=
    exists_cutAt_frame hvalue hkept fun name htype => (hname name htype).1
  have hblank : ∀ byte ∈ rest, isSpace byte = true := by
    intro byte hbyte
    rcases List.mem_append.mp (hrest.subset hbyte) with hbyte | hbyte
    · exact hline.rest byte hbyte
    · rw [List.eq_of_mem_replicate (n := 2) hbyte]
      rfl
  obtain ⟨behind, hbehind, hdrain⟩ := drain_blank hblank hrest
  have hheard : (typeString (.object fields)).map heardName = typeString (.object fields) := by
    cases htype : typeString (.object fields) with
    | none => rfl
    | some name =>
        exact congrArg some (Utf8String.ext' (stripCr_of_getLast? (hname name htype).2))
  refine ⟨⟨typeString (.object fields), data⟩, behind, ⟨_, hvalue, ?_, rfl⟩, hbehind,
    fun more => ?_⟩
  · rw [← List.takeWhile_append_dropWhile (p := (· ≠ Byte.lf)) (l := message.payload), hdata,
      List.append_assoc] at hvalue
    refine valueFromSlice_append_space hvalue fun byte hbyte => ?_
    rcases List.mem_append.mp hbyte with hbyte | hbyte
    · rw [hspare byte hbyte]
      rfl
    · exact hline.rest byte hbyte
  · rw [hheard] at hparse
    rw [← List.append_assoc, frameDecoder.drain_of_some
      (nextFrame_of_cutAt (hcut.append more) hparse) rfl, hdrain]

theorem drain_kept (hkept : kept = [] ∨ kept = [Byte.lf]) :
    (frameDecoder.drain (kept ++ [])).1 = [] := by
  rcases hkept with rfl | rfl
  · exact congrArg Prod.fst (frameDecoder.drain_of_none rfl)
  · exact congrArg Prod.fst (frameDecoder.drain_of_none rfl)

variable {messages : List EventStreamMessage}

/-- The frames of the messages are read one after the other. -/
theorem drain_frames (hchunks : ∀ message ∈ messages, IsChunk message)
    (hlines : ∀ message ∈ messages, OneLine message.payload)
    (hkept : kept = [] ∨ kept = [Byte.lf]) :
    ∃ events : List SseEvent, List.Forall₂ Delivers events messages ∧
      (frameDecoder.drain
        (kept ++ (messages.map fun message => payloadToSseFrame message.payload).flatten)).1 =
        events.map .ok := by
  induction messages generalizing kept with
  | nil => exact ⟨[], .nil, drain_kept hkept⟩
  | cons message messages ih =>
      obtain ⟨event, behind, hdelivers, hbehind, hdrain⟩ := drain_frame
        (hchunks message List.mem_cons_self) (hlines message List.mem_cons_self) hkept
      obtain ⟨events, hevents, hmore⟩ := ih
        (fun other hother => hchunks other (List.mem_cons_of_mem _ hother))
        (fun other hother => hlines other (List.mem_cons_of_mem _ hother)) hbehind
      refine ⟨event :: events, .cons hdelivers hevents, ?_⟩
      rw [List.map_cons, List.flatten_cons, hdrain, hmore]
      rfl

/-- A frame that is read as an event that delivers its message holds the payload in one
line. -/
theorem oneLine_of_frames (hframes : Frames (payloadToSseFrame message.payload) [event])
    (hdelivers : Delivers event message) : OneLine message.payload := by
  obtain ⟨value, hvalue, hdata, hname⟩ := hdelivers
  rw [frames_iff] at hframes
  have hlf : ∀ name ∈ typeString value, Byte.lf ∉ name.bytes := by
    rw [← hname]
    rcases hnext : nextFrame (payloadToSseFrame message.payload) with ⟨_ | output, rest⟩
    · rw [frameDecoder.drain_of_none hnext] at hframes
      cases hframes
    · rw [frameDecoder.drain_of_some hnext rfl] at hframes
      cases (List.cons.inj hframes).1
      exact lf_notMem_eventName hnext
  obtain ⟨block, data, spare, rest, hcut, hparse, hline, hspare, -⟩ :=
    exists_cutAt_frame hvalue (Or.inl rfl) hlf
  rw [List.nil_append] at hcut
  rw [frameDecoder.drain_of_some (nextFrame_of_cutAt hcut hparse) rfl] at hframes
  have hevent := Except.ok.inj (List.cons.inj hframes).1
  subst hevent
  have hsplit : data ++ (spare ++ message.payload.dropWhile (· ≠ Byte.lf)) =
      message.payload := by
    rw [← List.append_assoc, ← hline]
    exact List.takeWhile_append_dropWhile
  constructor
  · intro byte hbyte
    have hmem : byte ∈ spare ++ message.payload.dropWhile (· ≠ Byte.lf) :=
      List.mem_append_right _ hbyte
    cases hbehind : spare ++ message.payload.dropWhile (· ≠ Byte.lf) with
    | nil =>
        rw [hbehind] at hmem
        cases hmem
    | cons first behind =>
        have hfirst : isSpace first = true := by
          cases spare with
          | nil =>
              rcases (firstLine message.payload).2 with hnone | ⟨back, hback⟩
              · rw [hnone] at hbehind
                cases hbehind
              · rw [hback] at hbehind
                cases hbehind
                rfl
          | cons carriage spare =>
              cases hbehind
              rw [hspare _ List.mem_cons_self]
              rfl
        rw [hbehind] at hsplit hmem
        rw [← hsplit] at hvalue
        rcases List.mem_cons.mp hmem with rfl | hmem
        · exact hfirst
        · exact all_space_of_prefix hdata hfirst hvalue byte hmem
  · intro name htype
    rw [extractAnthropicEventType, hvalue, Option.bind_some] at htype
    refine ⟨hlf name htype, fun hlast => ?_⟩
    rw [Option.mem_def] at htype
    simp only [htype, Option.map_some, Option.some.injEq] at hname
    have hstrip := congrArg Utf8String.bytes hname
    rw [heardName] at hstrip
    simp only [stripCr, if_pos hlast] at hstrip
    obtain ⟨front, hfront⟩ := List.getLast?_eq_some_iff.mp hlast
    simpa [hfront] using congrArg List.length hstrip

theorem oneLine_of_roundTrips (hchunks : ∀ message ∈ messages, IsChunk message)
    (hround : RoundTrips messages) : ∀ message ∈ messages, OneLine message.payload := by
  obtain ⟨frames, htranslated, hevents, -⟩ := hround
  have hframes : frames = messages.map fun message => payloadToSseFrame message.payload := by
    rw [List.map_congr_left fun other hother =>
      translateMessage_chunk (hchunks other hother)] at htranslated
    refine List.map_injective_iff.mpr ?_ (htranslated.symm.trans (by simp))
    intro left right hemit
    cases hemit
    rfl
  rw [hframes, List.forall₂_map_left_iff, List.forall₂_same] at hevents
  intro message hmessage
  obtain ⟨event, hframe, hdelivers⟩ := hevents message hmessage
  exact oneLine_of_frames hframe hdelivers

/-- The messages come through the framer exactly when each payload is in one line. -/
theorem roundTrips_iff {messages : List EventStreamMessage}
    (hchunks : ∀ message ∈ messages, IsChunk message) :
    RoundTrips messages ↔ ∀ message ∈ messages, OneLine message.payload := by
  refine ⟨oneLine_of_roundTrips hchunks, fun hlines => ?_⟩
  refine ⟨messages.map fun message => payloadToSseFrame message.payload, ?_, ?_, ?_⟩
  · rw [List.map_map]
    exact List.map_congr_left fun message hmessage =>
      translateMessage_chunk (hchunks message hmessage)
  · rw [List.forall₂_map_left_iff, List.forall₂_same]
    intro message hmessage
    obtain ⟨event, behind, hdelivers, hbehind, hdrain⟩ :=
      drain_frame (hchunks message hmessage) (hlines message hmessage) (Or.inl rfl)
    refine ⟨event, frames_iff.mpr ?_, hdelivers⟩
    rw [← List.append_nil (payloadToSseFrame message.payload), ← List.nil_append (_ ++ []),
      hdrain, drain_kept hbehind]
    rfl
  · obtain ⟨events, hdelivers, hdrain⟩ := drain_frames hchunks hlines (Or.inl rfl)
    exact ⟨events, frames_iff.mpr hdrain, hdelivers⟩

/-- A `chunk` message with this payload. -/
def chunkMessage (payload : Bytes) : EventStreamMessage :=
  ⟨Finmap.singleton (constant ":event-type") (.string (constant "chunk")), payload⟩

theorem chunkMessage_isChunk (hpayload : ∃ fields, valueFromSlice payload = some (.object fields)) :
    IsChunk (chunkMessage payload) where
  eventType := by
    rw [EventStreamMessage.eventType, chunkMessage, Finmap.lookup_singleton_eq]
    rfl
  noException := by
    rw [EventStreamMessage.messageType, chunkMessage, Finmap.lookup_eq_none.mpr]
    · simp
    · rw [Finmap.mem_singleton]
      decide
  payload := hpayload

def pingPayload : Bytes := ascii "\x7b\"type\":\"ping\"\x7d"

/-- The same event over two lines. -/
def brokenPayload : Bytes := ascii "\x7b\"type\":\n\"ping\"\x7d"

theorem roundTrips_ping : RoundTrips [chunkMessage pingPayload] := by
  refine (roundTrips_iff fun message hmessage => ?_).mpr fun message hmessage => ?_
  · rw [List.mem_singleton.mp hmessage]
    exact chunkMessage_isChunk ⟨_, rfl⟩
  · rw [List.mem_singleton.mp hmessage]
    exact ⟨List.all_eq_true.mp (by decide), by decide⟩

/-- The framer is left with half an object. -/
theorem brokenPayload_dropped :
    IsChunk (chunkMessage brokenPayload) ∧ ¬RoundTrips [chunkMessage brokenPayload] := by
  have hchunk : IsChunk (chunkMessage brokenPayload) := chunkMessage_isChunk ⟨_, rfl⟩
  refine ⟨hchunk, fun hround => ?_⟩
  have hline := oneLine_of_roundTrips (by simpa using hchunk) hround _ List.mem_cons_self
  exact absurd hline.rest (by decide)

end Legroom.Bedrock
