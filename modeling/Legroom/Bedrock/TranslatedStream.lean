import Legroom.Bedrock.EventStreamToSse
import Legroom.Bedrock.MessageBuilder
import Legroom.Lib.Json.Writer
import Legroom.Streams.Telemetry

/-!
# The translated stream

A client that speaks SSE gets the messages as frames.  The stream drains the parser
after every frame that it emits, but asks it only once after every chunk; so behind a
message that is skipped the other messages of a chunk wait for the next one.
-/

namespace Legroom.Bedrock

open Utf8 Json Sse Streams

/-- What becomes of an output of the parser. -/
inductive Relayed where
  | frame (bytes : Bytes)
  | skipped
  | last (bytes : Bytes)

def errorSseFrame (eventKind : String) (message : Utf8String) : Bytes :=
  ascii "event: error\ndata: " ++
    ((Value.object [(constant "type", .string (constant "error")),
      (constant "error", .object [(constant "type", .string (constant eventKind)),
        (constant "message", .string message)])]).toJson.bytes ++ [Byte.lf, Byte.lf])

def parseErrorKind : ParseError → String
  | .preludeCrcMismatch .. | .messageCrcMismatch .. => "bedrock_eventstream_crc_mismatch"
  | _ => "bedrock_eventstream_parse_failed"

section

-- The text of an error, which the last frame shows.
variable (describe : ParseError → Utf8String)

def relay : Except ParseError EventStreamMessage → Relayed
  | .ok message =>
      match translateMessage message .sse with
      | .ok (.emit frame) => .frame frame
      | .ok (.skip _) => .skipped
      | .error (.upstreamException preview) =>
          .last (errorSseFrame "bedrock_upstream_exception" preview)
      | .error .missingEventType =>
          .last (errorSseFrame "bedrock_eventstream_missing_event_type"
            (constant "Bedrock message missing :event-type header"))
  | .error error => .last (errorSseFrame (parseErrorKind error) (describe error))

/-- The frames of some outputs, and whether the last of them ends the stream. -/
def framesOf : List (Except ParseError EventStreamMessage) → List Bytes × Bool
  | [] => ([], false)
  | output :: outputs =>
      match relay describe output with
      | .frame bytes => (bytes :: (framesOf outputs).1, (framesOf outputs).2)
      | .skipped => framesOf outputs
      | .last bytes => ([bytes], true)

/-- The frames that the chunks lead to, and the parser unless the stream has ended. -/
def translateChunks : EventStreamParser → List Bytes → List Bytes × Option EventStreamParser
  | parser, [] => ([], some parser)
  | parser, chunk :: chunks =>
      let (result, after) := (parser.push chunk).nextMessage
      match (toOutput result).map (relay describe) with
      -- Behind a skipped message, too, the next chunk is awaited.
      | none | some .skipped => translateChunks after chunks
      | some (.last bytes) => ([bytes], none)
      | some (.frame bytes) =>
          let drained := framesOf describe after.drain.1
          if drained.2 then (bytes :: drained.1, none)
          else
            let later := translateChunks after.drain.2 chunks
            (bytes :: (drained.1 ++ later.1), later.2)

/-- The frames of the messages that are left in the parser. -/
def framesLeft (parser : Option EventStreamParser) : List Bytes :=
  parser.elim [] fun parser => (framesOf describe parser.drain.1).1

variable {describe}

theorem framesOf_append (outputs later : List (Except ParseError EventStreamMessage)) :
    framesOf describe (outputs ++ later) =
      if (framesOf describe outputs).2 then framesOf describe outputs
      else ((framesOf describe outputs).1 ++ (framesOf describe later).1,
        (framesOf describe later).2) := by
  induction outputs with
  | nil => rfl
  | cons output outputs ih =>
      rw [List.cons_append, framesOf, framesOf]
      cases relay describe output with
      | frame bytes => by_cases hends : (framesOf describe outputs).2 <;> simp [ih, hends]
      | skipped => exact ih
      | last bytes => rfl

theorem framesOf_clean {outputs : List (Except ParseError EventStreamMessage)}
    (hgoes : (framesOf describe outputs).2 = false) :
    ∀ output ∈ outputs, isError output = false := by
  induction outputs with
  | nil => exact fun _ hnil => absurd hnil List.not_mem_nil
  | cons output outputs ih =>
      rw [framesOf] at hgoes
      rcases output with error | message
      · cases hgoes
      · refine List.forall_mem_cons.mpr ⟨rfl, ih ?_⟩
        cases hrelay : relay describe (.ok message) with
        | last bytes => simp [hrelay] at hgoes
        | frame bytes => simpa [hrelay] using hgoes
        | skipped => simpa [hrelay] using hgoes

/-- No message is left in the parser. -/
def Drained (parser : EventStreamParser) : Prop := (parser.decoder.drain parser.buf).1 = []

theorem framesLeft_eq_nil {parser : Option EventStreamParser}
    (hdrained : ∀ after ∈ parser, Drained after) : framesLeft describe parser = [] := by
  cases parser with
  | none => rfl
  | some after =>
      have hdrain : after.drain.1 = [] := by
        rw [EventStreamParser.drain_eq]
        exact hdrained after rfl
      rw [framesLeft, Option.elim_some, hdrain, framesOf]

/-- With what is left in the parser the frames are those of the whole stream, and
something is left only behind a message that is skipped. -/
theorem translateChunks_spec (parser : EventStreamParser) (chunks : List Bytes) :
    let translated := translateChunks describe parser chunks
    let outputs := (parser.decoder.drain (parser.buf ++ chunks.flatten)).1
    translated.1 ++ framesLeft describe translated.2 = (framesOf describe outputs).1 ∧
      (Drained parser →
        (∀ after ∈ translated.2,
          Drained after ∧ after.maxMessageBytes = parser.maxMessageBytes) ∨
            ∃ output ∈ outputs, relay describe output = .skipped) := by
  induction chunks generalizing parser with
  | nil =>
      rw [List.flatten_nil, List.append_nil, translateChunks]
      dsimp only [framesLeft, Option.elim_some]
      rw [EventStreamParser.drain_eq]
      refine ⟨rfl, fun hdrained => .inl fun after hafter => ?_⟩
      cases hafter
      exact ⟨hdrained, rfl⟩
  | cons chunk chunks ih =>
      rcases hnext : (parser.push chunk).nextMessage with ⟨result, after⟩
      obtain ⟨hdecoder, hafter⟩ := EventStreamParser.decoder_of_nextMessage hnext
      have hsame : after.decoder = parser.decoder := by rw [hafter]; rfl
      have hcap : after.maxMessageBytes = parser.maxMessageBytes := by rw [hafter]; rfl
      have hbuf : (parser.push chunk).buf = parser.buf ++ chunk := rfl
      rw [EventStreamParser.decoder_push, hbuf] at hdecoder
      have hlater := ih after
      rw [Drained, hsame, hcap] at hlater
      rw [translateChunks, hnext, List.flatten_cons, ← List.append_assoc]
      dsimp only
      cases houtput : toOutput result with
      | none =>
          rw [houtput] at hdecoder
          rw [parser.decoder.drain_resume _ hdecoder]
          refine ⟨hlater.1, fun _ => hlater.2 ?_⟩
          have hagain := parser.decoder.drain_resume [] hdecoder
          rw [List.append_nil, List.append_nil, parser.decoder.drain_of_none hdecoder] at hagain
          rw [← hagain]
      | some output =>
          rw [houtput] at hdecoder
          have hstable : parser.decoder.next (parser.buf ++ chunk ++ chunks.flatten) = _ :=
            parser.decoder.stable hdecoder
          rcases output with error | message
          · rw [parser.decoder.drain_of_fatal hstable rfl]
            exact ⟨rfl, fun _ => .inl fun _ hnone => absurd hnone (Option.not_mem_none _)⟩
          · rw [parser.decoder.drain_of_some hstable rfl, Option.map_some, framesOf]
            cases hrelay : relay describe (.ok message) with
            | skipped => exact ⟨hlater.1, fun _ => .inr ⟨_, List.mem_cons_self, hrelay⟩⟩
            | last bytes =>
                exact ⟨rfl, fun _ => .inl fun _ hnone => absurd hnone (Option.not_mem_none _)⟩
            | frame bytes =>
                dsimp only
                rw [EventStreamParser.drain_eq, hsame]
                dsimp only
                obtain ⟨more, hmore⟩ := parser.decoder.prefix_drain after.buf chunks.flatten
                rw [← hmore, framesOf_append]
                split_ifs with hends
                · exact ⟨by simp [framesLeft], fun _ => .inl fun _ hnone =>
                    absurd hnone (Option.not_mem_none _)⟩
                · have hclean := framesOf_clean (by simpa using hends)
                  have hmore' := hmore.trans (congrArg Prod.fst
                    (parser.decoder.drain_append after.buf chunks.flatten hclean))
                  have hagain := congrArg Prod.fst (parser.decoder.drain_append after.buf [] hclean)
                  rw [List.append_nil, List.append_nil, List.self_eq_append_right] at hagain
                  obtain rfl := List.append_cancel_left hmore'
                  obtain ⟨hframes, hleft⟩ :=
                    ih { after with buf := (parser.decoder.drain after.buf).2 }
                  have hdecoder' : EventStreamParser.decoder
                      { after with buf := (parser.decoder.drain after.buf).2 } = parser.decoder :=
                    hsame
                  rw [Drained, hdecoder'] at hleft
                  rw [hdecoder'] at hframes
                  refine ⟨?_, fun _ => (hleft hagain).imp
                    (fun hall later hlater => (hall later hlater).imp_right (·.trans hcap))
                    (Exists.imp fun _ => And.imp_left fun hmem =>
                      .tail _ (List.mem_append_right _ hmem))⟩
                  rw [List.cons_append, List.append_assoc, hframes]

/-- However the upstream bytes are cut into chunks, the frames sent to the client are the
frames of the messages of the whole stream, in their order and up to the first that ends
it, except for those of the messages that are left in the parser; and none is left if no
message of the stream is skipped. -/
theorem translateChunks_accounts (crcValidation : CrcValidation) (chunks : List Bytes) :
    let parser := EventStreamParser.new.withCrcValidation crcValidation
    let translated := translateChunks describe parser chunks
    let outputs := (parser.push chunks.flatten).drain.1
    translated.1 ++ framesLeft describe translated.2 = (framesOf describe outputs).1 ∧
      (framesLeft describe translated.2 = [] ∨
        ∃ output ∈ outputs, relay describe output = .skipped) := by
  intro parser translated outputs
  obtain ⟨hframes, hleft⟩ := @translateChunks_spec describe parser chunks
  have houtputs : outputs = (parser.decoder.drain (parser.buf ++ chunks.flatten)).1 := by
    rw [show outputs = (parser.push chunks.flatten).drain.1 from rfl, EventStreamParser.drain_eq]
    rfl
  rw [houtputs]
  refine ⟨hframes, (hleft (congrArg Prod.fst (parser.decoder.drain_of_none rfl))).imp_left ?_⟩
  exact fun hdrained => framesLeft_eq_nil fun after hafter => (hdrained after hafter).1

theorem Drained.length_lt {parser : EventStreamParser} (hdrained : Drained parser) :
    parser.buf.length < max preludeLen parser.maxMessageBytes := by
  by_contra hlong
  obtain ⟨hprelude, hcap⟩ := max_le_iff.mp (not_lt.mp hlong)
  have hnone : toOutput (nextMessage parser.crcValidation parser.maxMessageBytes parser.buf).1 =
      none := PullDecoder.next_of_drain_eq_nil _ hdrained
  cases hcheck : checkPrelude parser.crcValidation parser.maxMessageBytes parser.buf with
  | error error =>
      rw [nextMessage_rejected hprelude hcheck] at hnone
      cases hnone
  | ok =>
      have htotal : totalLength parser.buf ≤ parser.buf.length := by
        rw [checkPrelude] at hcheck
        split_ifs at hcheck
        omega
      cases hcrc : checkMessageCrc parser.crcValidation (totalLength parser.buf) parser.buf with
      | error error =>
          rw [nextMessage_corrupt hprelude hcheck htotal hcrc] at hnone
          cases hnone
      | ok =>
          rw [nextMessage_complete hprelude hcheck htotal hcrc] at hnone
          cases hread : readMessage (parser.buf.take (totalLength parser.buf)) <;>
            rw [hread] at hnone <;> cases hnone

/-- Unless a message of the stream is skipped, what is held back between the chunks is
shorter than the longest message. -/
theorem translateChunks_bounded (crcValidation : CrcValidation) (chunks : List Bytes) :
    let parser := EventStreamParser.new.withCrcValidation crcValidation
    (∀ after ∈ (translateChunks describe parser chunks).2,
      after.buf.length < defaultMaxMessageBytes) ∨
        ∃ output ∈ (parser.push chunks.flatten).drain.1, relay describe output = .skipped := by
  intro parser
  obtain ⟨-, hdrained⟩ := @translateChunks_spec describe parser chunks
  rw [EventStreamParser.drain_eq]
  refine (hdrained (congrArg Prod.fst (parser.decoder.drain_of_none rfl))).imp_left ?_
  intro hall after hafter
  obtain ⟨hnone, hcap⟩ := hall after hafter
  have hlength := hnone.length_lt
  rw [hcap] at hlength
  exact hlength

/-! ## From the wire to the client -/

/-- Complete messages in a row are read one after the other. -/
theorem drain_wires (parser : EventStreamParser) {wires : List Bytes}
    {messages : List EventStreamMessage}
    (hwires : List.Forall₂ (fun wire message => parser.EmittedFrom (.ok message) wire)
      wires messages) :
    (parser.decoder.drain wires.flatten).1 = messages.map .ok := by
  induction hwires with
  | nil =>
      have hempty : parser.decoder.next [] = (none, []) := rfl
      exact congrArg Prod.fst (parser.decoder.drain_of_none hempty)
  | cons hwire _ ih =>
      obtain ⟨_, ⟨⟩, hread⟩ := hwire
      have hnext := congrArg (fun read => (toOutput read.1, read.2)) hread
      rw [List.flatten_cons, parser.decoder.drain_of_some (parser.decoder.stable hnext) rfl,
        List.nil_append, ih, List.map_cons]

theorem framesOf_chunks {messages : List EventStreamMessage}
    (hchunks : ∀ message ∈ messages, IsChunk message) :
    framesOf describe (messages.map .ok) =
      (messages.map fun message => payloadToSseFrame message.payload, false) := by
  induction messages with
  | nil => rfl
  | cons message messages ih =>
      obtain ⟨hmessage, hmessages⟩ := List.forall_mem_cons.mp hchunks
      rw [List.map_cons, framesOf, relay, translateMessage_chunk hmessage, ih hmessages]
      rfl

section

variable {wires chunks : List Bytes} {messages : List EventStreamMessage}

/-- Every message is sent as its frame. -/
theorem translateChunks_frames
    (hwires : List.Forall₂
      (fun wire message => EventStreamParser.new.EmittedFrom (.ok message) wire) wires messages)
    (hchunks : ∀ message ∈ messages, IsChunk message) (hcut : chunks.flatten = wires.flatten) :
    (translateChunks describe .new chunks).1 =
      messages.map fun message => payloadToSseFrame message.payload := by
  obtain ⟨hframes, hleft⟩ := @translateChunks_spec describe .new chunks
  rw [hcut, show EventStreamParser.new.buf ++ wires.flatten = wires.flatten from rfl,
    drain_wires .new hwires] at hframes hleft
  have hdrained := (hleft (congrArg Prod.fst (PullDecoder.drain_of_none _ rfl))).resolve_right (by
    rintro ⟨_, hmem, hskipped⟩
    obtain ⟨message, hmessage, rfl⟩ := List.mem_map.mp hmem
    rw [relay, translateMessage_chunk (hchunks message hmessage)] at hskipped
    cases hskipped)
  rwa [framesLeft_eq_nil fun after hafter => (hdrained after hafter).1, List.append_nil,
    framesOf_chunks hchunks] at hframes

variable
    (hwires : List.Forall₂
      (fun wire message => EventStreamParser.new.EmittedFrom (.ok message) wire) wires messages)
    (hchunks : ∀ message ∈ messages, IsChunk message)
    (hlines : ∀ message ∈ messages, OneLine message.payload)
    (hcut : chunks.flatten = wires.flatten)

include hwires hchunks hlines hcut

/-- Messages with events on one line each reach the framer of the client as these events,
however the stream from Bedrock and the one to the client are cut. -/
theorem translateChunks_delivers :
    ∃ events, List.Forall₂ Delivers events messages ∧
      Frames (translateChunks describe .new chunks).1.flatten events := by
  rw [translateChunks_frames hwires hchunks hcut]
  obtain ⟨events, hdelivers, hdrain⟩ := drain_frames hchunks hlines (.inl rfl)
  exact ⟨events, hdelivers, frames_iff.mpr hdrain⟩

end

theorem exists_ping_wire :
    ∃ wire, EventStreamParser.new.EmittedFrom (.ok (chunkMessage pingPayload)) wire := by
  have hheaders : parseHeaders (ascii "\x0b:event-type\x07\x00\x05chunk") =
      .ok (chunkMessage pingPayload).headers := rfl
  have hread := @nextMessage_encodeMessage _ pingPayload .yes defaultMaxMessageBytes _
    (by decide) hheaders
  rw [if_neg (by decide)] at hread
  generalize hstep : nextMessage .yes defaultMaxMessageBytes _ = step at hread
  obtain ⟨_, rest⟩ := step
  subst hread
  obtain ⟨wire, -, -, hwire⟩ := exists_piece_of_nextMessage hstep
  exact ⟨wire, _, rfl, hwire⟩

theorem oneLine_pingPayload : OneLine pingPayload :=
  ⟨List.all_eq_true.mp (by decide), by decide⟩

theorem translateChunks_delivers_ping :
    ∃ wire events, List.Forall₂ Delivers events [chunkMessage pingPayload] ∧
      Frames (translateChunks (fun _ => .empty) .new [wire]).1.flatten events := by
  obtain ⟨wire, hwire⟩ := exists_ping_wire
  exact ⟨wire, translateChunks_delivers (.cons hwire .nil)
    (List.forall_mem_singleton.mpr (chunkMessage_isChunk ⟨_, rfl⟩))
    (List.forall_mem_singleton.mpr oneLine_pingPayload) rfl⟩

end

end Legroom.Bedrock
