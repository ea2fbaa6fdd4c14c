import Legroom.Bedrock.EventStream
import Legroom.Lib.PullDecoder

/-!
# Chunk invariance of the EventStream parser

Everything `next_message` decides, it decides on the prelude or on the bytes of
one complete message, and both stay in place when more input follows.  So the
parser is a pull decoder whose errors are fatal, and the bytes of the messages
it emits, followed by its buffer, are the bytes it was given.
-/

namespace Legroom.Bedrock

/-! ## Decisions on a prefix -/

variable {buf : Bytes}
variable (more : Bytes)

theorem totalLength_append (hprelude : preludeLen ≤ buf.length) :
    totalLength (buf ++ more) = totalLength buf := by
  rw [preludeLen] at hprelude
  rw [totalLength, totalLength, sliceRange_append_left (by omega)]

theorem headersLength_append (hprelude : preludeLen ≤ buf.length) :
    headersLength (buf ++ more) = headersLength buf := by
  rw [preludeLen] at hprelude
  rw [headersLength, headersLength, sliceRange_append_left (by omega)]

theorem preludeCrc_append (hprelude : preludeLen ≤ buf.length) :
    preludeCrc (buf ++ more) = preludeCrc buf := by
  rw [preludeLen] at hprelude
  rw [preludeCrc, preludeCrc, sliceRange_append_left (by omega)]

variable {crcValidation : CrcValidation} {maxMessageBytes : ℕ}

theorem checkPrelude_append (hprelude : preludeLen ≤ buf.length) :
    checkPrelude crcValidation maxMessageBytes (buf ++ more) =
      checkPrelude crcValidation maxMessageBytes buf := by
  have hlengths : sliceRange (buf ++ more) 0 8 = sliceRange buf 0 8 := by
    rw [preludeLen] at hprelude
    exact sliceRange_append_left (by omega)
  simp only [checkPrelude, totalLength_append more hprelude,
    headersLength_append more hprelude, preludeCrc_append more hprelude, hlengths]

theorem checkMessageCrc_append {total : ℕ} (htotal : total ≤ buf.length) :
    checkMessageCrc crcValidation total (buf ++ more) =
      checkMessageCrc crcValidation total buf := by
  have hcovered : sliceRange (buf ++ more) 0 (total - messageCrcLen) =
      sliceRange buf 0 (total - messageCrcLen) :=
    sliceRange_append_left (by omega)
  simp only [checkMessageCrc, sliceRange_append_left htotal, hcovered]

/-- The buffer holds all that `next_message` looks at: a prelude that it
rejects, or a complete message. -/
def Decided (crcValidation : CrcValidation) (maxMessageBytes : ℕ)
    (buf : Bytes) : Prop :=
  preludeLen ≤ buf.length ∧
    ((checkPrelude crcValidation maxMessageBytes buf).isOk →
      totalLength buf ≤ buf.length)

theorem nextMessage_short (hshort : buf.length < preludeLen) :
    nextMessage crcValidation maxMessageBytes buf = (.ok none, buf) := by
  rw [nextMessage, if_pos hshort]

variable {error : ParseError}

theorem nextMessage_rejected (hprelude : preludeLen ≤ buf.length)
    (hcheck : checkPrelude crcValidation maxMessageBytes buf = .error error) :
    nextMessage crcValidation maxMessageBytes buf = (.error error, buf) := by
  rw [nextMessage, if_neg (by omega), hcheck]

theorem nextMessage_incomplete (hprelude : preludeLen ≤ buf.length)
    (hcheck : checkPrelude crcValidation maxMessageBytes buf = .ok ())
    (htotal : buf.length < totalLength buf) :
    nextMessage crcValidation maxMessageBytes buf = (.ok none, buf) := by
  rw [nextMessage, if_neg (by omega), hcheck]
  simp only [if_pos htotal]

theorem nextMessage_corrupt (hprelude : preludeLen ≤ buf.length)
    (hcheck : checkPrelude crcValidation maxMessageBytes buf = .ok ())
    (htotal : totalLength buf ≤ buf.length)
    (hcrc : checkMessageCrc crcValidation (totalLength buf) buf = .error error) :
    nextMessage crcValidation maxMessageBytes buf = (.error error, buf) := by
  rw [nextMessage, if_neg (by omega), hcheck]
  simp only [if_neg (Nat.not_lt.mpr htotal), hcrc]

theorem nextMessage_complete (hprelude : preludeLen ≤ buf.length)
    (hcheck : checkPrelude crcValidation maxMessageBytes buf = .ok ())
    (htotal : totalLength buf ≤ buf.length)
    (hcrc : checkMessageCrc crcValidation (totalLength buf) buf = .ok ()) :
    nextMessage crcValidation maxMessageBytes buf =
      ((readMessage (buf.take (totalLength buf))).map some,
        buf.drop (totalLength buf)) := by
  rw [nextMessage, if_neg (by omega), hcheck]
  simp only [if_neg (Nat.not_lt.mpr htotal), hcrc]

/-- Everything one request can do. -/
theorem nextMessage_cases (crcValidation : CrcValidation) (maxMessageBytes : ℕ)
    (buf : Bytes) :
    nextMessage crcValidation maxMessageBytes buf = (.ok none, buf) ∨
    (∃ error, Decided crcValidation maxMessageBytes buf ∧
      nextMessage crcValidation maxMessageBytes buf = (.error error, buf)) ∨
    (preludeLen ≤ buf.length ∧
      checkPrelude crcValidation maxMessageBytes buf = .ok () ∧
      totalLength buf ≤ buf.length ∧
      checkMessageCrc crcValidation (totalLength buf) buf = .ok () ∧
      nextMessage crcValidation maxMessageBytes buf =
        ((readMessage (buf.take (totalLength buf))).map some,
          buf.drop (totalLength buf))) := by
  by_cases hprelude : preludeLen ≤ buf.length
  · cases hcheck : checkPrelude crcValidation maxMessageBytes buf with
    | error error =>
        have hrejected : Decided crcValidation maxMessageBytes buf :=
          ⟨hprelude, fun hok => by simp [hcheck, Except.isOk, Except.toBool] at hok⟩
        exact Or.inr (Or.inl ⟨error, hrejected, nextMessage_rejected hprelude hcheck⟩)
    | ok _ =>
        by_cases htotal : totalLength buf ≤ buf.length
        · cases hcrc : checkMessageCrc crcValidation (totalLength buf) buf with
          | error error =>
              exact Or.inr (Or.inl ⟨error, ⟨hprelude, fun _ => htotal⟩,
                nextMessage_corrupt hprelude hcheck htotal hcrc⟩)
          | ok _ =>
              exact Or.inr (Or.inr ⟨hprelude, rfl, htotal, rfl,
                nextMessage_complete hprelude hcheck htotal hcrc⟩)
        · exact Or.inl (nextMessage_incomplete hprelude hcheck (by omega))
  · exact Or.inl (nextMessage_short (by omega))

/-- A decided outcome does not change when more input follows. -/
theorem nextMessage_append (hdecided : Decided crcValidation maxMessageBytes buf) :
    nextMessage crcValidation maxMessageBytes (buf ++ more) =
      ((nextMessage crcValidation maxMessageBytes buf).1,
        (nextMessage crcValidation maxMessageBytes buf).2 ++ more) := by
  obtain ⟨hprelude, hcomplete⟩ := hdecided
  have hlong : preludeLen ≤ (buf ++ more).length := by
    rw [List.length_append]
    omega
  have hcheckAppend : checkPrelude crcValidation maxMessageBytes (buf ++ more) =
      checkPrelude crcValidation maxMessageBytes buf := checkPrelude_append more hprelude
  cases hcheck : checkPrelude crcValidation maxMessageBytes buf with
  | error error =>
      rw [nextMessage_rejected hprelude hcheck,
        nextMessage_rejected hlong (hcheckAppend.trans hcheck)]
  | ok _ =>
      have htotal : totalLength buf ≤ buf.length :=
        hcomplete (by rw [hcheck]; rfl)
      have htotalAppend := totalLength_append more hprelude
      have hlonger : totalLength (buf ++ more) ≤ (buf ++ more).length := by
        rw [htotalAppend, List.length_append]
        omega
      have hcrcAppend : checkMessageCrc crcValidation (totalLength (buf ++ more))
          (buf ++ more) = checkMessageCrc crcValidation (totalLength buf) buf := by
        rw [htotalAppend, checkMessageCrc_append more htotal]
      cases hcrc : checkMessageCrc crcValidation (totalLength buf) buf with
      | error error =>
          rw [nextMessage_corrupt hprelude hcheck htotal hcrc,
            nextMessage_corrupt hlong (hcheckAppend.trans hcheck) hlonger
              (hcrcAppend.trans hcrc)]
      | ok _ =>
          rw [nextMessage_complete hprelude hcheck htotal hcrc,
            nextMessage_complete hlong (hcheckAppend.trans hcheck) hlonger
              (hcrcAppend.trans hcrc),
            htotalAppend, List.take_append_of_le_length htotal,
            List.drop_append_of_le_length htotal]

theorem map_some_ne_ok_none {A B : Type*} (result : Except A B) :
    result.map some ≠ .ok none := by
  cases result <;> simp [Except.map]

/-- Waiting leaves the buffer as it is. -/
theorem eq_of_nextMessage_none {rest : Bytes}
    (hnext : nextMessage crcValidation maxMessageBytes buf = (.ok none, rest)) : rest = buf := by
  rcases nextMessage_cases crcValidation maxMessageBytes buf with
    hwait | ⟨error, -, herror⟩ | ⟨-, -, -, -, hmessage⟩
  · rw [hwait] at hnext
    cases hnext
    rfl
  · rw [herror] at hnext
    cases hnext
  · rw [hmessage] at hnext
    exact absurd (congrArg Prod.fst hnext) (map_some_ne_ok_none _)

/-- Only a decided buffer yields a message or an error. -/
theorem decided_of_nextMessage
    (hnext : (nextMessage crcValidation maxMessageBytes buf).1 ≠ .ok none) :
    Decided crcValidation maxMessageBytes buf := by
  rcases nextMessage_cases crcValidation maxMessageBytes buf with
    hwait | ⟨error, hdecided, -⟩ | ⟨hprelude, -, htotal, -, -⟩
  · rw [hwait] at hnext
    exact absurd rfl hnext
  · exact hdecided
  · exact ⟨hprelude, fun _ => htotal⟩

/-- An accepted prelude announces at least itself and the trailing CRC. -/
theorem le_totalLength (hcheck : checkPrelude crcValidation maxMessageBytes buf = .ok ()) :
    preludeLen + headersLength buf + messageCrcLen ≤ totalLength buf := by
  rw [checkPrelude] at hcheck
  split_ifs at hcheck with himplausible
  all_goals exact Nat.not_lt.mp himplausible

variable {message : EventStreamMessage}

/-- An emitted message takes exactly its own bytes off the buffer, and those
bytes alone make up the message. -/
theorem exists_piece_of_nextMessage {rest : Bytes}
    (hnext : nextMessage crcValidation maxMessageBytes buf = (.ok (some message), rest)) :
    ∃ piece, buf = piece ++ rest ∧ 0 < piece.length ∧
      nextMessage crcValidation maxMessageBytes piece = (.ok (some message), []) := by
  rcases nextMessage_cases crcValidation maxMessageBytes buf with
    hwait | ⟨error, -, herror⟩ | ⟨hprelude, hcheck, htotal, -, hmessage⟩
  · rw [hwait] at hnext
    cases hnext
  · rw [herror] at hnext
    cases hnext
  · have hmin := le_totalLength hcheck
    have hsplit := List.take_append_drop (totalLength buf) buf
    have hlength : (buf.take (totalLength buf)).length = totalLength buf := by
      rw [List.length_take]
      omega
    have hsame : totalLength (buf.take (totalLength buf)) = totalLength buf := by
      rw [← totalLength_append (buf.drop (totalLength buf)) (by omega), hsplit]
    have hdecided : Decided crcValidation maxMessageBytes (buf.take (totalLength buf)) :=
      ⟨by omega, fun _ => by omega⟩
    have happend := nextMessage_append (buf.drop (totalLength buf)) hdecided
    rw [hsplit, hnext, Prod.mk.injEq] at happend
    have hrest : buf.drop (totalLength buf) = rest := by
      have := congrArg Prod.snd (hmessage.symm.trans hnext)
      exact this
    have hnil : (nextMessage crcValidation maxMessageBytes
        (buf.take (totalLength buf))).2 = [] := by
      rw [hrest] at happend
      exact List.self_eq_append_left.mp happend.2
    refine ⟨buf.take (totalLength buf), ?_, ?_, ?_⟩
    · rw [← hrest, hsplit]
    · rw [hlength]
      rw [preludeLen] at hmin
      omega
    · exact Prod.ext happend.1.symm hnil

/-! ## The parser as a pull decoder -/

/-- A message or an error; waiting is no output. -/
def toOutput : Except ParseError (Option EventStreamMessage) →
    Option (Except ParseError EventStreamMessage)
  | .ok none => none
  | .ok (some message) => some (.ok message)
  | .error error => some (.error error)

def isError : Except ParseError EventStreamMessage → Bool
  | .ok _ => false
  | .error _ => true

variable {result : Except ParseError (Option EventStreamMessage)}

theorem toOutput_eq_none (hresult : toOutput result = none) : result = .ok none := by
  rcases result with error | (_ | message)
  · cases hresult
  · rfl
  · cases hresult

theorem toOutput_eq_some_ok (hresult : toOutput result = some (.ok message)) :
    result = .ok (some message) := by
  rcases result with error | (_ | found)
  · cases hresult
  · cases hresult
  · cases hresult
    rfl

/-- The parser's buffer as a pull decoder.  Errors are fatal. -/
def messageDecoder (crcValidation : CrcValidation) (maxMessageBytes : ℕ) :
    PullDecoder Byte (Except ParseError EventStreamMessage) where
  next buf :=
    (toOutput (nextMessage crcValidation maxMessageBytes buf).1,
      (nextMessage crcValidation maxMessageBytes buf).2)
  fatal := isError
  stable := by
    intro buf rest more output hnext
    obtain ⟨houtput, hrest⟩ := Prod.mk.inj hnext
    have hdecided : Decided crcValidation maxMessageBytes buf := by
      apply decided_of_nextMessage
      intro hwait
      rw [hwait] at houtput
      cases houtput
    rw [nextMessage_append more hdecided, houtput, hrest]
  resume := by
    intro buf rest more hnext
    obtain ⟨houtput, hrest⟩ := Prod.mk.inj hnext
    rw [eq_of_nextMessage_none (Prod.ext (toOutput_eq_none houtput) hrest)]
  progress := by
    intro buf rest output hnext hfatal
    obtain ⟨houtput, hrest⟩ := Prod.mk.inj hnext
    cases output with
    | error error => cases hfatal
    | ok message =>
        obtain ⟨piece, hbuf, hpiece, -⟩ := exists_piece_of_nextMessage
          (Prod.ext (toOutput_eq_some_ok houtput) hrest)
        rw [hbuf, List.length_append]
        omega

/-! ## Runs of the parser itself -/

inductive ParserCall where
  | push (chunk : Bytes)
  | nextMessage
  deriving DecidableEq

/-- The byte stream that a sequence of calls pushes. -/
def ParserCall.stream : List ParserCall → Bytes
  | [] => []
  | .push chunk :: calls => chunk ++ stream calls
  | .nextMessage :: calls => stream calls

/-- The outputs up to and including the first error. -/
def upToError : List (Except ParseError EventStreamMessage) →
    List (Except ParseError EventStreamMessage)
  | [] => []
  | .ok message :: outputs => .ok message :: upToError outputs
  | .error error :: _ => [.error error]

namespace EventStreamParser

/-- The messages and errors that a sequence of calls yields, in order, and the
parser afterwards. -/
def runCalls : EventStreamParser → List ParserCall →
    List (Except ParseError EventStreamMessage) × EventStreamParser
  | parser, [] => ([], parser)
  | parser, .push chunk :: calls => runCalls (parser.push chunk) calls
  | parser, .nextMessage :: calls =>
      let later := runCalls parser.nextMessage.2 calls
      ((toOutput parser.nextMessage.1).toList ++ later.1, later.2)

/-- The decoder that reads this parser's buffer. -/
def decoder (parser : EventStreamParser) :
    PullDecoder Byte (Except ParseError EventStreamMessage) :=
  messageDecoder parser.crcValidation parser.maxMessageBytes

variable (parser : EventStreamParser)

@[simp]
theorem decoder_push (chunk : Bytes) : (parser.push chunk).decoder = parser.decoder :=
  rfl

@[simp]
theorem fatal_decoder : parser.decoder.fatal = isError :=
  rfl

variable {parser after : EventStreamParser}

/-- A request to the parser is a request to its decoder: the configuration
stays as it is. -/
theorem decoder_of_nextMessage {result : Except ParseError (Option EventStreamMessage)}
    (hnext : parser.nextMessage = (result, after)) :
    parser.decoder.next parser.buf = (toOutput result, after.buf) ∧
      after = { parser with buf := after.buf } := by
  rw [nextMessage] at hnext
  cases hnext
  exact ⟨rfl, rfl⟩

theorem length_of_nextMessage {message : EventStreamMessage}
    (hnext : parser.nextMessage = (.ok (some message), after)) :
    after.buf.length < parser.buf.length :=
  parser.decoder.progress (decoder_of_nextMessage hnext).1 rfl

/-- Call `next_message` until it waits or fails. -/
def drain (parser : EventStreamParser) :
    List (Except ParseError EventStreamMessage) × EventStreamParser :=
  match _hnext : parser.nextMessage with
  | (.ok none, after) => ([], after)
  | (.error error, after) => ([.error error], after)
  | (.ok (some message), after) =>
      let later := drain after
      (.ok message :: later.1, later.2)
termination_by parser.buf.length
decreasing_by exact length_of_nextMessage _hnext

variable (parser : EventStreamParser)

/-- Draining the parser drains its buffer. -/
theorem drain_eq :
    parser.drain = ((parser.decoder.drain parser.buf).1,
      { parser with buf := (parser.decoder.drain parser.buf).2 }) := by
  induction hlength : parser.buf.length using Nat.strong_induction_on
    generalizing parser with
  | _ length ih =>
      subst hlength
      rw [drain]
      split
      · rename_i after hnext
        obtain ⟨hdecoder, hafter⟩ := decoder_of_nextMessage hnext
        rw [parser.decoder.drain_of_none hdecoder, ← hafter]
      · rename_i error after hnext
        obtain ⟨hdecoder, hafter⟩ := decoder_of_nextMessage hnext
        rw [parser.decoder.drain_of_fatal hdecoder rfl, ← hafter]
      · rename_i message after hnext
        obtain ⟨hdecoder, hafter⟩ := decoder_of_nextMessage hnext
        have hsame : after.decoder = parser.decoder := by rw [hafter]; rfl
        rw [ih _ (length_of_nextMessage hnext) after rfl,
          parser.decoder.drain_of_some hdecoder rfl, hsame, hafter]

/-- The decoder calls behind parser calls. -/
def toCalls : List ParserCall → List (PullDecoder.Call Byte)
  | [] => []
  | .push chunk :: calls => .push chunk :: toCalls calls
  | .nextMessage :: calls => .pull :: toCalls calls

variable (calls : List ParserCall)

theorem pushed_toCalls : PullDecoder.pushed (toCalls calls) = ParserCall.stream calls := by
  induction calls with
  | nil => rfl
  | cons call calls ih =>
      cases call <;> simp [toCalls, PullDecoder.pushed, ParserCall.stream, ih]

/-- Up to the first error, calls to the parser yield what the decoder yields;
without an error they leave the same buffer. -/
theorem runCalls_eq (calls : List ParserCall) :
    upToError (parser.runCalls calls).1 =
        (parser.decoder.runCalls parser.buf (toCalls calls)).1 ∧
      ((parser.runCalls calls).1.any isError = false →
        parser.runCalls calls =
          ((parser.decoder.runCalls parser.buf (toCalls calls)).1,
            { parser with
              buf := (parser.decoder.runCalls parser.buf (toCalls calls)).2 })) := by
  induction calls generalizing parser with
  | nil => exact ⟨rfl, fun _ => rfl⟩
  | cons call calls ih =>
      cases call with
      | push chunk => exact ih (parser.push chunk)
      | nextMessage =>
          rcases hnext : parser.nextMessage with ⟨result, after⟩
          obtain ⟨hdecoder, hafter⟩ := decoder_of_nextMessage hnext
          have hsame : after.decoder = parser.decoder := by rw [hafter]; rfl
          obtain ⟨hupTo, hrest⟩ := ih after
          rw [hsame] at hupTo hrest
          rw [runCalls, toCalls, hnext]
          rcases result with error | (_ | message)
          · rw [parser.decoder.runCalls_pull_of_fatal _ hdecoder rfl]
            exact ⟨rfl, fun hclean => by simp [toOutput, isError] at hclean⟩
          · rw [parser.decoder.runCalls_pull_of_none _ hdecoder]
            refine ⟨hupTo, fun hclean => ?_⟩
            exact (hrest hclean).trans (by rw [hafter])
          · rw [parser.decoder.runCalls_pull_of_some _ hdecoder rfl]
            refine ⟨congrArg (List.cons _) hupTo, fun hclean => ?_⟩
            rw [List.any_append, Bool.or_eq_false_iff] at hclean
            rw [hrest hclean.2, hafter]
            rfl

@[simp]
theorem any_upToError (outputs : List (Except ParseError EventStreamMessage)) :
    (upToError outputs).any isError = outputs.any isError := by
  induction outputs with
  | nil => rfl
  | cons output outputs ih =>
      cases output with
      | error error => simp [upToError, isError]
      | ok message => rw [upToError, List.any_cons, List.any_cons, ih]

theorem upToError_append (outputs later : List (Except ParseError EventStreamMessage)) :
    upToError (outputs ++ later) =
      if outputs.any isError then upToError outputs
      else upToError outputs ++ upToError later := by
  induction outputs with
  | nil => rfl
  | cons output outputs ih =>
      cases output with
      | error error => rfl
      | ok message =>
          rw [List.cons_append, upToError, ih, List.any_cons, upToError]
          by_cases hany : outputs.any isError <;> simp [hany, isError]

theorem upToError_drain : upToError parser.drain.1 = parser.drain.1 := by
  induction hlength : parser.buf.length using Nat.strong_induction_on
    generalizing parser with
  | _ length ih =>
      subst hlength
      rw [drain]
      split
      · rfl
      · rfl
      · rename_i message after hnext
        rw [upToError, ih _ (length_of_nextMessage hnext) after rfl]

/-- Calls completed by a drain yield the messages of draining the whole stream,
up to and including the first error. -/
theorem upToError_runCalls_drain :
    upToError ((parser.runCalls calls).1 ++ (parser.runCalls calls).2.drain.1) =
      (parser.push (ParserCall.stream calls)).drain.1 := by
  obtain ⟨hupTo, hclean⟩ := parser.runCalls_eq calls
  have hwhole : (parser.push (ParserCall.stream calls)).drain.1 =
      (parser.decoder.finish
        (parser.decoder.runCalls parser.buf (toCalls calls))).1 := by
    rw [parser.decoder.finish_runCalls, pushed_toCalls, drain_eq]
    rfl
  rw [hwhole, upToError_append, PullDecoder.finish, ← hupTo, fatal_decoder,
    any_upToError]
  by_cases hany : (parser.runCalls calls).1.any isError
  · rw [if_pos hany, if_pos hany, hupTo]
  · rw [if_neg hany, if_neg hany, upToError_drain, drain_eq, hupTo]
    rw [hclean (by simpa using hany)]
    rfl

/-- The bytes of an emitted message: they are a complete message by themselves. -/
def EmittedFrom (parser : EventStreamParser)
    (output : Except ParseError EventStreamMessage) (piece : Bytes) : Prop :=
  ∃ message, output = .ok message ∧
    Bedrock.nextMessage parser.crcValidation parser.maxMessageBytes piece =
      (.ok (some message), [])

/-- Without an error, no byte is lost or invented. -/
theorem runCalls_lossless (hok : (parser.runCalls calls).1.any isError = false) :
    ∃ pieces, List.Forall₂ parser.EmittedFrom (parser.runCalls calls).1 pieces ∧
      parser.buf ++ ParserCall.stream calls =
        pieces.flatten ++ (parser.runCalls calls).2.buf := by
  obtain ⟨hupTo, hclean⟩ := parser.runCalls_eq calls
  have hwait : ∀ {buf rest : Bytes},
      parser.decoder.next buf = (none, rest) → rest = buf := by
    intro buf rest hnext
    obtain ⟨houtput, hrest⟩ := Prod.mk.inj hnext
    exact eq_of_nextMessage_none (Prod.ext (toOutput_eq_none houtput) hrest)
  have hcut : ∀ {buf rest : Bytes} {output : Except ParseError EventStreamMessage},
      parser.decoder.next buf = (some output, rest) →
      parser.decoder.fatal output = false →
      ∃ piece, buf = piece ++ rest ∧ parser.EmittedFrom output piece := by
    intro buf rest output hnext hfatal
    obtain ⟨houtput, hrest⟩ := Prod.mk.inj hnext
    cases output with
    | error error => cases hfatal
    | ok message =>
        obtain ⟨piece, hbuf, -, hpiece⟩ := exists_piece_of_nextMessage
          (Prod.ext (toOutput_eq_some_ok houtput) hrest)
        exact ⟨piece, hbuf, message, rfl, hpiece⟩
  have hran : ∀ output ∈ (parser.decoder.runCalls parser.buf (toCalls calls)).1,
      parser.decoder.fatal output = false := by
    rw [← hupTo, fatal_decoder]
    rw [← any_upToError] at hok
    simpa only [List.any_eq_false, Bool.not_eq_true] using hok
  have hpieces := parser.decoder.runCalls_lossless parser.EmittedFrom hwait hcut
    parser.buf (toCalls calls) hran
  rw [hclean hok, ← pushed_toCalls]
  exact hpieces

/-- However the stream is cut into chunks and however the requests for messages
are interleaved with them, the parser yields the messages of the whole stream
pushed at once, up to and including the first error.  While there is no error,
the bytes of the emitted messages followed by the buffer are the stream. -/
theorem runCalls_chunk_invariant_lossless (crcValidation : CrcValidation)
    (maxMessageBytes : ℕ) (calls : List ParserCall) :
    let parser := (new.withCrcValidation crcValidation).withMaxMessageBytes
      maxMessageBytes
    let ran := parser.runCalls calls
    upToError (ran.1 ++ ran.2.drain.1) =
        (parser.push (ParserCall.stream calls)).drain.1 ∧
      (ran.1.any isError = false →
        ∃ pieces, List.Forall₂ parser.EmittedFrom ran.1 pieces ∧
          ParserCall.stream calls = pieces.flatten ++ ran.2.buf) := by
  intro parser ran
  exact ⟨parser.upToError_runCalls_drain calls, parser.runCalls_lossless calls⟩

end EventStreamParser

end Legroom.Bedrock
