import Legroom.Bedrock.EventStreamChunks

/-!
# Building EventStream messages

`MessageBuilder` writes the wire format that `EventStreamParser` reads.  A name
longer than a byte can count is refused; every other length is cast to the width
of its field.  This file proves what the parser makes of the bytes: as long as
the casts are exact, a message within the parser's cap comes back, with the
headers as the parser's map stores them, and a longer one is refused.
-/

namespace Legroom.Bedrock

open Utf8

/-! ## The builder -/

structure MessageBuilder where
  headers : List (Utf8String × HeaderValue)
  payload : Bytes

/-- `as u16` and `as u32`. -/
def asU16 (length : ℕ) : ℕ := length % 2 ^ 16
def asU32 (length : ℕ) : ℕ := length % 2 ^ 32

namespace HeaderValue

/-- The bytes of a value behind its length. -/
def content : HeaderValue → Bytes
  | .string text => text.bytes
  | .bytes raw => raw

def valueType : HeaderValue → Byte
  | .string _ => HeaderType.string
  | .bytes _ => HeaderType.byteArray

/-- The value type, the two-byte length and the value itself. -/
def encode (value : HeaderValue) : Bytes :=
  value.valueType :: (toBe 2 (asU16 value.content.length) ++ value.content)

end HeaderValue

/-- One header on the wire, behind the assertion on the length of its name. -/
def encodeHeader : Utf8String × HeaderValue → Option Bytes
  | (name, value) =>
      if name.bytes.length ≤ 255 then
        some (toBe 1 name.bytes.length ++ (name.bytes ++ value.encode))
      else none

variable {wire : Bytes}
variable {header : Utf8String × HeaderValue}

theorem length_encodeHeader_pos (hencode : encodeHeader header = some wire) : 0 < wire.length := by
  obtain ⟨name, value⟩ := header
  rw [encodeHeader] at hencode
  split_ifs at hencode
  cases hencode
  simp

namespace MessageBuilder

def new : MessageBuilder := ⟨[], []⟩

def headerString (builder : MessageBuilder) (name value : Utf8String) :
    MessageBuilder :=
  { builder with headers := builder.headers ++ [(name, .string value)] }

def headerBytes (builder : MessageBuilder) (name : Utf8String) (value : Bytes) :
    MessageBuilder :=
  { builder with headers := builder.headers ++ [(name, .bytes value)] }

def withPayload (builder : MessageBuilder) (payload : Bytes) : MessageBuilder :=
  { builder with payload := payload }

/-- The loop over the headers; `none` when the assertion fails. -/
def encodeHeaders : List (Utf8String × HeaderValue) → Option Bytes
  | [] => some []
  | header :: headers => do
      let first ← encodeHeader header
      let rest ← encodeHeaders headers
      return first ++ rest

/-- The prelude behind the two lengths that it counts. -/
def encodePrelude (totalLen headersLen : ℕ) : Bytes :=
  let lengths := toBe 4 totalLen ++ toBe 4 headersLen
  lengths ++ toBe 4 (crc32 lengths)

/-- The message around its encoded headers.  The sum of the `u32` lengths
wraps, as in a release build. -/
def encodeMessage (headersBytes payload : Bytes) : Bytes :=
  let headersLen := asU32 headersBytes.length
  let totalLen := asU32 (preludeLen + headersLen + asU32 payload.length + messageCrcLen)
  let out := encodePrelude totalLen headersLen ++ (headersBytes ++ payload)
  out ++ toBe 4 (crc32 out)

def build (builder : MessageBuilder) : Option Bytes :=
  (encodeHeaders builder.headers).map fun headersBytes =>
    encodeMessage headersBytes builder.payload

end MessageBuilder

/-! ## Reading a header back -/

variable (offset : ℕ)

theorem read_append (head rest : Bytes) :
    Cursor.read ⟨offset, head ++ rest⟩ head.length =
      .ok (head, ⟨offset + head.length, rest⟩) := by
  rw [Cursor.read, if_neg (by simp)]
  simp

variable {head : Bytes}

/-- A field of known width in front of the rest. -/
theorem read_of_length {offset width : ℕ} (rest : Bytes) (hwidth : head.length = width) :
    Cursor.read ⟨offset, head ++ rest⟩ width = .ok (head, ⟨offset + width, rest⟩) := by
  rw [← hwidth, read_append]

theorem readPrefixed_append {content : Bytes} (rest : Bytes) (hlength : content.length < 2 ^ 16) :
    readPrefixed ⟨offset, toBe 2 (asU16 content.length) ++ (content ++ rest)⟩ =
      .ok (content, ⟨offset + 2 + content.length, rest⟩) := by
  have hsame : fromBe (toBe 2 (asU16 content.length)) = content.length := by
    rw [asU16, Nat.mod_eq_of_lt hlength]
    exact fromBe_toBe_of_lt hlength
  rw [readPrefixed, read_of_length _ (length_toBe 2 _)]
  simp only [bind, Except.bind, hsame, read_append]

variable {value : HeaderValue}

/-- The parser reads back every value whose length fits its field. -/
theorem readValue_append (rest : Bytes) (hlength : value.content.length < 2 ^ 16) :
    readValue value.valueType
        ⟨offset, toBe 2 (asU16 value.content.length) ++ (value.content ++ rest)⟩ =
      .ok (value, ⟨offset + 2 + value.content.length, rest⟩) := by
  have hbeginsed := readPrefixed_append offset rest hlength
  cases value with
  | string text =>
      rw [HeaderValue.valueType, readValue, if_pos rfl, readString, hbeginsed]
      simp only [bind, Except.bind, HeaderValue.content, fromUtf8_of_valid text.valid]
      rfl
  | bytes bytes =>
      rw [HeaderValue.valueType, readValue, if_neg (by decide), if_pos rfl, hbeginsed]
      rfl

/-- The parser reads back every header that the builder accepts, under the
lowercased name, if the length of its value fits its field. -/
theorem readHeader_append (rest : Bytes) (hencode : encodeHeader header = some wire)
    (hlength : header.2.content.length < 2 ^ 16) :
    readHeader ⟨offset, wire ++ rest⟩ =
      .ok ((toAsciiLowercase header.1, header.2), ⟨offset + wire.length, rest⟩) := by
  obtain ⟨name, value⟩ := header
  rw [encodeHeader] at hencode
  split_ifs at hencode with hname
  cases hencode
  have hnameLen : fromBe (toBe 1 name.bytes.length) = name.bytes.length :=
    fromBe_toBe_of_lt (by omega)
  have hvalue := readValue_append (offset + 1 + name.bytes.length + 1) rest hlength
  have htype : ∀ offset rest, Cursor.read ⟨offset, value.valueType :: rest⟩ 1 =
      .ok ([value.valueType], ⟨offset + 1, rest⟩) := by
    intro offset rest
    exact read_append offset [value.valueType] rest
  rw [List.append_assoc, List.append_assoc, HeaderValue.encode, List.cons_append,
    List.append_assoc, readHeader, read_of_length _ (length_toBe 1 _)]
  simp only [bind, Except.bind, hnameLen, read_append, fromUtf8_of_valid name.valid,
    pure, Except.pure, htype, List.headD_cons, hvalue]
  have hend : offset + 1 + name.bytes.length + 1 + 2 + value.content.length =
      offset + (toBe 1 name.bytes.length ++ (name.bytes ++ value.valueType ::
        (toBe 2 (asU16 value.content.length) ++ value.content))).length := by
    simp only [List.length_append, List.length_cons, length_toBe]
    omega
  rw [hend]

/-- What the parser's map holds after the headers, each replacing an earlier one
of the same lowercased name. -/
def storeHeaders (headers : List (Utf8String × HeaderValue)) (out : HeaderMap) :
    HeaderMap :=
  headers.foldl (fun out header => out.insert (toAsciiLowercase header.1) header.2) out

theorem storeHeaders_cons (header : Utf8String × HeaderValue)
    (headers : List (Utf8String × HeaderValue)) (out : HeaderMap) :
    storeHeaders (header :: headers) out =
      storeHeaders headers (out.insert (toAsciiLowercase header.1) header.2) :=
  rfl

theorem storeHeaders_append (front later : List (Utf8String × HeaderValue))
    (out : HeaderMap) :
    storeHeaders (front ++ later) out = storeHeaders later (storeHeaders front out) :=
  List.foldl_append

variable {headers : List (Utf8String × HeaderValue)}

theorem parseHeadersLoop_append {fuel : ℕ} (out : HeaderMap)
    (hencode : MessageBuilder.encodeHeaders headers = some wire)
    (hlengths : ∀ header ∈ headers, header.2.content.length < 2 ^ 16) (hfuel : wire.length ≤ fuel) :
    parseHeadersLoop fuel ⟨offset, wire⟩ out = .ok (storeHeaders headers out) := by
  induction headers generalizing wire fuel offset out with
  | nil =>
      cases hencode
      cases fuel <;> rfl
  | cons header headers ih =>
      rw [MessageBuilder.encodeHeaders] at hencode
      simp only [bind, Option.bind_eq_some_iff] at hencode
      obtain ⟨first, hfirst, rest, hrest, hwire⟩ := hencode
      cases hwire
      have hnonempty := length_encodeHeader_pos hfirst
      rw [List.length_append] at hfuel
      cases fuel with
      | zero => omega
      | succ fuel =>
          have hstart : first ++ rest ≠ [] := by
            intro hnil
            rw [List.append_eq_nil_iff] at hnil
            rw [hnil.1] at hnonempty
            exact absurd hnonempty (by simp)
          rw [parseHeadersLoop, if_neg hstart, readHeader_append offset rest hfirst
            (hlengths header List.mem_cons_self)]
          exact ih _ _ hrest
            (fun later hlater => hlengths later (List.mem_cons_of_mem _ hlater))
            (by omega)

theorem parseHeaders_encodeHeaders (hencode : MessageBuilder.encodeHeaders headers = some wire)
    (hlengths : ∀ header ∈ headers, header.2.content.length < 2 ^ 16) :
    parseHeaders wire = .ok (storeHeaders headers ∅) :=
  parseHeadersLoop_append 0 ∅ hencode hlengths le_rfl

/-! ## Reading a message back -/

theorem sliceRange_of_append {middle tail : Bytes} {start stop : ℕ} (hstart : head.length = start)
    (hstop : start + middle.length = stop) :
    sliceRange (head ++ (middle ++ tail)) start stop = middle := by
  rw [← hstop, ← hstart, sliceRange_middle]

theorem sliceRange_zero_of_append {tail : Bytes} {stop : ℕ} (hstop : head.length = stop) :
    sliceRange (head ++ tail) 0 stop = head := by
  rw [← hstop, sliceRange, List.take_left, List.drop_zero]

section Message

variable {headersBytes payload : Bytes}

/-- The length that the prelude of a message announces. -/
def wireLength (headersBytes payload : Bytes) : ℕ :=
  preludeLen + headersBytes.length + payload.length + messageCrcLen

/-- The message without casts: what `encodeMessage` writes when they are exact. -/
theorem encodeMessage_of_lt (hsize : wireLength headersBytes payload < 2 ^ 32) :
    MessageBuilder.encodeMessage headersBytes payload =
      MessageBuilder.encodePrelude (wireLength headersBytes payload)
          headersBytes.length ++
        (headersBytes ++ (payload ++
          toBe 4 (crc32 (MessageBuilder.encodePrelude (wireLength headersBytes payload)
            headersBytes.length ++ (headersBytes ++ payload))))) := by
  have hheaders : asU32 headersBytes.length = headersBytes.length :=
    Nat.mod_eq_of_lt (by rw [wireLength] at hsize; omega)
  have hpayload : asU32 payload.length = payload.length :=
    Nat.mod_eq_of_lt (by rw [wireLength] at hsize; omega)
  have htotal : asU32 (preludeLen + headersBytes.length + payload.length +
      messageCrcLen) = wireLength headersBytes payload := Nat.mod_eq_of_lt hsize
  simp only [MessageBuilder.encodeMessage, hheaders, hpayload, htotal,
    List.append_assoc]

@[simp]
theorem length_encodePrelude (totalLen headersLen : ℕ) :
    (MessageBuilder.encodePrelude totalLen headersLen).length = preludeLen := by
  simp [MessageBuilder.encodePrelude, preludeLen]

theorem length_encodeMessage (headersBytes payload : Bytes) :
    (MessageBuilder.encodeMessage headersBytes payload).length =
      wireLength headersBytes payload := by
  simp only [MessageBuilder.encodeMessage, List.length_append, length_encodePrelude,
    length_toBe, wireLength, messageCrcLen]
  omega

/-- The words of the prelude, in front of anything. -/
theorem prelude_words {totalLen headersLen : ℕ} (rest : Bytes)
    (htotal : totalLen < 2 ^ 32) (hheaders : headersLen < 2 ^ 32) :
    totalLength (MessageBuilder.encodePrelude totalLen headersLen ++ rest) = totalLen ∧
      headersLength (MessageBuilder.encodePrelude totalLen headersLen ++ rest) =
        headersLen ∧
      preludeCrc (MessageBuilder.encodePrelude totalLen headersLen ++ rest) =
        crc32 (sliceRange (MessageBuilder.encodePrelude totalLen headersLen ++ rest)
          0 8) := by
  have hlengths : sliceRange (MessageBuilder.encodePrelude totalLen headersLen ++ rest)
      0 8 = toBe 4 totalLen ++ toBe 4 headersLen := by
    rw [MessageBuilder.encodePrelude, List.append_assoc]
    exact sliceRange_zero_of_append (by simp)
  refine ⟨?_, ?_, ?_⟩
  · rw [totalLength, MessageBuilder.encodePrelude, List.append_assoc,
      List.append_assoc, sliceRange_zero_of_append (length_toBe 4 _)]
    exact fromBe_toBe_of_lt htotal
  · rw [headersLength, MessageBuilder.encodePrelude, List.append_assoc,
      List.append_assoc, sliceRange_of_append (length_toBe 4 _) (by simp)]
    exact fromBe_toBe_of_lt hheaders
  · rw [preludeCrc, hlengths, MessageBuilder.encodePrelude, List.append_assoc,
      sliceRange_of_append (by simp) (by simp)]
    exact fromBe_toBe_of_lt (crc32_lt _)

variable {crcValidation : CrcValidation} {maxMessageBytes : ℕ}

/-- The parser's verdict on the prelude of a built message: only the cap can
refuse it. -/
theorem checkPrelude_encodeMessage (hsize : wireLength headersBytes payload < 2 ^ 32) :
    checkPrelude crcValidation maxMessageBytes
        (MessageBuilder.encodeMessage headersBytes payload) =
      if wireLength headersBytes payload > maxMessageBytes then
        .error (.messageTooLarge (wireLength headersBytes payload) maxMessageBytes)
      else .ok () := by
  have hheaders : headersBytes.length < 2 ^ 32 := by
    rw [wireLength] at hsize
    omega
  rw [encodeMessage_of_lt hsize]
  obtain ⟨htotalLength, hheadersLength, hcrc⟩ := prelude_words _ hsize hheaders
  rw [checkPrelude, htotalLength, hheadersLength, hcrc,
    if_neg (by rw [wireLength]; omega)]
  split_ifs with hcap hmismatch
  · rfl
  · exact absurd rfl hmismatch.2
  · rfl

theorem totalLength_encodeMessage (hsize : wireLength headersBytes payload < 2 ^ 32) :
    totalLength (MessageBuilder.encodeMessage headersBytes payload) =
      wireLength headersBytes payload := by
  rw [encodeMessage_of_lt hsize]
  refine (prelude_words _ hsize ?_).1
  rw [wireLength] at hsize
  omega

theorem checkMessageCrc_encodeMessage :
    checkMessageCrc crcValidation (wireLength headersBytes payload)
      (MessageBuilder.encodeMessage headersBytes payload) = .ok () := by
  obtain ⟨out, hmessage⟩ : ∃ out, MessageBuilder.encodeMessage headersBytes payload =
      out ++ (toBe 4 (crc32 out) ++ []) := ⟨_, by rw [List.append_nil]; rfl⟩
  have hlength := length_encodeMessage headersBytes payload
  rw [hmessage, List.append_nil, List.length_append, length_toBe] at hlength
  have hcovered : out.length = wireLength headersBytes payload - messageCrcLen := by
    rw [messageCrcLen]
    omega
  rw [checkMessageCrc, hmessage, sliceRange_zero_of_append hcovered,
    sliceRange_of_append hcovered (by rw [length_toBe, ← hcovered, hlength])]
  simp only [fromBe_toBe_of_lt (crc32_lt out), ne_eq, not_true_eq_false, and_false,
    if_false]

variable {headers : HeaderMap}

/-- The parser cuts the message where the builder joined it. -/
theorem readMessage_encodeMessage (hsize : wireLength headersBytes payload < 2 ^ 32)
    (hheaders : parseHeaders headersBytes = .ok headers) :
    readMessage (MessageBuilder.encodeMessage headersBytes payload) =
      .ok ⟨headers, payload⟩ := by
  have hheadersLen : headersBytes.length < 2 ^ 32 := by
    rw [wireLength] at hsize
    omega
  rw [encodeMessage_of_lt hsize]
  obtain ⟨htotalLength, hheadersLength, -⟩ := prelude_words
    (headersBytes ++ (payload ++ toBe 4 (crc32 (MessageBuilder.encodePrelude
      (wireLength headersBytes payload) headersBytes.length ++
        (headersBytes ++ payload))))) hsize hheadersLen
  rw [readMessage, htotalLength, hheadersLength,
    sliceRange_of_append (length_encodePrelude _ _) rfl, hheaders]
  simp only [bind, Except.bind, pure, Except.pure]
  rw [← List.append_assoc, sliceRange_of_append (by simp) (by
    rw [wireLength]
    omega)]

/-- The parser on a built message: it refuses what is over its cap and takes
everything else off the buffer. -/
theorem nextMessage_encodeMessage (hsize : wireLength headersBytes payload < 2 ^ 32)
    (hheaders : parseHeaders headersBytes = .ok headers) :
    (nextMessage crcValidation maxMessageBytes
        (MessageBuilder.encodeMessage headersBytes payload)).1 =
      if wireLength headersBytes payload > maxMessageBytes then
        .error (.messageTooLarge (wireLength headersBytes payload) maxMessageBytes)
      else .ok (some ⟨headers, payload⟩) := by
  have hlength := length_encodeMessage headersBytes payload
  have hprelude : preludeLen ≤
      (MessageBuilder.encodeMessage headersBytes payload).length := by
    rw [hlength, wireLength]
    omega
  have hcheck : checkPrelude crcValidation maxMessageBytes _ = _ :=
    checkPrelude_encodeMessage hsize
  split_ifs with hcap
  · rw [if_pos hcap] at hcheck
    rw [nextMessage_rejected hprelude hcheck]
  · have htotal := totalLength_encodeMessage hsize
    rw [if_neg hcap] at hcheck
    rw [nextMessage_complete hprelude hcheck (by rw [htotal, hlength])
      (by rw [htotal]; exact checkMessageCrc_encodeMessage), htotal, ← hlength,
      List.take_length, readMessage_encodeMessage hsize hheaders]
    rfl

end Message

/-- One-shot parsing of built bytes. -/
theorem parse_encodeMessage {headersBytes payload : Bytes} {headers : HeaderMap}
    (hsize : wireLength headersBytes payload < 2 ^ 32)
    (hheaders : parseHeaders headersBytes = .ok headers) :
    parse (MessageBuilder.encodeMessage headersBytes payload) =
      if wireLength headersBytes payload > defaultMaxMessageBytes then
        .error (.messageTooLarge (wireLength headersBytes payload)
          defaultMaxMessageBytes)
      else .ok ⟨headers, payload⟩ := by
  have hnext : (EventStreamParser.new.push
      (MessageBuilder.encodeMessage headersBytes payload)).nextMessage.1 =
      if wireLength headersBytes payload > defaultMaxMessageBytes then
        .error (.messageTooLarge (wireLength headersBytes payload)
          defaultMaxMessageBytes)
      else .ok (some ⟨headers, payload⟩) := nextMessage_encodeMessage hsize hheaders
  rw [parse, hnext]
  split_ifs <;> rfl

/-! ## The stored headers -/

variable {name : Utf8String}

theorem lookup_storeHeaders_of_forall_ne (out : HeaderMap)
    (hother : ∀ header ∈ headers, toAsciiLowercase header.1 ≠ name) :
    (storeHeaders headers out).lookup name = out.lookup name := by
  induction headers generalizing out with
  | nil => rfl
  | cons header headers ih =>
      have hne : name ≠ toAsciiLowercase header.1 :=
        (hother header List.mem_cons_self).symm
      rw [storeHeaders_cons, ih _ fun later hlater =>
        hother later (List.mem_cons_of_mem _ hlater)]
      exact Finmap.lookup_insert_of_ne out hne

/-- The last header of a name decides what is stored under it. -/
theorem lookup_storeHeaders_append {front later : List (Utf8String × HeaderValue)} (out : HeaderMap)
    (hlast : ∀ header ∈ later, toAsciiLowercase header.1 ≠ toAsciiLowercase name) :
    (storeHeaders (front ++ (name, value) :: later) out).lookup
      (toAsciiLowercase name) = some value := by
  rw [storeHeaders_append, storeHeaders_cons,
    lookup_storeHeaders_of_forall_ne _ hlast, Finmap.lookup_insert]

theorem exists_of_lookup_storeHeaders
    (hlookup : (storeHeaders headers ∅).lookup name = some value) :
    ∃ header ∈ headers, toAsciiLowercase header.1 = name ∧ header.2 = value := by
  induction headers using List.reverseRecOn with
  | nil => simp [storeHeaders] at hlookup
  | append_singleton headers last ih =>
      rw [storeHeaders_append, storeHeaders_cons] at hlookup
      by_cases hname : name = toAsciiLowercase last.1
      · rw [hname] at hlookup
        have hstored := hlookup.symm.trans (Finmap.lookup_insert (storeHeaders headers ∅))
        exact ⟨last, by simp, hname.symm, (Option.some.inj hstored).symm⟩
      · have hstored := (Finmap.lookup_insert_of_ne (storeHeaders headers ∅) hname).symm.trans
          hlookup
        obtain ⟨header, hheader, hsame⟩ := ih hstored
        exact ⟨header, List.mem_append_left _ hheader, hsame⟩

/-! ## The round trip -/

/-- The message carries the payload and every header under its stored name. -/
def Carries (builder : MessageBuilder) (message : EventStreamMessage) : Prop :=
  message.payload = builder.payload ∧
    ∀ header ∈ builder.headers,
      message.headers.lookup (toAsciiLowercase header.1) = some header.2

/-- The parser stores headers in a map, so of two headers with one name the
first is dropped. -/
theorem repeatedHeader_dropped :
    ¬∀ builder wire, MessageBuilder.build builder = some wire →
      ∃ message, parse wire = .ok message ∧ Carries builder message := by
  intro hround
  let name : Utf8String := ⟨ascii "a", by decide⟩
  let first : HeaderValue := .bytes (ascii "x")
  let second : HeaderValue := .bytes (ascii "y")
  let builder : MessageBuilder := ⟨[(name, first), (name, second)], []⟩
  let headersBytes : Bytes := ascii "\x01a\x06\x00\x01x\x01a\x06\x00\x01y"
  have hencode : MessageBuilder.encodeHeaders builder.headers = some headersBytes := by
    decide
  obtain ⟨message, hparse, -, hcarries⟩ := hround builder
    (MessageBuilder.encodeMessage headersBytes []) (by rw [MessageBuilder.build, hencode]; rfl)
  have hheaders := parseHeaders_encodeHeaders hencode (by decide)
  rw [parse_encodeMessage (by decide) hheaders, if_neg (by decide)] at hparse
  cases hparse
  have hfirst := hcarries (name, first) (by simp [builder])
  have hsecond : (storeHeaders builder.headers ∅).lookup (toAsciiLowercase name) =
      some second := by
    rw [show builder.headers = [(name, first)] ++ (name, second) :: [] from rfl]
    exact lookup_storeHeaders_append ∅ (by simp)
  exact absurd (hfirst.symm.trans hsecond) (by decide)

/-- Built bytes parse back.  A message over the default cap is refused; any other
comes back with its payload, and its map holds under each name, lowercased, the
value of the last header of that name and nothing else.  The values are those
whose length the two-byte field can hold. -/
theorem parse_build {builder : MessageBuilder} {wire : Bytes}
    (hbuild : builder.build = some wire)
    (hvalues : ∀ header ∈ builder.headers, header.2.content.length < 2 ^ 16)
    (hsize : wire.length < 2 ^ 32) :
    (wire.length > defaultMaxMessageBytes →
      parse wire = .error (.messageTooLarge wire.length defaultMaxMessageBytes)) ∧
    (wire.length ≤ defaultMaxMessageBytes →
      ∃ message, parse wire = .ok message ∧ message.payload = builder.payload ∧
        (∀ front name value later,
          builder.headers = front ++ (name, value) :: later →
          (∀ header ∈ later, toAsciiLowercase header.1 ≠ toAsciiLowercase name) →
          message.headers.lookup (toAsciiLowercase name) = some value) ∧
        (∀ name value, message.headers.lookup name = some value →
          ∃ header ∈ builder.headers,
            toAsciiLowercase header.1 = name ∧ header.2 = value)) := by
  rw [MessageBuilder.build, Option.map_eq_some_iff] at hbuild
  obtain ⟨headersBytes, hencode, rfl⟩ := hbuild
  have hheaders := parseHeaders_encodeHeaders hencode hvalues
  have hlength := length_encodeMessage headersBytes builder.payload
  rw [hlength] at hsize ⊢
  have hparse := parse_encodeMessage hsize hheaders
  constructor
  · intro hcap
    rw [hparse, if_pos hcap]
  · intro hcap
    rw [if_neg (Nat.not_lt.mpr hcap)] at hparse
    refine ⟨_, hparse, rfl, ?_, ?_⟩
    · intro front name value later hsplit hlast
      rw [hsplit]
      exact lookup_storeHeaders_append ∅ hlast
    · intro name value hlookup
      exact exists_of_lookup_storeHeaders hlookup

/-- One mixed-case header and a payload, as in the tests of the parser. -/
theorem parse_build_eventType :
    ∃ wire message,
      ((MessageBuilder.new.headerString ⟨ascii ":Event-Type", by decide⟩
        ⟨ascii "chunk", by decide⟩).withPayload (ascii "\x7b\x7d")).build = some wire ∧
      parse wire = .ok message ∧
      message.headers.lookup ⟨ascii ":event-type", by decide⟩ =
        some (.string ⟨ascii "chunk", by decide⟩) := by
  let header : Utf8String × HeaderValue :=
    (⟨ascii ":Event-Type", by decide⟩, .string ⟨ascii "chunk", by decide⟩)
  let builder : MessageBuilder := ⟨[header], ascii "\x7b\x7d"⟩
  let headersBytes : Bytes := ascii "\x0b:Event-Type\x07\x00\x05chunk"
  have hbuild : builder.build =
      some (MessageBuilder.encodeMessage headersBytes builder.payload) := by
    have hencode : MessageBuilder.encodeHeaders builder.headers = some headersBytes := by
      decide
    rw [MessageBuilder.build, hencode]
    rfl
  have hlength : (MessageBuilder.encodeMessage headersBytes builder.payload).length = 38 := by
    rw [length_encodeMessage]
    rfl
  obtain ⟨message, hparse, -, hstored, -⟩ :=
    (parse_build hbuild (by decide) (by rw [hlength]; decide)).2 (by rw [hlength]; decide)
  exact ⟨_, message, hbuild, hparse, hstored [] header.1 header.2 [] rfl (by simp)⟩

end Legroom.Bedrock
