import Legroom.Lib.Digests
import Legroom.Lib.Utf8
import Mathlib.Data.Finmap

/-!
# AWS EventStream messages

Bedrock streams binary EventStream messages.  A message is a prelude of three
big-endian words (total length, headers length, prelude CRC), the headers, the
payload and a CRC of everything before it.  `EventStreamParser` collects the
bytes of the stream and cuts complete messages off the front of its buffer.
-/

namespace Legroom.Bedrock

open Utf8

namespace HeaderType

def true : Byte := 0
def false : Byte := 1
def byte : Byte := 2
def short : Byte := 3
def integer : Byte := 4
def long : Byte := 5
def byteArray : Byte := 6
def string : Byte := 7
def timestamp : Byte := 8
def uuid : Byte := 9

end HeaderType

def preludeLen : ℕ := 12
def messageCrcLen : ℕ := 4
def defaultMaxMessageBytes : ℕ := 32 * 1024 * 1024

inductive HeaderValue where
  | string (text : Utf8String)
  | bytes (bytes : Bytes)
  deriving DecidableEq

/-- `HashMap<String, HeaderValue>`: a later header replaces an earlier one of
the same name. -/
abbrev HeaderMap := Finmap fun _ : Utf8String => HeaderValue

structure EventStreamMessage where
  headers : HeaderMap
  payload : Bytes

def HeaderValue.asStr : HeaderValue → Option Utf8String
  | .string text => some text
  | .bytes _ => none

namespace EventStreamMessage

def eventType (message : EventStreamMessage) : Option Utf8String :=
  (message.headers.lookup (constant ":event-type")).bind HeaderValue.asStr

def messageType (message : EventStreamMessage) : Option Utf8String :=
  (message.headers.lookup (constant ":message-type")).bind HeaderValue.asStr

end EventStreamMessage

inductive ParseError where
  | implausiblePreludeLengths (totalLength headersLength : ℕ)
  | messageTooLarge (totalLength cap : ℕ)
  | preludeCrcMismatch (expected got : ℕ)
  | messageCrcMismatch (expected got : ℕ)
  | truncatedHeader (offset needed : ℕ)
  | headerNameNotUtf8 (offset : ℕ) (source : Utf8Error)
  | headerValueNotUtf8 (offset : ℕ) (source : Utf8Error)
  | unsupportedHeaderType (valueType : Byte) (offset : ℕ)
  deriving DecidableEq, Repr

inductive CrcValidation where
  | yes
  | no
  deriving DecidableEq, Repr

/-! ## Headers -/

/-- Bytes left to parse, and their offset in the headers block. -/
structure Cursor where
  offset : ℕ
  rest : Bytes
  deriving DecidableEq

/-- The next `needed` bytes; every read of `parse_headers` is guarded so. -/
def Cursor.read (cursor : Cursor) (needed : ℕ) : Except ParseError (Bytes × Cursor) :=
  if cursor.rest.length < needed then
    .error (.truncatedHeader cursor.offset needed)
  else
    .ok (cursor.rest.take needed,
      ⟨cursor.offset + needed, cursor.rest.drop needed⟩)

/-- `to_ascii_lowercase` on one byte of a UTF-8 text. -/
def asciiLower (byte : Byte) : Byte :=
  if 0x41 ≤ byte ∧ byte ≤ 0x5A then byte + 0x20 else byte

theorem asciiLower_lt {byte : Byte} (hbyte : byte < 0x80) :
    asciiLower byte < 0x80 := by
  rw [asciiLower]
  split_ifs with hupper
  · have hhigh : byte.toNat ≤ 0x5A := UInt8.le_iff_toNat_le.mp hupper.2
    simp only [UInt8.lt_iff_toNat_lt, UInt8.toNat_add, UInt8.reduceToNat]
    omega
  · exact hbyte

theorem asciiLower_of_not_lt {byte : Byte} (hbyte : ¬byte < 0x80) :
    asciiLower byte = byte := by
  rw [asciiLower, if_neg]
  rintro ⟨-, hhigh⟩
  exact hbyte (UInt8.lt_of_le_of_lt hhigh (by decide))

theorem step_asciiLower {owed : Owed} (howed : Pending owed) (byte : Byte) :
    step owed (asciiLower byte) = step owed byte := by
  by_cases hbyte : byte < 0x80
  · cases hlower : step owed (asciiLower byte) with
    | some next =>
        obtain ⟨rfl, rfl⟩ :=
          eq_nil_of_step_ascii howed (asciiLower_lt hbyte) hlower
        rw [step_ascii hbyte]
    | none =>
        cases hstep : step owed byte with
        | none => rfl
        | some next =>
            obtain ⟨rfl, -⟩ := eq_nil_of_step_ascii howed hbyte hstep
            rw [step_ascii (asciiLower_lt hbyte)] at hlower
            cases hlower
  · rw [asciiLower_of_not_lt hbyte]

theorem run_asciiLower {owed : Owed} (howed : Pending owed) (bytes : Bytes) :
    run owed (bytes.map asciiLower) = run owed bytes := by
  induction bytes generalizing owed with
  | nil => rfl
  | cons byte bytes ih =>
      rw [List.map_cons, run_cons, run_cons, step_asciiLower howed]
      cases hstep : step owed byte with
      | none => rfl
      | some next => exact ih (pending_step howed hstep)

/-- `str::to_ascii_lowercase`. -/
def toAsciiLowercase (text : Utf8String) : Utf8String :=
  ⟨text.bytes.map asciiLower, by
    rw [Valid, run_asciiLower (fun range hrange => by simp at hrange)]
    exact text.valid⟩

/-- A value of fixed width, surfaced as bytes. -/
def readFixed (cursor : Cursor) (width : ℕ) :
    Except ParseError (HeaderValue × Cursor) := do
  let (value, cursor) ← cursor.read width
  return (.bytes value, cursor)

/-- The two-byte length and the bytes of a string or byte-array value. -/
def readPrefixed (cursor : Cursor) : Except ParseError (Bytes × Cursor) := do
  let (length, cursor) ← cursor.read 2
  cursor.read (fromBe length)

def readString (cursor : Cursor) : Except ParseError (HeaderValue × Cursor) := do
  let (value, after) ← readPrefixed cursor
  match fromUtf8 value with
  | .ok text => return (.string text, after)
  -- `cursor` has passed the length when the error is raised.
  | .error source => throw (.headerValueNotUtf8 (cursor.offset + 2) source)

/-- The value of a header behind its type byte. -/
def readValue (valueType : Byte) (cursor : Cursor) :
    Except ParseError (HeaderValue × Cursor) :=
  if valueType = HeaderType.string then readString cursor
  else if valueType = HeaderType.byteArray then do
    let (value, cursor) ← readPrefixed cursor
    return (.bytes value, cursor)
  else if valueType = HeaderType.true then .ok (.bytes [1], cursor)
  else if valueType = HeaderType.false then .ok (.bytes [0], cursor)
  else if valueType = HeaderType.byte then readFixed cursor 1
  else if valueType = HeaderType.short then readFixed cursor 2
  else if valueType = HeaderType.integer then readFixed cursor 4
  else if valueType = HeaderType.long ∨ valueType = HeaderType.timestamp then
    readFixed cursor 8
  else if valueType = HeaderType.uuid then readFixed cursor 16
  else .error (.unsupportedHeaderType valueType (cursor.offset - 1))

/-- One pass of the loop of `parse_headers`. -/
def readHeader (cursor : Cursor) :
    Except ParseError ((Utf8String × HeaderValue) × Cursor) := do
  let (nameLen, cursor) ← cursor.read 1
  let (nameBytes, afterName) ← cursor.read (fromBe nameLen)
  let name ← match fromUtf8 nameBytes with
    | .ok name => pure (toAsciiLowercase name)
    | .error source => throw (.headerNameNotUtf8 cursor.offset source)
  let (valueType, afterType) ← afterName.read 1
  let (value, afterValue) ← readValue (valueType.headD 0) afterType
  return ((name, value), afterValue)

/-- The loop of `parse_headers`.  A pass removes at least the name length and
the value type, so the length of the block bounds the number of passes. -/
def parseHeadersLoop : ℕ → Cursor → HeaderMap → Except ParseError HeaderMap
  | 0, _, out => .ok out
  | fuel + 1, cursor, out =>
      if cursor.rest = [] then .ok out
      else
        match readHeader cursor with
        | .ok ((name, value), next) =>
            parseHeadersLoop fuel next (out.insert name value)
        | .error error => .error error

def parseHeaders (slice : Bytes) : Except ParseError HeaderMap :=
  parseHeadersLoop slice.length ⟨0, slice⟩ ∅

/-! ## Messages -/

structure EventStreamParser where
  buf : Bytes
  crcValidation : CrcValidation
  maxMessageBytes : ℕ

namespace EventStreamParser

def new : EventStreamParser := ⟨[], .yes, defaultMaxMessageBytes⟩

def withCrcValidation (parser : EventStreamParser) (crc : CrcValidation) :
    EventStreamParser :=
  { parser with crcValidation := crc }

def withMaxMessageBytes (parser : EventStreamParser) (cap : ℕ) :
    EventStreamParser :=
  { parser with maxMessageBytes := cap }

def push (parser : EventStreamParser) (chunk : Bytes) : EventStreamParser :=
  { parser with buf := parser.buf ++ chunk }

end EventStreamParser

/-- The three words of the prelude. -/
def totalLength (buf : Bytes) : ℕ := fromBe (sliceRange buf 0 4)
def headersLength (buf : Bytes) : ℕ := fromBe (sliceRange buf 4 8)
def preludeCrc (buf : Bytes) : ℕ := fromBe (sliceRange buf 8 12)

variable (crcValidation : CrcValidation) (maxMessageBytes : ℕ)

/-- The checks that `next_message` makes as soon as the prelude is there. -/
def checkPrelude (buf : Bytes) : Except ParseError Unit :=
  if totalLength buf < preludeLen + headersLength buf + messageCrcLen then
    .error (.implausiblePreludeLengths (totalLength buf) (headersLength buf))
  else if totalLength buf > maxMessageBytes then
    .error (.messageTooLarge (totalLength buf) maxMessageBytes)
  else if crcValidation = .yes ∧ crc32 (sliceRange buf 0 8) ≠ preludeCrc buf then
    .error (.preludeCrcMismatch (preludeCrc buf) (crc32 (sliceRange buf 0 8)))
  else .ok ()

/-- The check of the trailing CRC, once `total` bytes are there. -/
def checkMessageCrc (total : ℕ) (buf : Bytes) : Except ParseError Unit :=
  let expected := fromBe (sliceRange buf (total - messageCrcLen) total)
  let got := crc32 (sliceRange buf 0 (total - messageCrcLen))
  if crcValidation = .yes ∧ got ≠ expected then
    .error (.messageCrcMismatch expected got)
  else .ok ()

/-- The message in exactly its own bytes. -/
def readMessage (messageBytes : Bytes) : Except ParseError EventStreamMessage := do
  let headersEnd := preludeLen + headersLength messageBytes
  let payloadEnd := totalLength messageBytes - messageCrcLen
  let headers ← parseHeaders (sliceRange messageBytes preludeLen headersEnd)
  return ⟨headers, sliceRange messageBytes headersEnd payloadEnd⟩

/-- `next_message` on the buffer: the outcome and the buffer afterwards. -/
def nextMessage (buf : Bytes) :
    Except ParseError (Option EventStreamMessage) × Bytes :=
  if buf.length < preludeLen then (.ok none, buf)
  else
    match checkPrelude crcValidation maxMessageBytes buf with
    | .error error => (.error error, buf)
    | .ok () =>
        let total := totalLength buf
        if buf.length < total then (.ok none, buf)
        else
          match checkMessageCrc crcValidation total buf with
          | .error error => (.error error, buf)
          | .ok () =>
              -- The message leaves the buffer before its headers are parsed.
              ((readMessage (buf.take total)).map some, buf.drop total)

def EventStreamParser.nextMessage (parser : EventStreamParser) :
    Except ParseError (Option EventStreamMessage) × EventStreamParser :=
  let found := Bedrock.nextMessage parser.crcValidation parser.maxMessageBytes parser.buf
  (found.1, { parser with buf := found.2 })

/-- One-shot parsing of the bytes of one message. -/
def parse (bytes : Bytes) : Except ParseError EventStreamMessage :=
  match (EventStreamParser.new.push bytes).nextMessage.1 with
  | .ok (some message) => .ok message
  | .ok none => .error (.implausiblePreludeLengths 0 0)
  | .error error => .error error

end Legroom.Bedrock
