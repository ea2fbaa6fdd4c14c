import Legroom.Bedrock.MessageBuilder

/-!
# What the parser accepts

The reads of `parse_headers` cut its block into headers, and it accepts exactly the
blocks that are nothing but headers.  With the checks on the prelude and on the two
checksums this says which bytes are a message.  Nothing depends on how a checksum is
computed.
-/

namespace Legroom.Bedrock

open Utf8

/-! ## Well-formed headers -/

/-- The values without a length of their own, and their widths. -/
def fixedWidths : List (Byte × ℕ) :=
  [(HeaderType.byte, 1), (HeaderType.short, 2), (HeaderType.integer, 4),
    (HeaderType.long, 8), (HeaderType.timestamp, 8), (HeaderType.uuid, 16)]

/-- The bytes of a value behind its type. -/
inductive ValueWire : Byte → Bytes → HeaderValue → Prop where
  | string (value : Utf8String) (hlength : value.bytes.length < 2 ^ 16) :
      ValueWire HeaderType.string (toBe 2 value.bytes.length ++ value.bytes) (.string value)
  | byteArray (raw : Bytes) (hlength : raw.length < 2 ^ 16) :
      ValueWire HeaderType.byteArray (toBe 2 raw.length ++ raw) (.bytes raw)
  | trueFlag : ValueWire HeaderType.true [] (.bytes [1])
  | falseFlag : ValueWire HeaderType.false [] (.bytes [0])
  | fixed {valueType : Byte} (raw : Bytes) (hwidth : (valueType, raw.length) ∈ fixedWidths) :
      ValueWire valueType raw (.bytes raw)

/-- A header: its name behind a one-byte length, the value type and the value. -/
inductive HeaderWire : Bytes → Utf8String × HeaderValue → Prop where
  | mk {valueType : Byte} {valueBytes : Bytes} {value : HeaderValue} (name : Utf8String)
      (hname : name.bytes.length < 2 ^ 8) (hvalue : ValueWire valueType valueBytes value) :
      HeaderWire (toBe 1 name.bytes.length ++ (name.bytes ++ ([valueType] ++ valueBytes)))
        (name, value)

/-- A block that is nothing but headers. -/
inductive HeadersWire : Bytes → List (Utf8String × HeaderValue) → Prop where
  | nil : HeadersWire [] []
  | cons {wire rest : Bytes} {header : Utf8String × HeaderValue}
      {headers : List (Utf8String × HeaderValue)} (hheader : HeaderWire wire header)
      (hrest : HeadersWire rest headers) : HeadersWire (wire ++ rest) (header :: headers)

theorem HeaderWire.length_pos {wire : Bytes} {header : Utf8String × HeaderValue}
    (hheader : HeaderWire wire header) : 0 < wire.length := by
  cases hheader
  simp

variable {headers : List (Utf8String × HeaderValue)}

theorem headersWire_nil_iff : HeadersWire [] headers ↔ headers = [] := by
  constructor
  · intro hheaders
    generalize hblock : ([] : Bytes) = block at hheaders
    cases hheaders with
    | nil => rfl
    | cons hheader hrest =>
        have hpos := hheader.length_pos
        rw [(List.append_eq_nil_iff.mp hblock.symm).1] at hpos
        exact absurd hpos (lt_irrefl 0)
  · rintro rfl
    exact .nil

/-! ## Reads -/

/-- The second cursor stands behind `wire`, which is what the first one reads. -/
def Cuts (cursor : Cursor) (wire : Bytes) (next : Cursor) : Prop :=
  cursor.rest = wire ++ next.rest ∧ next.offset = cursor.offset + wire.length

variable {cursor next : Cursor}

theorem cuts_nil_iff : Cuts cursor [] next ↔ cursor = next := by
  obtain ⟨offset, rest⟩ := cursor
  obtain ⟨offset', rest'⟩ := next
  rw [Cuts, Cursor.mk.injEq]
  constructor
  · rintro ⟨hrest, hoffset⟩
    exact ⟨hoffset.symm, hrest⟩
  · rintro ⟨hoffset, hrest⟩
    exact ⟨hrest, hoffset.symm⟩

variable {front : Bytes}

/-- What is read in two steps is read one after the other. -/
theorem cuts_append_iff {back : Bytes} :
    Cuts cursor (front ++ back) next ↔
      ∃ middle, Cuts cursor front middle ∧ Cuts middle back next := by
  constructor
  · rintro ⟨hrest, hoffset⟩
    refine ⟨⟨cursor.offset + front.length, back ++ next.rest⟩, ⟨?_, rfl⟩, rfl, ?_⟩
    · rw [hrest, List.append_assoc]
    · rw [hoffset, List.length_append, Nat.add_assoc]
  · rintro ⟨middle, ⟨hfront, hmiddle⟩, hback, hnext⟩
    constructor
    · rw [hfront, hback, List.append_assoc]
    · rw [hnext, hmiddle, List.length_append, Nat.add_assoc]

theorem read_eq_ok_iff {needed : ℕ} {wire : Bytes} :
    cursor.read needed = .ok (wire, next) ↔ wire.length = needed ∧ Cuts cursor wire next := by
  rw [Cursor.read]
  constructor
  · intro hread
    split_ifs at hread with hshort
    cases hread
    have hlength : (cursor.rest.take needed).length = needed := by
      rw [List.length_take]
      omega
    refine ⟨hlength, (List.take_append_drop needed cursor.rest).symm, ?_⟩
    rw [hlength]
  · rintro ⟨rfl, hrest, hoffset⟩
    rw [if_neg (by rw [hrest, List.length_append]; omega), hrest, List.take_left, List.drop_left,
      ← hoffset]

/-- Binds of readers, taken apart. -/
theorem bind_eq_ok_iff {A B : Type} {first : Except ParseError A} {next : A → Except ParseError B}
    {result : B} :
    (first >>= next) = .ok result ↔ ∃ value, first = .ok value ∧ next value = .ok result := by
  cases first with
  | error error => simp [bind, Except.bind]
  | ok value => simp [bind, Except.bind]

variable {value : HeaderValue}

theorem readFixed_eq_ok_iff {width : ℕ} :
    readFixed cursor width = .ok (value, next) ↔
      ∃ wire, value = .bytes wire ∧ wire.length = width ∧ Cuts cursor wire next := by
  rw [readFixed, bind_eq_ok_iff]
  constructor
  · rintro ⟨⟨wire, after⟩, hread, hresult⟩
    cases hresult
    exact ⟨wire, rfl, read_eq_ok_iff.mp hread⟩
  · rintro ⟨wire, rfl, hread⟩
    exact ⟨(wire, next), read_eq_ok_iff.mpr hread, rfl⟩

theorem readPrefixed_eq_ok_iff {raw : Bytes} :
    readPrefixed cursor = .ok (raw, next) ↔
      raw.length < 2 ^ 16 ∧ Cuts cursor (toBe 2 raw.length ++ raw) next := by
  rw [readPrefixed, bind_eq_ok_iff, cuts_append_iff]
  constructor
  · rintro ⟨⟨field, middle⟩, hfield, hraw⟩
    obtain ⟨hwidth, hcuts⟩ := read_eq_ok_iff.mp hfield
    obtain ⟨hlength, hrest⟩ := read_eq_ok_iff.mp hraw
    have hbound := fromBe_lt field
    have hencoded := toBe_fromBe field
    rw [hwidth] at hbound hencoded
    rw [hlength]
    refine ⟨hbound, middle, ?_, hrest⟩
    rwa [hencoded]
  · rintro ⟨hbound, middle, hfield, hraw⟩
    refine ⟨(toBe 2 raw.length, middle), read_eq_ok_iff.mpr ⟨length_toBe 2 _, hfield⟩, ?_⟩
    exact read_eq_ok_iff.mpr ⟨(fromBe_toBe_of_lt hbound).symm, hraw⟩

theorem readString_eq_ok_iff :
    readString cursor = .ok (value, next) ↔ ∃ string : Utf8String, value = .string string ∧
      string.bytes.length < 2 ^ 16 ∧
        Cuts cursor (toBe 2 string.bytes.length ++ string.bytes) next := by
  rw [readString, bind_eq_ok_iff]
  constructor
  · rintro ⟨⟨raw, after⟩, hraw, hresult⟩
    dsimp only at hresult
    split at hresult
    · rename_i string hstring
      cases hresult
      rw [← fromUtf8_eq_ok_iff.mp hstring] at hraw
      exact ⟨string, rfl, readPrefixed_eq_ok_iff.mp hraw⟩
    · cases hresult
  · rintro ⟨string, rfl, hraw⟩
    refine ⟨(string.bytes, next), readPrefixed_eq_ok_iff.mpr hraw, ?_⟩
    dsimp only
    rw [fromUtf8_of_valid string.valid]
    rfl

theorem readValue_fixed {valueType : Byte} {width : ℕ}
    (hwidth : (valueType, width) ∈ fixedWidths) (cursor : Cursor) :
    readValue valueType cursor = readFixed cursor width := by
  simp only [fixedWidths, List.mem_cons, Prod.mk.injEq, List.not_mem_nil, or_false] at hwidth
  rcases hwidth with ⟨rfl, rfl⟩ | ⟨rfl, rfl⟩ | ⟨rfl, rfl⟩ | ⟨rfl, rfl⟩ | ⟨rfl, rfl⟩ | ⟨rfl, rfl⟩ <;>
    rfl

/-- Every type has the flags' empty value, a value with its length or one of fixed width. -/
theorem readValue_eq_ok_iff {valueType : Byte} :
    readValue valueType cursor = .ok (value, next) ↔
      ∃ wire, ValueWire valueType wire value ∧ Cuts cursor wire next := by
  constructor
  · intro hread
    have hfixed : ∀ width, (valueType, width) ∈ fixedWidths →
        ∃ wire, ValueWire valueType wire value ∧ Cuts cursor wire next := by
      intro width hwidth
      rw [readValue_fixed hwidth] at hread
      obtain ⟨wire, rfl, rfl, hcuts⟩ := readFixed_eq_ok_iff.mp hread
      exact ⟨wire, .fixed wire hwidth, hcuts⟩
    rw [readValue] at hread
    split_ifs at hread with hstring hbytes htrue hfalse hbyte hshort hinteger hlong huuid
    · obtain ⟨string, rfl, hlength, hcuts⟩ := readString_eq_ok_iff.mp hread
      exact ⟨_, hstring ▸ .string string hlength, hcuts⟩
    · obtain ⟨⟨raw, after⟩, hraw, hresult⟩ := bind_eq_ok_iff.mp hread
      cases hresult
      obtain ⟨hlength, hcuts⟩ := readPrefixed_eq_ok_iff.mp hraw
      exact ⟨_, hbytes ▸ .byteArray raw hlength, hcuts⟩
    · cases hread
      exact ⟨[], htrue ▸ .trueFlag, cuts_nil_iff.mpr rfl⟩
    · cases hread
      exact ⟨[], hfalse ▸ .falseFlag, cuts_nil_iff.mpr rfl⟩
    · exact hfixed 1 (by rw [hbyte]; decide)
    · exact hfixed 2 (by rw [hshort]; decide)
    · exact hfixed 4 (by rw [hinteger]; decide)
    · rcases hlong with hlong | htimestamp
      · exact hfixed 8 (by rw [hlong]; decide)
      · exact hfixed 8 (by rw [htimestamp]; decide)
    · exact hfixed 16 (by rw [huuid]; decide)
  · rintro ⟨wire, hvalue, hcuts⟩
    cases hvalue with
    | string string hlength => exact readString_eq_ok_iff.mpr ⟨string, rfl, hlength, hcuts⟩
    | byteArray raw hlength =>
        exact bind_eq_ok_iff.mpr ⟨(raw, next), readPrefixed_eq_ok_iff.mpr ⟨hlength, hcuts⟩, rfl⟩
    | trueFlag =>
        rw [← cuts_nil_iff.mp hcuts]
        rfl
    | falseFlag =>
        rw [← cuts_nil_iff.mp hcuts]
        rfl
    | fixed raw hwidth =>
        rw [readValue_fixed hwidth]
        exact readFixed_eq_ok_iff.mpr ⟨_, rfl, rfl, hcuts⟩

/-- One pass of the loop reads one header, and stores it under its lowercased name. -/
theorem readHeader_eq_ok_iff {stored : Utf8String × HeaderValue} :
    readHeader cursor = .ok (stored, next) ↔ ∃ wire header, HeaderWire wire header ∧
      stored = (toAsciiLowercase header.1, header.2) ∧ Cuts cursor wire next := by
  rw [readHeader]
  constructor
  · intro hread
    obtain ⟨⟨field, afterField⟩, hfield, hread⟩ := bind_eq_ok_iff.mp hread
    obtain ⟨⟨nameBytes, afterName⟩, hnameBytes, hread⟩ := bind_eq_ok_iff.mp hread
    dsimp only at hread
    split at hread
    · rename_i name htext
      obtain ⟨lowered, hlowered, hread⟩ := bind_eq_ok_iff.mp hread
      obtain ⟨⟨typeField, afterType⟩, htype, hread⟩ := bind_eq_ok_iff.mp hread
      obtain ⟨⟨value, afterValue⟩, hvalue, hread⟩ := bind_eq_ok_iff.mp hread
      cases hlowered
      cases hread
      have hname := fromUtf8_eq_ok_iff.mp htext
      obtain ⟨hfieldWidth, hfieldCuts⟩ := read_eq_ok_iff.mp hfield
      obtain ⟨hnameLength, hnameCuts⟩ := read_eq_ok_iff.mp hnameBytes
      obtain ⟨htypeWidth, htypeCuts⟩ := read_eq_ok_iff.mp htype
      obtain ⟨valueBytes, hwire, hvalueCuts⟩ := readValue_eq_ok_iff.mp hvalue
      obtain ⟨valueType, rfl⟩ := List.length_eq_one_iff.mp htypeWidth
      have hbound := fromBe_lt field
      have hencoded := toBe_fromBe field
      rw [hfieldWidth, ← hnameLength, ← hname] at hbound hencoded
      rw [← hencoded] at hfieldCuts
      rw [← hname] at hnameCuts
      exact ⟨_, (name, value), .mk name hbound hwire, rfl, cuts_append_iff.mpr ⟨afterField,
        hfieldCuts, cuts_append_iff.mpr ⟨afterName, hnameCuts,
        cuts_append_iff.mpr ⟨afterType, htypeCuts, hvalueCuts⟩⟩⟩⟩
    · cases hread
  · rintro ⟨wire, header, hheader, rfl, hcuts⟩
    cases hheader with
    | @mk valueType valueBytes value name hname hvalue =>
        obtain ⟨afterField, hfield, hcuts⟩ := cuts_append_iff.mp hcuts
        obtain ⟨afterName, hnameBytes, hcuts⟩ := cuts_append_iff.mp hcuts
        obtain ⟨afterType, htype, hcuts⟩ := cuts_append_iff.mp hcuts
        have hlength : name.bytes.length = fromBe (toBe 1 name.bytes.length) :=
          (fromBe_toBe_of_lt hname).symm
        refine bind_eq_ok_iff.mpr ⟨(toBe 1 name.bytes.length, afterField),
          read_eq_ok_iff.mpr ⟨length_toBe 1 _, hfield⟩, bind_eq_ok_iff.mpr
          ⟨(name.bytes, afterName), read_eq_ok_iff.mpr ⟨hlength, hnameBytes⟩, ?_⟩⟩
        dsimp only
        rw [fromUtf8_of_valid name.valid]
        exact bind_eq_ok_iff.mpr ⟨toAsciiLowercase name, rfl, bind_eq_ok_iff.mpr
          ⟨([valueType], afterType), read_eq_ok_iff.mpr ⟨rfl, htype⟩, bind_eq_ok_iff.mpr
          ⟨(value, next), readValue_eq_ok_iff.mpr ⟨valueBytes, hvalue, hcuts⟩, rfl⟩⟩⟩

/-- The loop accepts a block that is nothing but headers, and stores them in order. -/
theorem parseHeadersLoop_eq_ok_iff {fuel : ℕ} {out stored : HeaderMap}
    (hfuel : cursor.rest.length ≤ fuel) :
    parseHeadersLoop fuel cursor out = .ok stored ↔
      ∃ headers, HeadersWire cursor.rest headers ∧ stored = storeHeaders headers out := by
  induction fuel generalizing cursor out with
  | zero =>
      rw [List.eq_nil_of_length_eq_zero (Nat.le_zero.mp hfuel), parseHeadersLoop]
      simp only [headersWire_nil_iff, exists_eq_left, Except.ok.injEq]
      exact eq_comm
  | succ fuel ih =>
      rw [parseHeadersLoop]
      by_cases hempty : cursor.rest = []
      · rw [if_pos hempty, hempty]
        simp only [headersWire_nil_iff, exists_eq_left, Except.ok.injEq]
        exact eq_comm
      · rw [if_neg hempty]
        constructor
        · intro hloop
          split at hloop
          · rename_i name value next hread
            obtain ⟨wire, header, hheader, hstored, hrest, -⟩ := readHeader_eq_ok_iff.mp hread
            cases hstored
            have hpos := hheader.length_pos
            rw [hrest, List.length_append] at hfuel
            obtain ⟨headers, hheaders, rfl⟩ := (ih (by omega)).mp hloop
            exact ⟨header :: headers, hrest ▸ .cons hheader hheaders, rfl⟩
          · cases hloop
        · rintro ⟨headers, hheaders, rfl⟩
          generalize hblock : cursor.rest = block at hheaders
          cases hheaders with
          | nil => exact absurd hblock hempty
          | @cons wire rest header headers hheader hrest =>
              have hpos := hheader.length_pos
              have hread : readHeader cursor = .ok ((toAsciiLowercase header.1, header.2),
                  ⟨cursor.offset + wire.length, rest⟩) :=
                readHeader_eq_ok_iff.mpr ⟨wire, header, hheader, rfl, hblock, rfl⟩
              rw [hblock, List.length_append] at hfuel
              rw [hread]
              exact (ih (by dsimp only; omega)).mpr ⟨headers, hrest, rfl⟩

theorem parseHeaders_eq_ok_iff {slice : Bytes} {stored : HeaderMap} :
    parseHeaders slice = .ok stored ↔
      ∃ headers, HeadersWire slice headers ∧ stored = storeHeaders headers ∅ :=
  parseHeadersLoop_eq_ok_iff le_rfl

/-! ## Messages under any checksum -/

section Checksum

variable (hash : Bytes → UInt32)

def checkPreludeBy (crcValidation : CrcValidation) (maxMessageBytes : ℕ) (buf : Bytes) :
    Except ParseError Unit :=
  let got := (hash (sliceRange buf 0 8)).toNat
  if totalLength buf < preludeLen + headersLength buf + messageCrcLen then
    .error (.implausiblePreludeLengths (totalLength buf) (headersLength buf))
  else if totalLength buf > maxMessageBytes then
    .error (.messageTooLarge (totalLength buf) maxMessageBytes)
  else if crcValidation = .yes ∧ got ≠ preludeCrc buf then
    .error (.preludeCrcMismatch (preludeCrc buf) got)
  else .ok ()

def checkMessageCrcBy (crcValidation : CrcValidation) (total : ℕ) (buf : Bytes) :
    Except ParseError Unit :=
  let expected := fromBe (sliceRange buf (total - messageCrcLen) total)
  let got := (hash (sliceRange buf 0 (total - messageCrcLen))).toNat
  if crcValidation = .yes ∧ got ≠ expected then
    .error (.messageCrcMismatch expected got)
  else .ok ()

/-- `next_message`, with the checksum as a parameter. -/
def nextMessageBy (crcValidation : CrcValidation) (maxMessageBytes : ℕ) (buf : Bytes) :
    Except ParseError (Option EventStreamMessage) × Bytes :=
  if buf.length < preludeLen then (.ok none, buf)
  else
    match checkPreludeBy hash crcValidation maxMessageBytes buf with
    | .error error => (.error error, buf)
    | .ok () =>
        let total := totalLength buf
        if buf.length < total then (.ok none, buf)
        else
          match checkMessageCrcBy hash crcValidation total buf with
          | .error error => (.error error, buf)
          | .ok () => ((readMessage (buf.take total)).map some, buf.drop total)

/-- `parse`, with the checksum as a parameter. -/
def parseBy (bytes : Bytes) : Except ParseError EventStreamMessage :=
  match (nextMessageBy hash .yes defaultMaxMessageBytes bytes).1 with
  | .ok (some message) => .ok message
  | .ok none => .error (.implausiblePreludeLengths 0 0)
  | .error error => .error error

/-- One well-formed message, neither more nor less. -/
structure WellFormed (bytes : Bytes) (message : EventStreamMessage) : Prop where
  lengths : preludeLen + headersLength bytes + messageCrcLen ≤ totalLength bytes
  exact_length : totalLength bytes = bytes.length
  prelude_crc : (hash (sliceRange bytes 0 8)).toNat = preludeCrc bytes
  message_crc : (hash (sliceRange bytes 0 (bytes.length - messageCrcLen))).toNat =
    fromBe (sliceRange bytes (bytes.length - messageCrcLen) bytes.length)
  headers : ∃ headers,
    HeadersWire (sliceRange bytes preludeLen (preludeLen + headersLength bytes)) headers ∧
      message.headers = storeHeaders headers ∅
  payload : message.payload =
    sliceRange bytes (preludeLen + headersLength bytes) (bytes.length - messageCrcLen)

/-- Bytes that go on behind a message which the parser takes. -/
def HasTrailing (bytes : Bytes) : Prop :=
  ∃ front back message, bytes = front ++ back ∧ back ≠ [] ∧ WellFormed hash front message ∧
    front.length ≤ defaultMaxMessageBytes

end Checksum

/-- The checksum of the wire format. -/
def crc32Word (bytes : Bytes) : UInt32 := bytes.foldl crc32Byte 0xFFFFFFFF ^^^ 0xFFFFFFFF

theorem parse_eq_parseBy : parse = parseBy crc32Word := rfl

variable {hash : Bytes → UInt32} {maxMessageBytes : ℕ} {message : EventStreamMessage}
variable {bytes : Bytes}

theorem WellFormed.le_length (hformed : WellFormed hash bytes message) :
    preludeLen + messageCrcLen ≤ bytes.length := by
  have hlengths := hformed.lengths
  rw [hformed.exact_length] at hlengths
  omega

theorem readMessage_eq_ok_iff {bytes : Bytes} (hexact : totalLength bytes = bytes.length) :
    readMessage bytes = .ok message ↔
      (∃ headers,
        HeadersWire (sliceRange bytes preludeLen (preludeLen + headersLength bytes)) headers ∧
          message.headers = storeHeaders headers ∅) ∧
      message.payload =
        sliceRange bytes (preludeLen + headersLength bytes) (bytes.length - messageCrcLen) := by
  rw [readMessage, hexact, bind_eq_ok_iff]
  constructor
  · rintro ⟨stored, hparse, hresult⟩
    cases hresult
    exact ⟨parseHeaders_eq_ok_iff.mp hparse, rfl⟩
  · rintro ⟨hheaders, hpayload⟩
    refine ⟨message.headers, parseHeaders_eq_ok_iff.mpr hheaders, ?_⟩
    rw [← hpayload]
    rfl

/-- What `next_message` makes of bytes that end where the prelude says. -/
theorem nextMessageBy_exact_iff (hprelude : preludeLen ≤ bytes.length)
    (hexact : totalLength bytes = bytes.length) :
    (nextMessageBy hash .yes maxMessageBytes bytes).1 = .ok (some message) ↔
      WellFormed hash bytes message ∧ bytes.length ≤ maxMessageBytes := by
  have hread := @readMessage_eq_ok_iff message bytes hexact
  have hmap : (readMessage bytes).map some = .ok (some message) ↔
      readMessage bytes = .ok message := by
    cases readMessage bytes <;> simp [Except.map]
  rw [nextMessageBy, if_neg (Nat.not_lt.mpr hprelude), checkPreludeBy]
  simp only [hexact, lt_irrefl, if_false, checkMessageCrcBy, List.take_length, true_and]
  by_cases hlengths : bytes.length < preludeLen + headersLength bytes + messageCrcLen
  · rw [if_pos hlengths]
    refine iff_of_false (by simp) ?_
    rintro ⟨hformed, -⟩
    have hle := hformed.lengths
    rw [hexact] at hle
    omega
  rw [if_neg hlengths]
  by_cases hcap : bytes.length > maxMessageBytes
  · rw [if_pos hcap]
    exact iff_of_false (by simp) fun hboth => absurd hboth.2 (Nat.not_le.mpr hcap)
  rw [if_neg hcap]
  by_cases hcrc : (hash (sliceRange bytes 0 8)).toNat ≠ preludeCrc bytes
  · rw [if_pos hcrc]
    exact iff_of_false (by simp) fun hboth => hcrc hboth.1.prelude_crc
  rw [if_neg hcrc]
  dsimp only
  by_cases hsum : (hash (sliceRange bytes 0 (bytes.length - messageCrcLen))).toNat ≠
      fromBe (sliceRange bytes (bytes.length - messageCrcLen) bytes.length)
  · rw [if_pos hsum]
    exact iff_of_false (by simp) fun hboth => hsum hboth.1.message_crc
  rw [if_neg hsum]
  dsimp only
  rw [hmap, hread]
  constructor
  · rintro ⟨hheaders, hpayload⟩
    exact ⟨⟨by rw [hexact]; omega, hexact, not_not.mp hcrc, not_not.mp hsum, hheaders, hpayload⟩,
      Nat.not_lt.mp hcap⟩
  · rintro ⟨hformed, -⟩
    exact ⟨hformed.headers, hformed.payload⟩

/-- Bytes behind the announced end change nothing. -/
theorem nextMessageBy_append (back : Bytes) (hprelude : preludeLen ≤ front.length)
    (hexact : totalLength front = front.length) :
    (nextMessageBy hash .yes maxMessageBytes (front ++ back)).1 =
      (nextMessageBy hash .yes maxMessageBytes front).1 := by
  have hwords : sliceRange (front ++ back) 0 8 = sliceRange front 0 8 :=
    sliceRange_append_left (by rw [preludeLen] at hprelude; omega)
  have hcheck : checkPreludeBy hash .yes maxMessageBytes (front ++ back) =
      checkPreludeBy hash .yes maxMessageBytes front := by
    simp only [checkPreludeBy, totalLength_append back hprelude,
      headersLength_append back hprelude, preludeCrc_append back hprelude, hwords]
  have hsum : checkMessageCrcBy hash .yes front.length (front ++ back) =
      checkMessageCrcBy hash .yes front.length front := by
    simp only [checkMessageCrcBy, sliceRange_append_left le_rfl,
      sliceRange_append_left (Nat.sub_le front.length messageCrcLen)]
  have hlong : preludeLen ≤ (front ++ back).length := by
    rw [List.length_append]
    omega
  rw [nextMessageBy, nextMessageBy, if_neg (Nat.not_lt.mpr hprelude),
    if_neg (Nat.not_lt.mpr hlong), hcheck, totalLength_append back hprelude, hexact]
  cases checkPreludeBy hash .yes maxMessageBytes front with
  | error error => rfl
  | ok checked =>
      dsimp only
      rw [if_neg (by rw [List.length_append]; omega), if_neg (lt_irrefl _), hsum,
        List.take_left, List.take_length]
      cases checkMessageCrcBy hash .yes front.length front <;> rfl

theorem le_length_of_nextMessageBy {buf : Bytes}
    (hnext : (nextMessageBy hash .yes maxMessageBytes buf).1 = .ok (some message)) :
    preludeLen ≤ totalLength buf ∧ totalLength buf ≤ buf.length := by
  rw [nextMessageBy] at hnext
  split_ifs at hnext with hshort
  · cases hnext
  split at hnext
  · cases hnext
  rename_i hcheck
  dsimp only at hnext
  split_ifs at hnext with hincomplete
  · cases hnext
  refine ⟨?_, Nat.not_lt.mp hincomplete⟩
  rw [checkPreludeBy] at hcheck
  split_ifs at hcheck with hlengths
  omega

/-- `next_message` yields the well-formed message at the front of its buffer. -/
theorem nextMessageBy_eq_ok_some_iff {buf : Bytes} :
    (nextMessageBy hash .yes maxMessageBytes buf).1 = .ok (some message) ↔
      ∃ front back, buf = front ++ back ∧ WellFormed hash front message ∧
        front.length ≤ maxMessageBytes := by
  constructor
  · intro hnext
    obtain ⟨hprelude, hcomplete⟩ := le_length_of_nextMessageBy hnext
    have hsplit := List.take_append_drop (totalLength buf) buf
    have hlength : (buf.take (totalLength buf)).length = totalLength buf := by
      rw [List.length_take]
      omega
    have hfront : preludeLen ≤ (buf.take (totalLength buf)).length := by rwa [hlength]
    have hexact : totalLength (buf.take (totalLength buf)) =
        (buf.take (totalLength buf)).length := by
      rw [hlength, ← totalLength_append (buf.drop (totalLength buf)) hfront, hsplit]
    rw [← hsplit, nextMessageBy_append _ hfront hexact,
      nextMessageBy_exact_iff hfront hexact] at hnext
    exact ⟨_, _, hsplit.symm, hnext⟩
  · rintro ⟨front, back, rfl, hformed, hcap⟩
    have hprelude : preludeLen ≤ front.length :=
      le_trans (Nat.le_add_right _ _) hformed.le_length
    rw [nextMessageBy_append back hprelude hformed.exact_length,
      nextMessageBy_exact_iff hprelude hformed.exact_length]
    exact ⟨hformed, hcap⟩

theorem parseBy_eq_ok_iff :
    parseBy hash bytes = .ok message ↔
      ∃ front back, bytes = front ++ back ∧ WellFormed hash front message ∧
        front.length ≤ defaultMaxMessageBytes := by
  rw [← nextMessageBy_eq_ok_some_iff, parseBy]
  split <;> simp_all

/-- No message is the beginning of another. -/
theorem WellFormed.append_nil {back : Bytes} {other : EventStreamMessage}
    (hformed : WellFormed hash (front ++ back) message) (hother : WellFormed hash front other) :
    back = [] := by
  have hlength := hformed.exact_length
  have hprelude : preludeLen ≤ front.length :=
    le_trans (Nat.le_add_right _ _) hother.le_length
  rw [totalLength_append back hprelude, hother.exact_length, List.length_append] at hlength
  exact List.eq_nil_of_length_eq_zero (by omega)

/-- Bytes that do not go on behind a message are parsed if and only if they are one
well-formed message within the cap, and a message that lacks bytes is refused. -/
theorem parseBy_accepts (hash : Bytes → UInt32) (bytes : Bytes) :
    (¬ HasTrailing hash bytes → ∀ message, parseBy hash bytes = .ok message ↔
      WellFormed hash bytes message ∧ bytes.length ≤ defaultMaxMessageBytes) ∧
    ∀ message back, WellFormed hash (bytes ++ back) message → back ≠ [] →
      ∀ other, parseBy hash bytes ≠ .ok other := by
  constructor
  · intro htrailing message
    rw [parseBy_eq_ok_iff]
    constructor
    · rintro ⟨front, back, rfl, hformed, hcap⟩
      have hback : back = [] := by
        by_contra hback
        exact htrailing ⟨front, back, message, rfl, hback, hformed, hcap⟩
      rw [hback, List.append_nil]
      exact ⟨hformed, hcap⟩
    · rintro ⟨hformed, hcap⟩
      exact ⟨bytes, [], (List.append_nil bytes).symm, hformed, hcap⟩
  · intro message back hformed hback other hparse
    obtain ⟨front, middle, rfl, hfront, -⟩ := parseBy_eq_ok_iff.mp hparse
    rw [List.append_assoc] at hformed
    exact hback (List.append_eq_nil_iff.mp (hformed.append_nil hfront)).2

/-- A message of nothing but its prelude and the checksums, all of them zero. -/
def bareMessage : Bytes := toBe 4 16 ++ List.replicate 12 0

theorem parseBy_bareMessage : parseBy (fun _ => 0) bareMessage = .ok ⟨∅, []⟩ := by
  have hformed : WellFormed (fun _ => 0) bareMessage ⟨∅, []⟩ :=
    ⟨by decide, by decide, by decide, by decide, ⟨[], .nil, rfl⟩, rfl⟩
  refine ((parseBy_accepts (fun _ => 0) bareMessage).1 ?_ ⟨∅, []⟩).mpr ⟨hformed, by decide⟩
  rintro ⟨front, back, other, hsplit, hback, hfront, -⟩
  rw [hsplit] at hformed
  exact hback (hformed.append_nil hfront)

/-! ## Built messages -/

/-- What the builder writes is well formed. -/
theorem wellFormed_encodeMessage {headersBytes payload : Bytes}
    (hheaders : HeadersWire headersBytes headers)
    (hsize : wireLength headersBytes payload < 2 ^ 32) :
    WellFormed crc32Word (MessageBuilder.encodeMessage headersBytes payload)
      ⟨storeHeaders headers ∅, payload⟩ := by
  have hlength := length_encodeMessage headersBytes payload
  have hbound : headersBytes.length < 2 ^ 32 := by
    rw [wireLength] at hsize
    omega
  have hwords := encodeMessage_of_lt hsize
  obtain ⟨htotal, hheadersLength, hcrc⟩ := prelude_words (headersBytes ++ (payload ++
    toBe 4 (crc32 (MessageBuilder.encodePrelude (wireLength headersBytes payload)
      headersBytes.length ++ (headersBytes ++ payload))))) hsize hbound
  rw [← hwords] at htotal hheadersLength hcrc
  have hend : wireLength headersBytes payload - messageCrcLen =
      preludeLen + headersBytes.length + payload.length := by
    rw [wireLength, Nat.add_sub_cancel]
  constructor
  · rw [htotal, hheadersLength, wireLength]
    omega
  · rw [htotal, hlength]
  · exact hcrc.symm
  · have hsum := @checkMessageCrc_encodeMessage headersBytes payload .yes
    rw [checkMessageCrc] at hsum
    split_ifs at hsum with hmismatch
    rw [hlength]
    exact not_not.mp fun hne => hmismatch ⟨rfl, hne⟩
  · refine ⟨headers, ?_, rfl⟩
    rwa [hheadersLength, hwords, sliceRange_of_append (length_encodePrelude _ _) rfl]
  · rw [hheadersLength, hlength, hend, hwords, ← List.append_assoc,
      sliceRange_of_append (by rw [List.length_append, length_encodePrelude]) rfl]

/-- A message of no headers and 32 MiB of zeros is well formed, and longer than the cap. -/
theorem parseBy_refuses_long :
    ¬ ∀ hash bytes message, parseBy hash bytes = .ok message ↔ WellFormed hash bytes message := by
  intro hclaim
  have hlength : wireLength [] (List.replicate defaultMaxMessageBytes 0) =
      preludeLen + 0 + defaultMaxMessageBytes + messageCrcLen := by
    rw [wireLength, List.length_replicate]
    rfl
  have hformed : WellFormed crc32Word
      (MessageBuilder.encodeMessage [] (List.replicate defaultMaxMessageBytes 0))
      ⟨storeHeaders [] ∅, List.replicate defaultMaxMessageBytes 0⟩ :=
    wellFormed_encodeMessage .nil (by rw [hlength]; decide)
  have hparse := (hclaim _ _ _).mpr hformed
  obtain ⟨front, back, hsplit, hfront, hcap⟩ := parseBy_eq_ok_iff.mp hparse
  rw [hsplit] at hformed
  rw [hformed.append_nil hfront, List.append_nil] at hsplit
  rw [← hsplit, length_encodeMessage, hlength] at hcap
  exact absurd hcap (by decide)

end Legroom.Bedrock
