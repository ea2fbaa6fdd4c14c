import Legroom.Lib.Python.Utf8

/-!
# Events in a byte buffer

Complete events are taken off the front of a buffer.  Only the bytes of a complete event
are decoded, and its lines end wherever `str.splitlines` ends a line.
-/

namespace Legroom.Proxy

open Python

namespace SseByteBuffer

/-! ## Terminators -/

def terminators : List Bytes :=
  [[Byte.lf, Byte.lf], [Byte.cr, Byte.lf, Byte.cr, Byte.lf]]

/-- `buf.find(pattern)`, where the search is at an index. -/
def findFrom (pattern : Bytes) (index : ℕ) : Bytes → Option ℕ
  | [] => if pattern.isEmpty then some index else none
  | byte :: rest =>
      if pattern.isPrefixOf (byte :: rest) then some index else findFrom pattern (index + 1) rest

/-- The first of the least items, by what comes first in an item. -/
def earliest : List (ℕ × ℕ) → Option (ℕ × ℕ)
  | [] => none
  | first :: rest =>
      some (rest.foldl (fun best found => if found.1 < best.1 then found else best) first)

def findTerminatorFrom (index : ℕ) (buf : Bytes) : Option (ℕ × ℕ) :=
  earliest (terminators.filterMap fun terminator =>
    (findFrom terminator index buf).map fun found => (found, terminator.length))

def findSseEventTerminator (buf : Bytes) : Option (ℕ × ℕ) := findTerminatorFrom 0 buf

/-! ## Lines -/

/-- The characters at which `str.splitlines` ends a line. -/
def lineBreaks : List CodePoint :=
  [0x0A, 0x0B, 0x0C, 0x0D, 0x1C, 0x1D, 0x1E, 0x85, 0x2028, 0x2029]

def carriageReturn : CodePoint := 0x0D

/-- `str.splitlines`.  A carriage return and a line feed are one break, and nothing follows
the last break. -/
def splitlines : Text → List Text
  | [] => []
  | char :: rest =>
      if char = carriageReturn ∧ rest.head? = some newline then splitlines rest
      else if char ∈ lineBreaks then [] :: splitlines rest
      else
        match splitlines rest with
        | [] => [[char]]
        | line :: lines => (char :: line) :: lines

/-- The last event name and the data of an event. -/
structure Fields where
  name : Option Text
  data : List Text
deriving DecidableEq

namespace Fields

def empty : Fields := ⟨none, []⟩

/-- The fields of an event that carries data. -/
def carried (fields : Fields) : Option Fields := if fields.data.isEmpty then none else some fields

/-- The event that is reported, if it carries data. -/
def event (fields : Fields) : Option (Option Text × Text) :=
  fields.carried.map fun fields => (fields.name, joinLines fields.data)

end Fields

def eventPrefix : Text := text "event:"

def dataPrefix : Text := text "data:"

section

-- `str.isspace` of a character.
variable (isSpace : CodePoint → Bool)

def lstrip (text : Text) : Text := text.dropWhile isSpace

def readLine (fields : Fields) (line : Text) : Fields :=
  if line.isEmpty then fields
  else if [colon].isPrefixOf line then fields
  else if eventPrefix.isPrefixOf line then
    { fields with name := some (lstrip isSpace (line.drop eventPrefix.length)) }
  else if dataPrefix.isPrefixOf line then
    { fields with data := fields.data ++ [lstrip isSpace (line.drop dataPrefix.length)] }
  else fields

def readEvent (text : Text) : Fields := (splitlines text).foldl (readLine isSpace) .empty

/-- The loop.  A pass takes at least a terminator off the buffer, whose length bounds the
number of passes. -/
def parseEvents : ℕ → Bytes → Option (List (Option Text × Text) × Bytes)
  | 0, buf => some ([], buf)
  | fuel + 1, buf =>
      match findSseEventTerminator buf with
      | none => some ([], buf)
      | some (index, length) => do
          let eventText ← decodeUtf8 (buf.take index)
          let (events, rest) ← parseEvents fuel (buf.drop (index + length))
          return ((readEvent isSpace eventText).event.toList ++ events, rest)

/-- The complete events, unless one cannot be decoded, and what is left in the buffer. -/
def parseSseEventsFromByteBuffer (buf : Bytes) : Option (List (Option Text × Text) × Bytes) :=
  parseEvents isSpace buf.length buf

/-- The events of a stream that comes in chunks. -/
def parseChunks : Bytes → List Bytes → Option (List (Option Text × Text) × Bytes)
  | buf, [] => some ([], buf)
  | buf, chunk :: chunks => do
      let (events, rest) ← parseSseEventsFromByteBuffer isSpace (buf ++ chunk)
      let (later, rest) ← parseChunks rest chunks
      return (events ++ later, rest)

end

end SseByteBuffer

end Legroom.Proxy
