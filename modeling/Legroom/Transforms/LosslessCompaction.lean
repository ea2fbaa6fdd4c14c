import Legroom.Lib.Python.Text

/-!
# Compaction without markers for retrieval

A content is rewritten in the way of its own format, and the rewriting is undone at once
to see that nothing is lost.  If something is, or nothing is gained, the content stays.
-/

namespace Legroom.LosslessCompaction

open Python

/-- The lines, and whether the last one is ended. -/
def splitKeepTrailing (content : Text) : List Text × Bool :=
  if content = [] then ([], false)
  else if content.getLast? = some newline then (splitLines content.dropLast, true)
  else (splitLines content, false)

def join (lines : List Text) (hadTrailing : Bool) : Text :=
  joinLines lines ++ if hadTrailing then [newline] else []

section

variable (tables : CharTables)

/-- `\d+` at the beginning. -/
def readDigits (line : Text) : Option (Text × Text) :=
  let digits := line.takeWhile (isDecimal tables)
  if digits = [] then none else some (digits, line.drop digits.length)

/-! ## Colours -/

def escape : CodePoint := 0x1B

/-- What follows a colour sequence. -/
def afterAnsi : Text → Option Text
  | first :: second :: rest =>
      let isParameter := fun char => char = codePoint ';' ∨ (0x30 ≤ char ∧ char ≤ 0x39)
      if first = escape ∧ second = codePoint '[' then
        match rest.dropWhile isParameter with
        | last :: after => if last = codePoint 'm' then some after else none
        | [] => none
      else none
  | _ => none

def stripAnsiFrom : ℕ → Text → Text
  | fuel + 1, char :: rest =>
      match afterAnsi (char :: rest) with
      | some after => stripAnsiFrom fuel after
      | none => char :: stripAnsiFrom fuel rest
  | _, content => content

def stripAnsi (content : Text) : Text := stripAnsiFrom content.length content

/-! ## Runs of one line -/

def runMarker (digits : Text) : Text := text "... (repeated " ++ digits ++ text " times)"

/-- The digits of a run marker. -/
def readRunMarker (line : Text) : Option Text := do
  let rest ← line.dropPrefix? (text "... (repeated ")
  let (digits, rest) ← readDigits tables rest
  if rest = text " times)" then some digits else none

def emitRun (line : Text) (count : ℕ) : Option (List Text) :=
  if 2 ≤ count then (intText count).map fun digits => [line, runMarker digits] else some [line]

/-- The lines after `count` equal ones. -/
def collapseFrom (line : Text) (count : ℕ) : List Text → Option (List Text)
  | [] => emitRun line count
  | next :: rest =>
      if next = line then collapseFrom line (count + 1) rest
      else do
        let out ← emitRun line count
        let more ← collapseFrom next 1 rest
        return out ++ more

def collapseRuns (content : Text) : Option Text :=
  let (lines, hadTrailing) := splitKeepTrailing content
  match lines with
  | [] => some content
  | line :: rest => (collapseFrom line 1 rest).map (join · hadTrailing)

def expandLines : List Text → Option (List Text)
  | line :: next :: rest =>
      match readRunMarker tables next with
      | some digits => do
          let count ← parseInt tables digits
          let more ← expandLines rest
          return List.replicate count line ++ more
      | none => (expandLines (next :: rest)).map (line :: ·)
  | lines => some lines

def expandRuns (content : Text) : Option Text :=
  let (lines, hadTrailing) := splitKeepTrailing content
  if lines = [] then some content else (expandLines tables lines).map (join · hadTrailing)

/-! ## Repeated blocks -/

def foldMinBlock : ℕ := 3
def foldMaxBlock : ℕ := 64
def foldMaxCandidates : ℕ := 8
def foldMaxLines : ℕ := 20000

def blockMarker (length distance : Text) : Text :=
  text "... (repeats " ++ length ++ text " lines from " ++ distance ++ text " lines back)"

/-- The length and the distance of a block marker. -/
def readBlockMarker (line : Text) : Option (Text × Text) := do
  let rest ← line.dropPrefix? (text "... (repeats ")
  let (length, rest) ← readDigits tables rest
  let rest ← rest.dropPrefix? (text " lines from ")
  let (distance, rest) ← readDigits tables rest
  if rest = text " lines back)" then some (length, distance) else none

/-- The last positions of each line. -/
abbrev Positions := Text → List ℕ

def remember (positions : Positions) (line : Text) (index : ℕ) : Positions := fun other =>
  if other = line then
    let bucket := positions line ++ [index]
    if foldMaxCandidates < bucket.length then bucket.drop 1 else bucket
  else positions other

def rememberAll (positions : Positions) (lines : List Text) (index : ℕ) : Positions :=
  (lines.zipIdx index).foldl (fun positions entry => remember positions entry.1 entry.2) positions

def commonLength : ℕ → List Text → List Text → ℕ
  | limit + 1, left :: lefts, right :: rights =>
      if left = right then commonLength limit lefts rights + 1 else 0
  | _, _, _ => 0

/-- The longest earlier block that comes again, and how far back it is. -/
def bestBlock (lines : List Text) (positions : List ℕ) (index : ℕ) : ℕ × ℕ :=
  positions.reverse.foldl (fun best position =>
    let limit := min foldMaxBlock (min (lines.length - index) (index - position))
    let length := commonLength limit (lines.drop position) (lines.drop index)
    if best.1 < length then (length, index - position) else best) (0, 0)

/-- The marker for a block, if it is shorter than the block. -/
def blockFold (block : List Text) (distance : ℕ) : Option (Option Text) :=
  if foldMinBlock ≤ block.length then do
    let length ← intText block.length
    let distance ← intText distance
    let marker := blockMarker length distance
    return if marker.length + 1 < (block.map fun line => line.length + 1).sum then some marker
      else none
  else some none

/-- The lines from an index on, of which no more than `fuel` are left. -/
def foldFrom (lines : List Text) : ℕ → ℕ → Positions → Option (List Text)
  | fuel + 1, index, positions =>
      match lines.drop index with
      | [] => some []
      | line :: rest => do
          let (length, distance) := bestBlock lines (positions line) index
          let block := (line :: rest).take length
          match ← blockFold block distance with
          | some marker => do
              let more ← foldFrom lines fuel (index + length) (rememberAll positions block index)
              return marker :: more
          | none => do
              let more ← foldFrom lines fuel (index + 1) (remember positions line index)
              return line :: more
  | 0, _, _ => some []

def foldRepeatedBlocks (content : Text) : Option Text :=
  let (lines, hadTrailing) := splitKeepTrailing content
  if lines.length < foldMinBlock * 2 ∨ foldMaxLines < lines.length then some content
  else (foldFrom lines lines.length 0 fun _ => []).map (join · hadTrailing)

def unfoldLines : List Text → List Text → Option (List Text)
  | out, [] => some out
  | out, line :: rest =>
      match readBlockMarker tables line with
      | some (length, distance) => do
          let length ← parseInt tables length
          let distance ← parseInt tables distance
          if distance ≤ out.length ∧ length ≤ distance then
            unfoldLines (out ++ (out.drop (out.length - distance)).take length) rest
          else unfoldLines (out ++ [line]) rest
      | none => unfoldLines (out ++ [line]) rest

def unfoldRepeatedBlocks (content : Text) : Option Text :=
  let (lines, hadTrailing) := splitKeepTrailing content
  if lines = [] then some content else (unfoldLines tables [] lines).map (join · hadTrailing)

/-! ## Search results -/

/-- `line:content` -/
def readHeadingRow (line : Text) : Option (Text × Text) :=
  match readDigits tables line with
  | some (digits, separator :: content) =>
      if separator = colon then some (digits, content) else none
  | _ => none

/-- `path:line:content` -/
def readGrepRow (line : Text) : Option (Text × Text × Text) :=
  let path := line.takeWhile (· ≠ colon)
  if path = [] then none
  else (readHeadingRow tables (line.drop (path.length + 1))).map (path, ·)

def headingRow (row : Text × Text) : Text := row.1 ++ [colon] ++ row.2

def searchHeadingLines : Option Text → List Text → List Text
  | _, [] => []
  | current, line :: rest =>
      match readGrepRow tables line with
      | some (path, row) =>
          (if current = some path then [] else [path]) ++
            headingRow row :: searchHeadingLines (some path) rest
      | none => line :: searchHeadingLines none rest

def searchHeading (content : Text) : Text :=
  let (lines, hadTrailing) := splitKeepTrailing content
  if lines = [] then content else join (searchHeadingLines tables none lines) hadTrailing

def searchUnheadingLines : Option Text → List Text → List Text
  | _, [] => []
  | current, line :: rest =>
      match current, readHeadingRow tables line with
      | some path, some row =>
          (path ++ [colon] ++ headingRow row) :: searchUnheadingLines (some path) rest
      | _, data =>
          if data.isNone ∧ (rest.head?.bind (readHeadingRow tables)).isSome then
            searchUnheadingLines (some line) rest
          else line :: searchUnheadingLines none rest

def searchUnheading (content : Text) : Text :=
  let (lines, hadTrailing) := splitKeepTrailing content
  if lines = [] then content else join (searchUnheadingLines tables none lines) hadTrailing

/-! ## Paths -/

def slash : CodePoint := 0x2F

def isSegment (piece : Text) : Bool :=
  piece ≠ [] ∧ piece.all fun char => !tables.isSpace char && char ≠ colon

/-- The directory and the name of a path. -/
def readPathRow (line : Text) : Option (Text × Text) :=
  let pieces := line.splitOn slash
  let base := pieces.getLastD []
  let directories :=
    match pieces.dropLast with
    | [] :: rest => rest
    | pieces => pieces
  if directories ≠ [] ∧ directories.all (isSegment tables) ∧ isSegment tables base then
    some (line.take (line.length - base.length), base)
  else none

def pathHeadingLines : Option Text → List Text → List Text
  | _, [] => []
  | current, line :: rest =>
      match readPathRow tables line with
      | some (directory, base) =>
          (if current = some directory then [] else [directory]) ++
            base :: pathHeadingLines (some directory) rest
      | none => line :: pathHeadingLines none rest

def pathHeading (content : Text) : Text :=
  let (lines, hadTrailing) := splitKeepTrailing content
  if (lines.filter fun line => (readPathRow tables line).isSome).length < 2 then content
  else join (pathHeadingLines tables none lines) hadTrailing

def isBase (line : Text) : Bool := line ≠ [] ∧ slash ∉ line

def pathUnheadingLines : Option Text → List Text → List Text
  | _, [] => []
  | current, line :: rest =>
      match current, isBase line with
      | some directory, true => (directory ++ line) :: pathUnheadingLines (some directory) rest
      | _, _ =>
          if line.getLast? = some slash ∧ rest.head?.any isBase then
            pathUnheadingLines (some line) rest
          else line :: pathUnheadingLines none rest

def pathUnheading (content : Text) : Text :=
  let (lines, hadTrailing) := splitKeepTrailing content
  if lines = [] then content else join (pathUnheadingLines none lines) hadTrailing

/-! ## Diffs -/

def isHex (char : CodePoint) : Bool :=
  (0x30 ≤ char ∧ char ≤ 0x39) ∨ (0x41 ≤ char ∧ char ≤ 0x46) ∨ (0x61 ≤ char ∧ char ≤ 0x66)

def isOctal (char : CodePoint) : Bool := 0x30 ≤ char ∧ char ≤ 0x37

/-- What follows the digits, if there are some. -/
def afterHex (line : Text) : Option Text :=
  if (line.takeWhile isHex).isEmpty then none else some (line.dropWhile isHex)

/-- The `index` line of a diff. -/
def isDiffIndex (line : Text) : Bool :=
  let mode := do
    let rest ← line.dropPrefix? (text "index ")
    let rest ← afterHex rest
    let rest ← rest.dropPrefix? (text "..")
    afterHex rest
  match mode with
  | some [] => true
  | some (blank :: digits) => blank = 0x20 ∧ digits ≠ [] ∧ digits.all isOctal
  | none => false

def diffStripIndex (content : Text) : Text :=
  let (lines, hadTrailing) := splitKeepTrailing content
  if lines = [] then content else join (lines.filter (!isDiffIndex ·)) hadTrailing

/-! ## Dispatch -/

inductive Kind where
  | log | search | paths | diff | text | config | other
deriving DecidableEq

def smaller (candidate original : Text) : Bool := candidate.length < original.length

/-- The candidate, if it is decoded to the baseline and smaller than the content. -/
def verified (encode decode : Text → Option Text) (baseline content : Text) : Option Text := do
  let candidate ← encode baseline
  let restored ← decode candidate
  if restored ≠ baseline then return content
  else return if smaller candidate content then candidate else content

/-- The content itself if anything fails. -/
def compactLossless (content : Text) (kind : Kind) : Text :=
  if content = [] then content
  else
    (match kind with
      | .log => verified collapseRuns (expandRuns tables) (stripAnsi content) content
      | .search =>
          verified (some ∘ searchHeading tables) (some ∘ searchUnheading tables) content content
      | .paths => verified (some ∘ pathHeading tables) (some ∘ pathUnheading) content content
      | .diff =>
          let candidate := diffStripIndex content
          some (if smaller candidate content then candidate else content)
      | .text => verified collapseRuns (expandRuns tables) content content
      | .config =>
          verified (fun content => (collapseRuns content).bind foldRepeatedBlocks)
            (fun candidate => (unfoldRepeatedBlocks tables candidate).bind (expandRuns tables))
            content content
      | .other => some content).getD content

end

end Legroom.LosslessCompaction
