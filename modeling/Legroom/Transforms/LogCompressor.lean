import Legroom.SmartCrusher.AdaptiveSizer
import Legroom.Transforms.LogLines
import Mathlib.Data.List.Sort

/-!
# Log compression

Errors, failures, warnings, traces and summaries are selected with the lines around them, and
the best ones of these if they are too many.  A long trace loses the frames of its runtime,
with a marker for every run of them.
-/

namespace Legroom.Transforms

namespace Log

open LogTemplate (Text byteLen decimal)
open SmartCrusher (TextTools computeOptimalK)

/-! ## Collapsed frames -/

def isFrameLine (line : Text) : Bool :=
  let trimmed := trimStart line
  startsWith trimmed "at " ||
    (startsWith trimmed "File \"" && contains trimmed "\", line ") ||
    isRustBacktraceFrame line || isGoFileFrame line || isGoCallFrame line

/-- Heads of chained traces, which survive a collapse. -/
def isChainHeadLine (line : Text) : Bool :=
  ["Caused by:", "Suppressed:", "... ", "--->", "--- End of", "During handling",
    "The above exception"].any (startsWith (trimStart line))

def runtimeFramePrefixes : List String :=
  ["at java.", "at jdk.", "at sun.", "at javax.", "at scala.", "at System.", "at Microsoft.",
    "runtime.", "created by runtime."]

def runtimeFrameMarkers : List String :=
  ["site-packages/", "/usr/lib/python", "lib/python3.", "node:internal/", "node_modules/",
    "(internal/", "core::", "std::", "alloc::", "rust_begin_unwind", "__rust_", "/rustc/",
    "/usr/local/go/src/", "/libexec/src/runtime/"]

def isRuntimeFrame (line : Text) : Bool :=
  runtimeFramePrefixes.any (startsWith (trimStart line)) ||
    runtimeFrameMarkers.any (contains line)

structure CollapsedTrace where
  kept : List LogLine
  droppedIndices : List ℕ

structure Collapse where
  kept : List LogLine
  droppedIndices : List ℕ
  framesSeen : ℕ
  appKept : ℕ
  runStart : Option ℕ
  runLen : ℕ
  prevDropped : Bool

/-- The line that stands for a run of dropped frames, in the place of the first of them. -/
def frameMarker (lineNumber runLen : ℕ) : LogLine :=
  { LogLine.new lineNumber
      ("      [... ".toList ++ decimal runLen ++ " frames collapsed]".toList) with
    score := 4 / 5
    isStackTrace := true }

def Collapse.flushRun (state : Collapse) : Collapse :=
  match state.runStart with
  | none => state
  | some lineNumber =>
      { state with
        kept := state.kept ++ [frameMarker lineNumber state.runLen]
        runStart := none
        runLen := 0 }

def Collapse.keep (state : Collapse) (line : LogLine) : Collapse :=
  { state.flushRun with kept := state.flushRun.kept ++ [line], prevDropped := false }

def Collapse.drop (state : Collapse) (line : LogLine) : Collapse :=
  { state with
    runStart := state.runStart.or (some line.lineNumber)
    runLen := state.runLen + 1
    droppedIndices := state.droppedIndices ++ [line.lineNumber]
    prevDropped := true }

/-- A line under a dropped frame goes with it. -/
def Collapse.dropContinuation (state : Collapse) (line : LogLine) : Collapse :=
  { state with
    runLen := state.runLen + 1
    droppedIndices := state.droppedIndices ++ [line.lineNumber] }

def Collapse.line (headFrames appFrames : ℕ) (state : Collapse) (line : LogLine) : Collapse :=
  if isFrameLine line.content && !isChainHeadLine line.content then
    let seen := { state with framesSeen := state.framesSeen + 1 }
    let runtime := isRuntimeFrame line.content
    if seen.framesSeen ≤ headFrames ∨ !runtime ∧ state.appKept < appFrames then
      { seen with appKept := if runtime then state.appKept else state.appKept + 1 }.keep line
    else seen.drop line
  else if state.prevDropped && startsIndented line.content && !isChainHeadLine line.content then
    state.dropContinuation line
  else state.keep line

def collapseTraceFrames (stack : List LogLine) (headFrames appFrames : ℕ) : CollapsedTrace :=
  let state := (stack.foldl (Collapse.line headFrames appFrames)
    ⟨[], [], 0, 0, none, 0, false⟩).flushRun
  ⟨state.kept, state.droppedIndices⟩

/-! ## Similar warnings -/

/-- `\d+` by `N` -/
def replaceDigits (chars : LogChars) : Bool → Text → Text
  | _, [] => []
  | inside, char :: text =>
      if chars.isDigit char then
        if inside then replaceDigits chars true text else 'N' :: replaceDigits chars true text
      else char :: replaceDigits chars false text

/-- `0x[0-9a-fA-F]+` by `ADDR` -/
def replaceHex : ℕ → Text → Text
  | _, [] => []
  | skip + 1, _ :: text => replaceHex skip text
  | 0, char :: text =>
      match stripPrefix "0x" (char :: text) with
      | some rest =>
          let digits := rest.takeWhile isHexDigit
          if digits.isEmpty then char :: replaceHex 0 text
          else "ADDR".toList ++ replaceHex (digits.length + 1) text
      | none => char :: replaceHex 0 text

/-- The length of what `[\w/]+/` takes of a text: up to the last slash that is not the first
character. -/
def pathLength (chars : LogChars) (text : Text) : ℕ :=
  let run := text.takeWhile fun char => chars.isWord char || char = '/'
  let upToSlash := run.length - (run.reverse.takeWhile (· ≠ '/')).length
  if 2 ≤ upToSlash then upToSlash else 0

/-- `/[\w/]+/` by `/PATH/` -/
def replacePaths (chars : LogChars) : ℕ → Text → Text
  | _, [] => []
  | skip + 1, _ :: text => replacePaths chars skip text
  | 0, char :: text =>
      let length := pathLength chars text
      if char = '/' ∧ 0 < length then "/PATH/".toList ++ replacePaths chars length text
      else char :: replacePaths chars 0 text

/-- What is behind the first colon or equals sign is made uniform. -/
def normalizeForDedupe (chars : LogChars) (content : Text) : Text :=
  let isPrefix := fun char => char ≠ ':' ∧ char ≠ '='
  content.takeWhile isPrefix ++
    replacePaths chars 0 (replaceHex 0 (replaceDigits chars false (content.dropWhile isPrefix)))

def dedupeFrom (chars : LogChars) : List Text → List LogLine → List LogLine
  | _, [] => []
  | seen, line :: lines =>
      let key := normalizeForDedupe chars line.content
      if key ∈ seen then dedupeFrom chars seen lines
      else line :: dedupeFrom chars (key :: seen) lines

def dedupeSimilar (chars : LogChars) (lines : List LogLine) : List LogLine :=
  dedupeFrom chars [] lines

/-! ## Selection -/

/-- The better line, and of two as good ones the earlier one. -/
def ScoreOrder (left right : LogLine) : Prop :=
  right.score < left.score ∨ right.score = left.score ∧ left.lineNumber ≤ right.lineNumber

instance : DecidableRel ScoreOrder := fun left right =>
  inferInstanceAs (Decidable (right.score < left.score ∨
    right.score = left.score ∧ left.lineNumber ≤ right.lineNumber))

def LineOrder (left right : LogLine) : Prop := left.lineNumber ≤ right.lineNumber

instance : DecidableRel LineOrder := fun left right =>
  inferInstanceAs (Decidable (left.lineNumber ≤ right.lineNumber))

/-- Lines are the same if their numbers are.  Of two, the one that came first stays. -/
def insertLine (lines : List LogLine) (line : LogLine) : List LogLine :=
  if lines.any (·.lineNumber = line.lineNumber) then lines else lines ++ [line]

def insertLines (lines more : List LogLine) : List LogLine := more.foldl insertLine lines

section

variable {F : Type*} [Float64 F] (chars : LogChars) (config : LogCompressorConfig F)

def selectWithFirstLast (lines : List LogLine) (maxCount : ℕ) : List LogLine :=
  if lines.length ≤ maxCount then lines
  else
    let first := if config.keepFirstError then lines.head?.toList else []
    let last := if config.keepLastError then lines.getLast?.toList else []
    (lines.insertionSort ScoreOrder).foldl
      (fun out line => if maxCount ≤ out.length then out else insertLine out line)
      (insertLines first last)

def withLevel (level : LogLevel) (lines : List LogLine) : List LogLine :=
  lines.filter (·.level = level)

/-- The stretches of lines that are part of a trace. -/
def stackTraces (lines : List LogLine) : List (List LogLine) :=
  (lines.splitOnP fun line => !line.isStackTrace).filter (· ≠ [])

def isCollapsed (stack : List LogLine) : Bool :=
  config.collapseRuntimeFrames && config.stackTraceMaxLines < stack.length

def collapseOf (stack : List LogLine) : CollapsedTrace :=
  collapseTraceFrames stack config.traceHeadFrames config.traceAppFrames

def stackLines (stack : List LogLine) : List LogLine :=
  (if isCollapsed config stack then (collapseOf config stack).kept else stack).take
    config.stackTraceMaxLines

def collapsedFrameIndices (traces : List (List LogLine)) : List ℕ :=
  (traces.filter (isCollapsed config)).flatMap fun stack =>
    (collapseOf config stack).droppedIndices

/-- The lines that are selected for themselves, category by category. -/
def categoryLines (lines : List LogLine) : List LogLine :=
  let warnings := withLevel .warn lines
  let warnings := if config.dedupeWarnings then dedupeSimilar chars warnings else warnings
  selectWithFirstLast config (withLevel .error lines) config.maxErrors ++
    selectWithFirstLast config (withLevel .fail lines) config.maxErrors ++
    warnings.take config.maxWarnings ++
    ((stackTraces lines).take config.maxStackTraces).flatMap (stackLines config) ++
    if config.keepSummaryLines then lines.filter (·.isSummary) else []

/-- The places next to a selected line.  The end of a window is a `usize`. -/
def contextIndices (count : ℕ) (selected : List LogLine) : List ℕ :=
  (List.range count).filter fun index =>
    selected.any fun line =>
      line.lineNumber - config.errorContextLines ≤ index &&
        index < min ((line.lineNumber + config.errorContextLines + 1) % 2 ^ 64) count &&
        index ≠ line.lineNumber

/-- The selection before it is cut to its size, in no order. -/
def chosenLines (lines : List LogLine) : List LogLine :=
  let selected := insertLines [] (categoryLines chars config lines)
  let collapsed := collapsedFrameIndices config ((stackTraces lines).take config.maxStackTraces)
  let context := (contextIndices config lines.length selected).filter fun index =>
    index ∉ selected.map (·.lineNumber) && index ∉ collapsed
  insertLines selected (context.filterMap fun index => lines[index]?)

/-- The best lines, back in their order. -/
def capLines (adaptiveMax : ℕ) (chosen : List LogLine) : List LogLine :=
  let ordered := chosen.insertionSort LineOrder
  if adaptiveMax < ordered.length then
    ((ordered.insertionSort ScoreOrder).take adaptiveMax).insertionSort LineOrder
  else ordered

/-- A text in its encoding. -/
def encode (text : Text) : Utf8.Utf8String :=
  let bytes := text.flatMap String.utf8EncodeChar
  if hvalid : Utf8.Valid bytes then ⟨bytes, hvalid⟩ else ⟨[], Utf8.valid_nil⟩

def adaptiveMax (tools : TextTools) (lines : List LogLine) (bias : F) : ℕ :=
  computeOptimalK tools (lines.map fun line => encode line.content) bias 10
    (some config.maxTotalLines)

def selectLines (tools : TextTools) (lines : List LogLine) (bias : F) : List LogLine :=
  capLines (adaptiveMax config tools lines bias) (chosenLines chars config lines)

end

/-! ## Output -/

/-- `[N lines omitted: ...]`, if a level has lines. -/
def omissionSummary (omitted : ℕ) (lines : List LogLine) : List Text :=
  let parts := [("ERROR", LogLevel.error), ("FAIL", .fail), ("WARN", .warn), ("INFO", .info)]
  let counts := parts.filterMap fun (label, level) =>
    let count := (withLevel level lines).length
    if 0 < count then some (decimal count ++ ' ' :: label.toList) else none
  if 0 < omitted ∧ counts ≠ [] then
    ["[".toList ++ decimal omitted ++ " lines omitted: ".toList ++
      ", ".toList.intercalate counts ++ "]".toList]
  else []

/-- The lines of `format_output`. -/
def outputLines (selected lines : List LogLine) : List Text :=
  selected.map (·.content) ++ omissionSummary (lines.length - selected.length) lines

def formatOutput (selected lines : List LogLine) : Text :=
  ['\n'].intercalate (outputLines selected lines)

structure LogCompressionResult where
  compressed : Text
  originalLineCount : ℕ
  compressedLineCount : ℕ
  cacheKey : Option Text
deriving DecidableEq

section

variable {F : Type*} [Float64 F] (chars : LogChars) (tools : TextTools)
  (md5Hex24 : Text → Text)

def retrievalMarker (originalLineCount selectedCount : ℕ) (key : Text) : Text :=
  "[".toList ++ decimal originalLineCount ++ " lines compressed to ".toList ++
    decimal selectedCount ++ ". Retrieve more: hash=".toList ++ key ++ "]".toList

/-- `compress_with_store`: the result, and what is put into the store if there is one. -/
def compressWithStore (config : LogCompressorConfig F) (hasStore : Bool) (content : Text)
    (bias : F) : LogCompressionResult × List (Text × Text) :=
  let lines := content.splitOn '\n'
  if lines.length < config.minLinesForCcr then
    (⟨content, lines.length, lines.length, none⟩, [])
  else
    let logLines := parseLines chars config lines
    let selected := selectLines chars config tools logLines bias
    let compressed := formatOutput selected logLines
    let ratio := Float64.div (Float64.ofNat (byteLen compressed))
      (Float64.ofNat (max (byteLen content) 1))
    if config.enableCcr && !Float64.le config.minCompressionRatioForCcr ratio && hasStore then
      let key := md5Hex24 content
      (⟨compressed ++ '\n' :: retrievalMarker lines.length selected.length key, lines.length,
        selected.length, some key⟩, [(key, content)])
    else (⟨compressed, lines.length, selected.length, none⟩, [])

end

end Log

end Legroom.Transforms
