import Legroom.Lib.Float64
import Legroom.Transforms.LogTemplate

/-!
# Log lines

A line gets its level from the first level word in it, and is part of a stack trace if a
machine for the trace's language says so.  Levels, traces and summaries make its score.
-/

namespace Legroom.Transforms

namespace Log

open LogTemplate (Text isWhitespace)

/-- The character tables of the regular expressions and of `char::is_uppercase`. -/
structure LogChars where
  isDigit : Char → Bool
  isWord : Char → Bool
  isUppercase : Char → Bool

/-- The tables on ASCII characters. -/
def asciiChars : LogChars where
  isDigit := Char.isDigit
  isWord := fun char => char.isAlphanum || char = '_'
  isUppercase := Char.isUpper

inductive LogLevel where
  | error
  | fail
  | warn
  | info
  | debug
  | trace
  | unknown
deriving DecidableEq

structure LogLine where
  lineNumber : ℕ
  content : Text
  level : LogLevel
  isStackTrace : Bool
  isSummary : Bool
  score : ℚ
deriving DecidableEq

def LogLine.new (lineNumber : ℕ) (content : Text) : LogLine :=
  ⟨lineNumber, content, .unknown, false, false, 0⟩

structure LogCompressorConfig (F : Type*) where
  maxErrors : ℕ
  errorContextLines : ℕ
  keepFirstError : Bool
  keepLastError : Bool
  maxStackTraces : ℕ
  stackTraceMaxLines : ℕ
  maxWarnings : ℕ
  dedupeWarnings : Bool
  keepSummaryLines : Bool
  maxTotalLines : ℕ
  enableCcr : Bool
  minLinesForCcr : ℕ
  minCompressionRatioForCcr : F
  collapseRuntimeFrames : Bool
  traceHeadFrames : ℕ
  traceAppFrames : ℕ

def LogCompressorConfig.default {F : Type*} [Float64 F] : LogCompressorConfig F where
  maxErrors := 10
  errorContextLines := 3
  keepFirstError := true
  keepLastError := true
  maxStackTraces := 3
  stackTraceMaxLines := 20
  maxWarnings := 5
  dedupeWarnings := true
  keepSummaryLines := true
  maxTotalLines := 100
  enableCcr := true
  minLinesForCcr := 50
  minCompressionRatioForCcr := 0.5
  collapseRuntimeFrames := true
  traceHeadFrames := 3
  traceAppFrames := 5

/-! ## Texts -/

/-- `str::strip_prefix` -/
def stripPrefix (word : String) (text : Text) : Option Text :=
  if word.toList <+: text then some (text.drop word.toList.length) else none

/-- `str::starts_with` -/
def startsWith (text : Text) (word : String) : Bool := decide (word.toList <+: text)

/-- `str::contains` -/
def contains (text : Text) (word : String) : Bool := decide (word.toList <:+: text)

/-- `str::trim_start` -/
def trimStart (text : Text) : Text := text.dropWhile isWhitespace

/-- `str::trim` -/
def trim (text : Text) : Text := (trimStart (trimStart text).reverse).reverse

def startsIndented (text : Text) : Bool := text.head?.any fun char => char = ' ' || char = '\t'

/-! ## Levels -/

def levelWords : List (String × LogLevel) :=
  ["ERROR", "error", "Error", "FATAL", "fatal", "Fatal", "CRITICAL", "critical"].map (·, .error) ++
    ["FAIL", "FAILED", "fail", "failed", "Fail", "Failed"].map (·, .fail) ++
    ["WARN", "WARNING", "warn", "warning", "Warn", "Warning"].map (·, .warn) ++
    ["INFO", "info", "Info"].map (·, .info) ++
    ["DEBUG", "debug", "Debug"].map (·, .debug) ++
    ["TRACE", "trace", "Trace"].map (·, .trace)

/-- The longest word that the text starts with. -/
def levelWordAt (text : Text) : Option (ℕ × LogLevel) :=
  (levelWords.filter fun entry => startsWith text entry.1).foldl (fun longest entry =>
    if longest.any fun found => entry.1.toList.length ≤ found.1 then longest
    else some (entry.1.toList.length, entry.2)) none

def isWordByte (char : Char) : Bool := char.isAlphanum || char = '_'

/-- The level of the first word that stands alone.  Words do not overlap: behind a word the
search goes on at its end. -/
def classifyFrom : ℕ → Option Char → Text → LogLevel
  | _, _, [] => .unknown
  | skip + 1, _, char :: text => classifyFrom skip (some char) text
  | 0, before, char :: text =>
      match levelWordAt (char :: text) with
      | none => classifyFrom 0 (some char) text
      | some (length, level) =>
          if !before.any isWordByte && !((char :: text).drop length).head?.any isWordByte then level
          else classifyFrom (length - 1) (some char) text

def classify (line : Text) : LogLevel := classifyFrom 0 none line

/-! ## Frames of stack traces -/

inductive TraceFlavor where
  | pythonTraceback
  | js
  | java
  | rustError
  | rustBacktrace
  | goPanic
  | dotNet
deriving DecidableEq

def isPythonFileFrame (text : Text) : Bool :=
  startsWith text "File \"" && contains text "\", line " && text.getLast?.any Char.isDigit

/-- `:<digits>:<digits>` somewhere in the line. -/
def hasLineColSuffix : Text → Bool
  | [] => false
  | char :: text =>
      (char = ':' && text.head?.any Char.isDigit &&
          match text.dropWhile Char.isDigit with
          | ':' :: rest => rest.head?.any Char.isDigit
          | _ => false) ||
        hasLineColSuffix text

def isJsAtFrame (text : Text) : Bool :=
  startsWith text "at " && contains text "(" && contains text ")" && hasLineColSuffix text

def isJavaAtFrame (text : Text) : Bool :=
  startsWith text "at " && contains text "(" &&
    let body := (text.drop 3).takeWhile (· ≠ '(')
    !body.isEmpty && body.all fun char => char.isAlphanum || char ∈ ['.', '_', '$', '/']

def isRustPanicOpener (text : Text) : Bool :=
  startsWith text "thread '" && contains text "panicked at"

def isGoroutineHeader (line : Text) : Bool :=
  (stripPrefix "goroutine " line).any fun rest =>
    rest.head?.any Char.isDigit && startsWith (rest.dropWhile Char.isDigit) " ["

def isGoPanicOpener (line : Text) : Bool :=
  startsWith line "panic: " || startsWith line "fatal error: " || isGoroutineHeader line

def isGoFileFrame (line : Text) : Bool :=
  (stripPrefix "\t" line).any fun rest => contains rest ".go:" && contains rest " +0x"

def isGoCallFrame (line : Text) : Bool :=
  startsWith line "created by " ||
    (!startsIndented line && line.getLast? = some ')' && contains line "(" &&
      let symbol := line.takeWhile (· ≠ '(')
      !symbol.isEmpty && '.' ∈ symbol &&
        symbol.all fun char => char.isAlphanum || char ∈ ['.', '_', '/', '*'])

def isDotnetFrame (text : Text) : Bool :=
  startsWith text "at " && contains text ") in " && contains text ":line "

def isDotnetOpener (text : Text) : Bool :=
  startsWith text "Unhandled exception." || isDotnetFrame text

def isHexDigit (char : Char) : Bool :=
  char.isDigit || ('a' ≤ char && char ≤ 'f') || ('A' ≤ char && char ≤ 'F')

/-- `<digits>:<spaces>0x<hex>` -/
def isRustBacktraceFrame (line : Text) : Bool :=
  let trimmed := trimStart line
  trimmed.head?.any Char.isDigit &&
    (stripPrefix ":" (trimmed.dropWhile Char.isDigit)).any fun rest =>
      (stripPrefix "0x" (rest.dropWhile (· = ' '))).any fun hex => hex.head?.any isHexDigit

def flavorFor (line : Text) : Option TraceFlavor :=
  let trimmed := trimStart line
  if startsWith trimmed "Traceback (most recent call last)" || isPythonFileFrame trimmed then
    some .pythonTraceback
  else if isDotnetOpener trimmed then some .dotNet
  else if isJsAtFrame trimmed then some .js
  else if isJavaAtFrame trimmed then some .java
  else if startsWith trimmed "--> " && hasLineColSuffix trimmed then some .rustError
  else if isRustPanicOpener trimmed || startsWith trimmed "stack backtrace:" ||
      isRustBacktraceFrame line then
    some .rustBacktrace
  else if isGoPanicOpener line then some .goPanic
  else none

def isDotnetExceptionHead (trimmed : Text) : Bool :=
  contains trimmed ":" &&
    let head := trimmed.takeWhile (· ≠ ':')
    decide ("Exception".toList <:+ head) && '.' ∈ head &&
      head.all fun char => char.isAlphanum || char ∈ ['.', '_', Char.ofNat 0x60, '+']

/-- `... 17 more` -/
def isJavaMoreSummary (trimmed : Text) : Bool :=
  (stripPrefix "... " trimmed).any fun rest =>
    rest.head?.any Char.isDigit && trim (rest.dropWhile Char.isDigit) = "more".toList

/-- A line that ends the run of a trace which has `linesSoFar` lines. -/
def terminates (chars : LogChars) (flavor : TraceFlavor) (line : Text) (linesSoFar : ℕ) : Bool :=
  let trimmed := trimStart line
  let starts := fun (words : List String) => words.any (startsWith trimmed)
  match flavor with
  | .pythonTraceback =>
      !(startsIndented line || line.isEmpty ||
          starts ["Traceback", "File ", "During handling", "The above exception"]) &&
        !trimmed.head?.any chars.isUppercase
  | .js => !starts ["at "] && !line.isEmpty
  | .java =>
      !starts ["at ", "Caused by:", "Suppressed:"] && !isJavaMoreSummary trimmed && !line.isEmpty
  | .dotNet =>
      !line.isEmpty && !starts ["at ", "--->", "--- End of"] && !isDotnetExceptionHead trimmed
  | .rustError => !starts ["--> "] && !line.isEmpty
  | .rustBacktrace =>
      !(line.isEmpty || linesSoFar = 1) && !trimmed.head?.any Char.isDigit &&
        !(startsIndented line || starts ["stack backtrace:", "note: run with"])
  | .goPanic =>
      !line.isEmpty &&
        !(startsWith line "\t" || isGoroutineHeader line || isGoCallFrame line ||
          startsWith line "panic: " || startsWith line "fatal error: " ||
          startsWith line "[signal ")

/-! ## Summaries -/

def countsOutcome (line : Text) : Bool :=
  line.head?.any Char.isDigit &&
    (stripPrefix " " (line.dropWhile Char.isDigit)).any fun rest =>
      ["passed", "failed", "skipped", "error", "warning"].any (startsWith rest)

def isSummaryLine (line : Text) : Bool :=
  if startsWith line "===" || startsWith line "---" then true
  else if countsOutcome line then true
  else
    match ["Test ", "Tests ", "Tests:", "Test:", "Suite ", "Suites ", "Suites:", "Suite:"].findSome?
        (stripPrefix · line) with
    | some rest => (rest.find? (!isWhitespace ·)).any Char.isDigit
    | none =>
        ["TOTAL", "Total", "Summary"].any (startsWith line) ||
          (["Build", "Compile", "Test"].any (startsWith line) &&
            ["succeeded", "failed", "complete"].any (contains line))

/-! ## Scores and parsing -/

def levelScore : LogLevel → ℚ
  | .error | .fail => 1
  | .warn => 1 / 2
  | .info | .unknown => 1 / 10
  | .debug => 1 / 20
  | .trace => 1 / 50

/-- Sums in `f32` of these scores are in the order of the exact sums, with the same ties. -/
def scoreLogLine (line : LogLine) : ℚ :=
  min (levelScore line.level + (if line.isStackTrace then 3 / 10 else 0) +
    (if line.isSummary then 2 / 5 else 0)) 1

/-- The trace that is open, and how many lines it has. -/
structure TraceState where
  active : Option TraceFlavor
  traceLines : ℕ

/-- The state behind a line, and whether the line is part of a trace. -/
def traceStep {F : Type*} (chars : LogChars) (config : LogCompressorConfig F) (state : TraceState)
    (line : Text) : TraceState × Bool :=
  let opened : TraceState × Bool :=
    match flavorFor line with
    | some flavor => (⟨some flavor, 1⟩, true)
    | none => (⟨none, 0⟩, false)
  match state.active with
  | none => if opened.2 then opened else (⟨none, state.traceLines⟩, false)
  | some flavor =>
      let capHit := config.stackTraceMaxLines ≤ state.traceLines
      if capHit ∨ terminates chars flavor line state.traceLines then
        if opened.2 then opened
        else if capHit ∧ !terminates chars flavor line 2 then (⟨some flavor, 1⟩, true)
        else opened
      else (⟨some flavor, state.traceLines + 1⟩, true)

def parseFrom {F : Type*} (chars : LogChars) (config : LogCompressorConfig F) :
    TraceState → ℕ → List Text → List LogLine
  | _, _, [] => []
  | state, number, content :: lines =>
      let (next, isStackTrace) := traceStep chars config state content
      let line : LogLine :=
        ⟨number, content, classify content, isStackTrace, isSummaryLine content, 0⟩
      { line with score := scoreLogLine line } :: parseFrom chars config next (number + 1) lines

def parseLines {F : Type*} (chars : LogChars) (config : LogCompressorConfig F) (lines : List Text) :
    List LogLine :=
  parseFrom chars config ⟨none, 0⟩ 0 lines

end Log

end Legroom.Transforms
