import Legroom.Lib.Float64
import Legroom.Transforms.LogTemplate
import Mathlib.Data.List.Sort

/-!
# Unified diffs

A diff is read line by line into files and hunks.  Files and hunks over their caps are
dropped, the context of the kept hunks is trimmed, and what is left is written back with a
summary.
-/

namespace Legroom.Transforms

namespace Diff

open LogTemplate (Text byteLen decimal tokenize)

/-! ## Texts -/

/-- The character tables of the regular expressions and of `str::to_lowercase`. -/
structure Unicode where
  isDigit : Char → Bool
  isWord : Char → Bool
  /-- Simple case folding. -/
  fold : Char → Char
  toLowercase : Text → Text
  /-- Of ASCII, `\d` has the ten digits. -/
  isDigit_ascii : ∀ char : Char, char.toNat < 128 → (isDigit char = true ↔ char.isDigit = true)

/-- What is behind a literal. -/
def literal (word : String) (text : Text) : Option Text :=
  if word.toList <+: text then some (text.drop word.toList.length) else none

/-- `str::starts_with` -/
def startsWith (text : Text) (word : String) : Bool := decide (word.toList <+: text)

/-! ## Configuration and results -/

variable {F : Type*} [Float64 F]

structure DiffCompressorConfig (F : Type*) where
  maxContextLines : ℕ
  maxHunksPerFile : ℕ
  maxFiles : ℕ
  enableCcr : Bool
  minLinesForCcr : ℕ
  minCompressionRatioForCcr : F

def DiffCompressorConfig.default : DiffCompressorConfig F :=
  ⟨2, 10, 20, true, 50, 0.8⟩

structure DiffCompressionResult where
  compressed : Text
  originalLineCount : ℕ
  compressedLineCount : ℕ
  filesAffected : ℕ
  additions : ℕ
  deletions : ℕ
  hunksKept : ℕ
  hunksRemoved : ℕ
  cacheKey : Option Text
deriving DecidableEq

structure DiffHunk (F : Type*) where
  header : Text
  lines : List Text
  additions : ℕ
  deletions : ℕ
  contextLines : ℕ
  score : F
deriving DecidableEq

structure DiffFile (F : Type*) where
  header : Text
  oldFile : Text
  newFile : Text
  hunks : List (DiffHunk F)
  isBinary : Bool
  isNewFile : Bool
  isDeletedFile : Bool
  renameLines : List Text
deriving DecidableEq

def DiffFile.totalAdditions (file : DiffFile F) : ℕ := (file.hunks.map (·.additions)).sum

def DiffFile.totalDeletions (file : DiffFile F) : ℕ := (file.hunks.map (·.deletions)).sum

/-! ## Headers -/

/-- `\d+` -/
def number (unicode : Unicode) (text : Text) : Option Text :=
  if text.head?.any unicode.isDigit then some (text.dropWhile unicode.isDigit) else none

/-- `\d+(?:,\d+)?` -/
def range (unicode : Unicode) (text : Text) : Option Text :=
  (number unicode text).map fun rest =>
    ((literal "," rest).bind (number unicode)).getD rest

/-- The ranges of the parents, each behind a minus sign. -/
def parentRanges (unicode : Unicode) : ℕ → Text → Option Text
  | 0, text => some text
  | parents + 1, text => do
      let rest ← literal "-" text
      let rest ← range unicode rest
      let rest ← literal " " rest
      parentRanges unicode parents rest

/-- A hunk header with `parents` old ranges between two runs of `@`. -/
def hunkHeader (unicode : Unicode) (ats : String) (parents : ℕ) (text : Text) : Option Text := do
  let rest ← literal ats text
  let rest ← literal " " rest
  let rest ← parentRanges unicode parents rest
  let rest ← literal "+" rest
  let rest ← range unicode rest
  let rest ← literal " " rest
  literal ats rest

/-- `hunk_header_regex` -/
def isHunkHeader (unicode : Unicode) (line : Text) : Bool :=
  (hunkHeader unicode "@@" 1 line).isSome ||
    (hunkHeader unicode "@@@" 2 line).isSome ||
    (hunkHeader unicode "@@@@" 3 line).isSome

/-- `diff_git_regex`: a path may have the second prefix in it. -/
def isDiffGit (line : Text) : Bool :=
  (literal "diff --git a/" line).any fun paths =>
    (paths.tails.drop 1).any fun tail => (literal " b/" tail).any (· ≠ [])

/-- `diff_combined_regex` -/
def isDiffCombined (line : Text) : Bool := (literal "diff --combined " line).any (· ≠ [])

/-- `diff_cc_regex` -/
def isDiffCc (line : Text) : Bool := (literal "diff --cc " line).any (· ≠ [])

def isDiffHeader (line : Text) : Bool :=
  isDiffGit line || isDiffCombined line || isDiffCc line

/-- A side of a file header: a path behind its prefix, or no file. -/
def isSide (path : String) (side : Text) : Bool :=
  (literal path side).any (· ≠ []) || decide (side = "/dev/null".toList)

/-- `old_file_regex` -/
def isOldFile (line : Text) : Bool := (literal "--- " line).any (isSide "a/")

/-- `new_file_regex` -/
def isNewFile (line : Text) : Bool := (literal "+++ " line).any (isSide "b/")

/-- `binary_regex` -/
def isBinary (line : Text) : Bool :=
  (literal "Binary files " line).any fun rest => decide (" differ".toList <:+ rest.tail)

/-! ## Parsing -/

def DiffHunk.start (header : Text) : DiffHunk F := ⟨header, [], 0, 0, 0, 0.0⟩

def DiffFile.start (header : Text) : DiffFile F := ⟨header, [], [], [], false, false, false, []⟩

structure Parse (F : Type*) where
  files : List (DiffFile F)
  currentFile : Option (DiffFile F)
  currentHunk : Option (DiffHunk F)
  preDiffLines : List Text

/-- The open hunk is the last one of the open file. -/
def Parse.closeHunk (state : Parse F) : Parse F :=
  { state with
    currentFile := state.currentFile.map fun file =>
      { file with hunks := file.hunks ++ state.currentHunk.toList }
    currentHunk := none }

def Parse.closeFile (state : Parse F) : Parse F :=
  { state.closeHunk with
    files := state.files ++ state.closeHunk.currentFile.toList
    currentFile := none }

/-- The mode, rename and binary lines of a file. -/
def DiffFile.mark (file : DiffFile F) (line : Text) : DiffFile F :=
  if startsWith line "new file mode" then { file with isNewFile := true }
  else if startsWith line "deleted file mode" then { file with isDeletedFile := true }
  else if startsWith line "rename " || startsWith line "similarity " ||
      startsWith line "copy " || startsWith line "dissimilarity " then
    { file with renameLines := file.renameLines ++ [line] }
  else if Diff.isBinary line then { file with isBinary := true }
  else file

/-- A line of a hunk.  A change with a text like a file header is kept and not counted. -/
def DiffHunk.push (hunk : DiffHunk F) (line : Text) : DiffHunk F :=
  if startsWith line "+" && !startsWith line "+++" then
    { hunk with additions := hunk.additions + 1, lines := hunk.lines ++ [line] }
  else if startsWith line "-" && !startsWith line "---" then
    { hunk with deletions := hunk.deletions + 1, lines := hunk.lines ++ [line] }
  else if startsWith line " " || line.isEmpty then
    { hunk with contextLines := hunk.contextLines + 1, lines := hunk.lines ++ [line] }
  else { hunk with lines := hunk.lines ++ [line] }

def Parse.line (unicode : Unicode) (state : Parse F) (line : Text) : Parse F :=
  if isDiffHeader line then { state.closeFile with currentFile := some (.start line) }
  else
    match state.currentFile with
    | none => { state with preDiffLines := state.preDiffLines ++ [line] }
    | some file =>
        let file := file.mark line
        if isOldFile line then { state with currentFile := some { file with oldFile := line } }
        else if Diff.isNewFile line then
          { state with currentFile := some { file with newFile := line } }
        else if isHunkHeader unicode line then
          { Parse.closeHunk { state with currentFile := some file } with
            currentHunk := some (.start line) }
        else
          { state with
            currentFile := some file
            currentHunk := state.currentHunk.map (·.push line) }

structure ParsedDiff (F : Type*) where
  preDiffLines : List Text
  files : List (DiffFile F)

def parseDiff (unicode : Unicode) (lines : List Text) : ParsedDiff F :=
  let state := (lines.foldl (Parse.line unicode) ⟨[], none, none, []⟩).closeFile
  ⟨state.preDiffLines, state.files⟩

/-! ## Scoring -/

def priorityWords : List String :=
  ["error", "exception", "fail", "failed", "failure", "fatal", "critical", "crash", "panic",
    "important", "note", "todo", "fixme", "hack", "xxx", "bug", "fix", "security", "auth",
    "password", "secret", "token"]

/-- `\bword\b`, in any case -/
def hasWord (unicode : Unicode) (word : Text) : Option Char → Text → Bool
  | _, [] => false
  | before, char :: text =>
      (!before.any unicode.isWord && decide (word <+: (char :: text).map unicode.fold) &&
          !((char :: text).drop word.length).head?.any unicode.isWord) ||
        hasWord unicode word (some char) text

def isPriority (unicode : Unicode) (content : Text) : Bool :=
  priorityWords.any fun word => hasWord unicode word.toList none content

def isCjkChar (char : Char) : Bool :=
  let code := char.toNat
  (0x3040 ≤ code && code ≤ 0x30FF) || (0x3400 ≤ code && code ≤ 0x4DBF) ||
    (0x4E00 ≤ code && code ≤ 0x9FFF) || (0xAC00 ≤ code && code ≤ 0xD7AF) ||
    (0xF900 ≤ code && code ≤ 0xFAFF)

/-- The pairs of neighbours within the runs of such characters, each once. -/
def cjkBigrams (text : Text) : List Text :=
  ((text.zip text.tail).filterMap fun (first, second) =>
    if isCjkChar first && isCjkChar second then some [first, second] else none).dedup

def capped (cap score : F) : F := if Float64.lt cap score then cap else score

def scoreHunk (unicode : Unicode) (contextWords bigrams : List Text) (hunk : DiffHunk F) :
    DiffHunk F :=
  let changes := Float64.add (Float64.ofNat hunk.additions) (Float64.ofNat hunk.deletions)
  let density := capped 0.3 (Float64.add 0.0 (Float64.mul changes 0.03))
  let content := unicode.toLowercase (['\n'].intercalate hunk.lines)
  let words := contextWords.filter fun word => 2 < byteLen word && decide (word <:+: content)
  let found := words ++ bigrams.filter fun bigram => decide (bigram <:+: content)
  let score := found.foldl (fun score _ => Float64.add score 0.2) density
  let score := if isPriority unicode content then Float64.add score 0.3 else score
  { hunk with score := capped 1.0 score }

def scoreHunks (unicode : Unicode) (files : List (DiffFile F)) (context : Text) :
    List (DiffFile F) :=
  let contextLower := unicode.toLowercase context
  files.map fun file =>
    { file with
      hunks := file.hunks.map
        (scoreHunk unicode (tokenize contextLower) (cjkBigrams contextLower)) }

/-! ## Selection of hunks -/

/-- `str::parse::<usize>`, which takes ASCII digits only. -/
def parseUsize (digits : Text) : Option ℕ :=
  if digits.all Char.isDigit then
    let value := digits.foldl (fun value digit => 10 * value + (digit.toNat - 48)) 0
    if value < 2 ^ 64 then some value else none
  else none

/-- The digits of the first `\+(\d+)`. -/
def newRange (unicode : Unicode) : Text → Option Text
  | [] => none
  | char :: text =>
      if char = '+' ∧ text.head?.any unicode.isDigit then some (text.takeWhile unicode.isDigit)
      else newRange unicode text

def extractLineNumber (unicode : Unicode) (header : Text) : ℕ :=
  ((newRange unicode header).bind parseUsize).getD 0

/-- The order of `sort_by` with the larger score in front. -/
def ScoreOrder (left right : DiffHunk F) : Prop := Float64.lt left.score right.score = false

instance (left right : DiffHunk F) : Decidable (ScoreOrder left right) :=
  inferInstanceAs (Decidable (_ = _))

def HeaderOrder (unicode : Unicode) (left right : DiffHunk F) : Prop :=
  extractLineNumber unicode left.header ≤ extractLineNumber unicode right.header

instance (unicode : Unicode) (left right : DiffHunk F) :
    Decidable (HeaderOrder unicode left right) :=
  inferInstanceAs (Decidable (_ ≤ _))

/-- The kept hunks by their start lines, and the dropped ones by their scores. -/
def selectHunks (unicode : Unicode) (maxPerFile : ℕ) (hunks : List (DiffHunk F)) :
    List (DiffHunk F) × List (DiffHunk F) :=
  if hunks.length ≤ maxPerFile then (hunks, [])
  else
    match hunks with
    | [] => ([], [])
    | first :: rest =>
        let last := rest.getLast?
        let remainingSlots := if last.isSome then maxPerFile - 2 else maxPerFile - 1
        let middle := rest.dropLast.insertionSort ScoreOrder
        let selected := first :: (middle.take remainingSlots ++ last.toList)
        (selected.insertionSort (HeaderOrder unicode), middle.drop remainingSlots)

/-! ## Context -/

def isChange (line : Text) : Bool := startsWith line "+" || startsWith line "-"

/-- The window of a change: `usize` wraps behind it, and is cut off before it. -/
def inWindow (maxContext length position index : ℕ) : Bool :=
  (index = position) || (position - maxContext ≤ index && index < position) ||
    (position < index && index < min ((position + maxContext + 1) % 2 ^ 64) length)

def keptIndices (maxContext : ℕ) (lines : List Text) : List ℕ :=
  let changePositions := (List.range lines.length).filter fun index =>
    lines[index]?.any isChange
  (List.range lines.length).filter fun index =>
    (changePositions.any fun position => inWindow maxContext lines.length position index) ||
      lines[index]?.any (startsWith · "\\")

/-- A hunk with other lines, which are counted anew. -/
def DiffHunk.withLines (hunk : DiffHunk F) (lines : List Text) : DiffHunk F :=
  { hunk with
    lines := lines
    additions := lines.countP (startsWith · "+")
    deletions := lines.countP fun line => !startsWith line "+" && startsWith line "-"
    contextLines := lines.countP fun line => !startsWith line "+" && !startsWith line "-" }

def keptLines (maxContext : ℕ) (lines : List Text) : List Text :=
  (keptIndices maxContext lines).filterMap fun index => lines[index]?

def reduceContext (maxContext : ℕ) (hunk : DiffHunk F) : DiffHunk F :=
  if hunk.lines.any isChange then hunk.withLines (keptLines maxContext hunk.lines)
  else
    { hunk with
      lines := hunk.lines.take maxContext
      additions := 0
      deletions := 0
      contextLines := min maxContext hunk.lines.length }

/-! ## Output -/

def DiffFile.format (file : DiffFile F) : List Text :=
  let modeLine : List Text :=
    if file.isNewFile then ["new file mode 100644".toList]
    else if file.isDeletedFile then ["deleted file mode 100644".toList]
    else []
  let front := file.header :: (file.renameLines ++ modeLine)
  if file.isBinary then front ++ ["Binary files differ".toList]
  else
    front ++ [file.oldFile, file.newFile].filter (· ≠ []) ++
      file.hunks.flatMap fun hunk => hunk.header :: hunk.lines

def summary (filesAffected totalAdditions totalDeletions hunksRemoved : ℕ) : Text :=
  let parts : List Text :=
    [decimal filesAffected ++ " files changed".toList,
      "+".toList ++ decimal totalAdditions ++ " -".toList ++ decimal totalDeletions ++
        " lines".toList] ++
      if 0 < hunksRemoved then [decimal hunksRemoved ++ " hunks omitted".toList] else []
  "[".toList ++ ", ".toList.intercalate parts ++ "]".toList

def formatLines (preDiffLines : List Text) (files : List (DiffFile F))
    (filesAffected totalAdditions totalDeletions hunksRemoved : ℕ) : List Text :=
  preDiffLines ++ files.flatMap DiffFile.format ++
    if 0 < hunksRemoved ∨ 0 < filesAffected then
      [summary filesAffected totalAdditions totalDeletions hunksRemoved]
    else []

/-! ## Compression -/

def passThroughResult (content : Text) (lineCount : ℕ) : DiffCompressionResult :=
  ⟨content, lineCount, lineCount, 0, 0, 0, 0, 0, none⟩

def retrievalMarker (originalLineCount compressedLineCount : ℕ) (key : Text) : Text :=
  "[".toList ++ decimal originalLineCount ++ " lines compressed to ".toList ++
    decimal compressedLineCount ++ ". Retrieve full diff: hash=".toList ++ key ++ "]".toList

def changes (file : DiffFile F) : ℕ := file.totalAdditions + file.totalDeletions

def ChangesOrder (left right : DiffFile F) : Prop := changes right ≤ changes left

instance (left right : DiffFile F) : Decidable (ChangesOrder left right) :=
  inferInstanceAs (Decidable (_ ≤ _))

/-- The files with most changes. -/
def selectFiles (maxFiles : ℕ) (files : List (DiffFile F)) : List (DiffFile F) :=
  if maxFiles < files.length then (files.insertionSort ChangesOrder).take maxFiles else files

def compressFile (unicode : Unicode) (config : DiffCompressorConfig F) (file : DiffFile F) :
    DiffFile F :=
  { file with
    hunks := (selectHunks unicode config.maxHunksPerFile file.hunks).1.map
      (reduceContext config.maxContextLines) }

/-- `compress_with_store`: the result, and what is put into the store. -/
def compressWithStore (unicode : Unicode) (md5Hex24 : Text → Text)
    (config : DiffCompressorConfig F) (content context : Text) :
    DiffCompressionResult × List (Text × Text) :=
  let lines := content.splitOn '\n'
  let originalLineCount := lines.length
  let parsed : ParsedDiff F := parseDiff unicode lines
  if originalLineCount < config.minLinesForCcr ∨ parsed.files = [] then
    (passThroughResult content originalLineCount, [])
  else
    let files := selectFiles config.maxFiles (scoreHunks unicode parsed.files context)
    let compressed := files.map (compressFile unicode config)
    let additions := (files.map DiffFile.totalAdditions).sum
    let deletions := (files.map DiffFile.totalDeletions).sum
    let hunksKept := (compressed.map fun file => file.hunks.length).sum
    let hunksRemoved :=
      ((files.zip compressed).map fun (file, kept) => file.hunks.length - kept.hunks.length).sum
    let output := ['\n'].intercalate
      (formatLines parsed.preDiffLines compressed compressed.length additions deletions
        hunksRemoved)
    let compressedLineCount := (output.splitOn '\n').length
    let result : DiffCompressionResult :=
      ⟨output, originalLineCount, compressedLineCount, compressed.length, additions, deletions,
        hunksKept, hunksRemoved, none⟩
    if config.enableCcr && Float64.lt (Float64.ofNat compressedLineCount)
        (Float64.mul (Float64.ofNat originalLineCount) config.minCompressionRatioForCcr) then
      let key := md5Hex24 content
      ({ result with
          compressed :=
            output ++ '\n' :: retrievalMarker originalLineCount compressedLineCount key
          cacheKey := some key },
        [(key, content)])
    else (result, [])

end Diff

end Legroom.Transforms
