import Legroom.Transforms.LogCompressor
import Legroom.Transforms.SearchLines
import Mathlib.Data.Char
import Mathlib.Data.List.Lex

/-!
# Compression of search results

The matches of a search are grouped by file.  The best files and in each of them the best
matches are shown, and for a file that is shown the number of its other matches.  The case
mapping, the detector of important lines and the digests are parameters, and so is the
arithmetic of scores, which is `f32`.
-/

namespace Legroom.Transforms

namespace Search

open LogTemplate (Text byteLen isWhitespace decimal)
open Log (encode trim)
open SmartCrusher (TextTools computeOptimalK)

inductive ImportanceCategory where
  | error
  | warning
  | importance
  | security
  | markdown
deriving DecidableEq

/-- What is taken from elsewhere. -/
structure SearchTools extends TextTools where
  /-- The category that the detector finds in a line of a search. -/
  importance : Text → Option ImportanceCategory
  hashU64 : Text → ℕ
  md5Hex24 : Text → Text

structure SearchCompressorConfig (F : Type*) where
  maxMatchesPerFile : ℕ
  alwaysKeepFirst : Bool
  alwaysKeepLast : Bool
  maxTotalMatches : ℕ
  maxFiles : ℕ
  contextKeywords : List Text
  boostErrors : Bool
  enableCcr : Bool
  minMatchesForCcr : ℕ
  minCompressionRatioForCcr : F
  groupByFile : Bool

def SearchCompressorConfig.default {F : Type*} [Float64 F] : SearchCompressorConfig F where
  maxMatchesPerFile := 5
  alwaysKeepFirst := true
  alwaysKeepLast := true
  maxTotalMatches := 30
  maxFiles := 15
  contextKeywords := []
  boostErrors := true
  enableCcr := true
  minMatchesForCcr := 10
  minCompressionRatioForCcr := 0.8
  groupByFile := false

/-! ## Parsing -/

structure SearchMatch (S : Type*) where
  file : Text
  lineNumber : ℕ
  content : Text
  score : S
deriving DecidableEq

structure FileMatches (S : Type*) where
  file : Text
  found : List (SearchMatch S)
deriving DecidableEq

/-- The lines that are looked at. -/
def scannedLines (content : Text) : List Text :=
  ((content.splitOn '\n').map trim).filter fun line => line ≠ []

/-- The order of a `BTreeMap` with texts for keys. -/
def FileLe {S : Type*} (left right : FileMatches S) : Prop := left.file ≤ right.file

instance {S : Type*} : DecidableRel (FileLe (S := S)) := fun left right =>
  inferInstanceAs (Decidable (left.file ≤ right.file))

section

variable {S : Type*} [Float64 S]

def SearchMatch.new (line : ParsedLine) : SearchMatch S :=
  ⟨line.file, line.lineNumber, line.body, Float64.ofNat 0⟩

def parsedMatches (content : Text) : List (SearchMatch S) :=
  (scannedLines content).filterMap fun line => (parseMatchLine line).map SearchMatch.new

/-- The matches in their files, which are in the order of their names. -/
def parseSearchResults (content : Text) : List (FileMatches S) :=
  let matched : List (SearchMatch S) := parsedMatches content
  (((matched.map SearchMatch.file).dedup.map fun file =>
    FileMatches.mk file (matched.filter fun found => found.file = file))).insertionSort FileLe

/-! ## Scores -/

/-- `str::to_ascii_lowercase` -/
def toAsciiLowercase (text : Text) : Text := text.map Char.toLower

/-- `str::split_whitespace` -/
def splitWhitespace (text : Text) : List Text :=
  (text.splitOnP isWhitespace).filter fun word => word ≠ []

def isCjkChar (char : Char) : Bool :=
  let code := char.toNat
  (0x3040 ≤ code && code ≤ 0x30FF) || (0x3400 ≤ code && code ≤ 0x4DBF) ||
    (0x4E00 ≤ code && code ≤ 0x9FFF) || (0xAC00 ≤ code && code ≤ 0xD7AF) ||
    (0xF900 ≤ code && code ≤ 0xFAFF)

def cjkBigrams (text : Text) : List Text :=
  (text.splitOnP fun char => !isCjkChar char).flatMap fun run =>
    (run.zip run.tail).map fun (first, second) => [first, second]

/-- The words of a context.  Each counts once. -/
def contextWords (context : Text) : List Text :=
  let lower := toAsciiLowercase context
  (((splitWhitespace lower).filter fun word => 2 < word.length) ++ cjkBigrams lower).dedup

def ImportanceCategory.bump : ImportanceCategory → S
  | .error => 0.5
  | .warning => 0.4
  | .importance => 0.3
  | .security | .markdown => 0.0

variable {F : Type*} [Float64 F] (tools : SearchTools) (config : SearchCompressorConfig F)

def scoreMatch (context : Text) (found : SearchMatch S) : SearchMatch S :=
  let lower := toAsciiLowercase found.content
  let addIf := fun (points score : S) (holds : Bool) =>
    if holds then Float64.add score points else score
  let score := (contextWords context).foldl (fun score word =>
    addIf 0.3 score (word <:+: lower)) (Float64.ofNat 0)
  let score :=
    if config.boostErrors then
      match tools.importance found.content with
      | some category => Float64.add score category.bump
      | none => score
    else score
  let score := config.contextKeywords.foldl (fun score keyword =>
    addIf 0.4 score (toAsciiLowercase keyword <:+: lower)) score
  { found with score := if Float64.lt score (1.0 : S) then score else (1.0 : S) }

def scoreMatches (context : Text) (files : List (FileMatches S)) : List (FileMatches S) :=
  files.map fun file => { file with found := file.found.map (scoreMatch tools config context) }

/-! ## Selection -/

def FileMatches.totalScore (file : FileMatches S) : S := Float64.sum (file.found.map (·.score))

/-- The better file. -/
def TotalOrder (left right : FileMatches S) : Prop :=
  Float64.lt left.totalScore right.totalScore = false

instance : DecidableRel (TotalOrder (S := S)) := fun left right =>
  inferInstanceAs (Decidable (Float64.lt left.totalScore right.totalScore = false))

/-- The better match, and of two as good ones the one with the lower line number. -/
def ScoreOrder (left right : SearchMatch S) : Prop :=
  Float64.lt right.score left.score = true ∨
    Float64.lt left.score right.score = false ∧ left.lineNumber ≤ right.lineNumber

instance : DecidableRel (ScoreOrder (S := S)) := fun left right =>
  inferInstanceAs (Decidable (Float64.lt right.score left.score = true ∨
    Float64.lt left.score right.score = false ∧ left.lineNumber ≤ right.lineNumber))

end

section

variable {S : Type*}

def LineOrder (left right : SearchMatch S) : Prop := left.lineNumber ≤ right.lineNumber

instance : DecidableRel (LineOrder (S := S)) := fun left right =>
  inferInstanceAs (Decidable (left.lineNumber ≤ right.lineNumber))

variable (tools : SearchTools)

/-- What tells two matches of a file apart. -/
def SearchMatch.key (found : SearchMatch S) : ℕ × ℕ :=
  (found.lineNumber, tools.hashU64 found.content)

/-- The set of keys that were seen is that of the matches that were pushed. -/
def pushUnique (kept : List (SearchMatch S)) (found : SearchMatch S) : List (SearchMatch S) :=
  if found.key tools ∈ kept.map (SearchMatch.key tools) then kept else kept ++ [found]

def pushWithin (cap : ℕ) (kept : List (SearchMatch S)) (found : SearchMatch S) :
    List (SearchMatch S) :=
  if kept.length < cap then pushUnique tools kept found else kept

end

section

variable {S F : Type*} [Float64 S] [Float64 F] (tools : SearchTools)
  (config : SearchCompressorConfig F)

/-- The matches of a file in the order in which they are tried. -/
def candidates (found : List (SearchMatch S)) : List (SearchMatch S) :=
  (if config.alwaysKeepFirst then found.head?.toList else []) ++
    (if config.alwaysKeepLast ∧ 1 < found.length then found.getLast?.toList else []) ++
    found.insertionSort ScoreOrder

def selectFile (cap : ℕ) (file : FileMatches S) : FileMatches S :=
  { file with
    found := ((candidates config file.found).foldl (pushWithin tools cap) []).insertionSort
      LineOrder }

structure SearchCompressorStats where
  linesScanned : ℕ
  linesUnparsed : ℕ
  filesDropped : ℕ
  matchesDroppedByPerFileCap : ℕ
  matchesDroppedByGlobalCap : ℕ
  ccrEmitted : Bool
  ccrSkipReason : Option String
deriving DecidableEq

/-- What is selected, and how many matches are not because of either bound. -/
structure Selection (S : Type*) where
  selected : List (FileMatches S)
  droppedByPerFileCap : ℕ
  droppedByGlobalCap : ℕ

/-- The files in the order of their scores, with the number of matches that are selected. -/
def selectFrom (adaptiveTotal : ℕ) : ℕ → List (FileMatches S) → Selection S
  | _, [] => ⟨[], 0, 0⟩
  | total, file :: files =>
      if adaptiveTotal ≤ total then
        let rest := selectFrom adaptiveTotal total files
        { rest with droppedByGlobalCap := file.found.length + rest.droppedByGlobalCap }
      else
        let kept := selectFile tools config
          (min config.maxMatchesPerFile (adaptiveTotal - total)) file
        let rest := selectFrom adaptiveTotal (total + kept.found.length) files
        { rest with
          selected := kept :: rest.selected
          droppedByPerFileCap :=
            file.found.length - kept.found.length + rest.droppedByPerFileCap }

/-- The files that may be shown. -/
def rankedFiles (files : List (FileMatches S)) : List (FileMatches S) :=
  (files.insertionSort TotalOrder).take config.maxFiles

def matchText (found : SearchMatch S) : Text :=
  found.file ++ ':' :: decimal found.lineNumber ++ ':' :: found.content

def adaptiveTotal (files : List (FileMatches S)) (bias : F) : ℕ :=
  computeOptimalK tools.toTextTools
    ((rankedFiles config files).flatMap fun file => file.found.map fun found =>
      encode (matchText found)) bias 5 (some config.maxTotalMatches)

def selectMatches (files : List (FileMatches S)) (bias : F) : Selection S :=
  let chosen := selectFrom tools config (adaptiveTotal tools config files bias) 0
    (rankedFiles config files)
  { chosen with selected := chosen.selected.insertionSort FileLe }

end

/-! ## Output -/

section

variable {S F : Type*} (config : SearchCompressorConfig F)

/-- `[... and N more matches in file]` -/
def summaryText (file : Text) (omitted : ℕ) : Text :=
  "[... and ".toList ++ decimal omitted ++
    if config.groupByFile then " more matches]".toList
    else " more matches in ".toList ++ file ++ "]".toList

/-- The matches of a file that are shown. -/
def shownLines (kept : FileMatches S) : List Text :=
  if config.groupByFile then
    kept.file :: kept.found.map fun found => decimal found.lineNumber ++ ':' :: found.content
  else kept.found.map matchText

/-- The summary of a file, if fewer matches are shown than there are. -/
def fileSummary (original : List (FileMatches S)) (kept : FileMatches S) : Option Text :=
  (original.find? fun file => file.file = kept.file).bind fun file =>
    if kept.found.length < file.found.length then
      some (summaryText config kept.file (file.found.length - kept.found.length))
    else none

/-- The lines of the files so far and of one more. -/
def pushFile (original : List (FileMatches S)) (lines : List Text) (kept : FileMatches S) :
    List Text :=
  lines ++ (if config.groupByFile ∧ lines ≠ [] then [[]] else []) ++ shownLines config kept ++
    (fileSummary config original kept).toList

/-- The text, and the summaries in it. -/
def formatOutput (selected original : List (FileMatches S)) : Text × List (Text × Text) :=
  (['\n'].intercalate (selected.foldl (pushFile config original) []),
    selected.filterMap fun kept => (fileSummary config original kept).map fun summary =>
      (kept.file, summary))

end

structure SearchCompressionResult (F : Type*) where
  compressed : Text
  original : Text
  originalMatchCount : ℕ
  compressedMatchCount : ℕ
  filesAffected : ℕ
  compressionRatio : F
  cacheKey : Option Text
  summaries : List (Text × Text)

def matchCount {S : Type*} (files : List (FileMatches S)) : ℕ :=
  (files.map fun file => file.found.length).sum

def retrievalMarker (originalCount compressedCount : ℕ) (key : Text) : Text :=
  "[".toList ++ decimal originalCount ++ " matches compressed to ".toList ++
    decimal compressedCount ++ ". Retrieve more: hash=".toList ++ key ++ "]".toList

section

variable (S : Type*) {F : Type*} [Float64 S] [Float64 F] (tools : SearchTools)
  (config : SearchCompressorConfig F)

/-- Why nothing is put into the store, if there is one. -/
def ccrSkipReason (hasStore : Bool) (originalCount : ℕ) (ratio : F) : Option String :=
  if config.enableCcr then
    if originalCount < config.minMatchesForCcr then some "below min_matches_for_ccr"
    else if Float64.le config.minCompressionRatioForCcr ratio then
      some "compression ratio too high"
    else if hasStore then none
    else some "no store provided"
  else some "ccr disabled in config"

/-- `compress_with_store`: the result, the counts, and what is put into the store. -/
def compressWithStore (hasStore : Bool) (content context : Text) (bias : F) :
    SearchCompressionResult F × SearchCompressorStats × List (Text × Text) :=
  let parsed : List (FileMatches S) := parseSearchResults content
  let scanned := (scannedLines content).length
  let unparsed := scanned - matchCount parsed
  if parsed.isEmpty then
    (⟨content, content, 0, 0, 0, 1.0, none, []⟩, ⟨scanned, unparsed, 0, 0, 0, false, none⟩, [])
  else
    let originalCount := matchCount parsed
    let scored := scoreMatches tools config context parsed
    let chosen := selectMatches tools config scored bias
    let filesDropped := scored.length - (rankedFiles config scored).length
    let (body, summaries) := formatOutput config chosen.selected scored
    let compressedCount := matchCount chosen.selected
    let ratio := Float64.div (Float64.ofNat (byteLen body))
      (Float64.ofNat (max (byteLen content) 1))
    let reason := ccrSkipReason config hasStore originalCount ratio
    let key := tools.md5Hex24 content
    let marker :=
      if reason = none then '\n' :: retrievalMarker originalCount compressedCount key else []
    (⟨body ++ marker, content, originalCount, compressedCount, scored.length, ratio,
        if reason = none then some key else none, summaries⟩,
      ⟨scanned, unparsed, filesDropped, chosen.droppedByPerFileCap, chosen.droppedByGlobalCap,
        reason = none, reason⟩,
      if reason = none then [(key, content)] else [])

end

end Search

end Legroom.Transforms
