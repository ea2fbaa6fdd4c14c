import Legroom.Ccr.ToolInjection
import Legroom.Lib.Float64
import Legroom.Lib.Python.Dict

/-!
# The context tracker

What was compressed is tracked under its hash, with the workspace it came from.  A query
is answered with the contexts of its own workspace that are relevant to it.  When there
are too many, the ones that were tracked longest ago are evicted.
-/

namespace Legroom.ContextTracker

open Python Regex Ccr

/-! ## Texts -/

/-- The operations on texts that depend on Unicode's tables. -/
structure TextTools where
  chars : CharTables
  patterns : PatternTables
  /-- `str.lower` -/
  lower : Text → Text

def asciiTools : TextTools := ⟨asciiTables, asciiPatternTables, asciiLower⟩

/-- `needle in haystack` -/
def within (needle : String) (haystack : Text) : Bool := decide (text needle <:+: haystack)

section

variable (tools : TextTools)

/-- `" ".join(text.split())` -/
def singleSpaced (text : Text) : Text :=
  [codePoint ' '].intercalate ((text.splitOnP tools.chars.isSpace).filter fun word => !word.isEmpty)

def looksLikeClaudeCodeCompactSummary (texts : List Text) : Bool :=
  let combined := [codePoint ' '].intercalate
    ((texts.map (strip tools.chars)).filter fun text => !text.isEmpty)
  let normalized := singleSpaced tools (tools.lower combined)
  let hasSummary := within "summary" normalized || within "summarized" normalized
  !combined.isEmpty &&
    ((within "this session is being continued from a previous conversation" normalized &&
        hasSummary) ||
      (within "conversation is summarized below" normalized &&
        (within "ran out of context" normalized || within "previous conversation" normalized)) ||
      (within "/compact" normalized && within "claude" normalized && hasSummary &&
        (within "conversation" normalized || within "session" normalized)))

def isLetter (char : CodePoint) : Bool := 0x61 ≤ char && char ≤ 0x7A

def isDigit (char : CodePoint) : Bool := 0x30 ≤ char && char ≤ 0x39

/-- `\b[a-z][a-z0-9_.-]*[a-z0-9]\b|\b[a-z]{2,}\b` -/
def keywordPatterns : List (List (Piece CodePoint)) :=
  let edge := Piece.boundary tools.patterns.isWord
  [[edge, .one isLetter,
      .run (fun char => isLetter char || isDigit char || char == codePoint '_' ||
        char == codePoint '.' || char == codePoint '-') 0 none true false,
      .one (fun char => isLetter char || isDigit char), edge],
    [edge, .run isLetter 2 none true false, edge]]

/-- `re.findall`.  The first characters may belong to a match already. -/
def findWords : ℕ → Option CodePoint → Text → List Text
  | _, _, [] => []
  | skip + 1, _, char :: text => findWords skip (some char) text
  | 0, before, char :: text =>
      let found := (keywordPatterns tools).flatMap fun pieces =>
        matchesAt pieces before (char :: text)
      match found.head? with
      | none => findWords 0 (some char) text
      | some (_, rest) =>
          (char :: text).take (text.length + 1 - rest.length) ::
            findWords (text.length - rest.length) (some char) text

def stopWords : List Text :=
  ["the", "a", "an", "is", "are", "was", "were", "be", "been", "being", "have", "has", "had", "do",
    "does", "did", "will", "would", "could", "should", "may", "might", "must", "shall", "can",
    "need", "dare", "ought", "used", "to", "of", "in", "for", "on", "with", "at", "by", "from",
    "as", "into", "through", "during", "before", "after", "above", "below", "between", "under",
    "again", "further", "then", "once", "here", "there", "when", "where", "why", "how", "all",
    "each", "few", "more", "most", "other", "some", "such", "no", "nor", "not", "only", "own",
    "same", "so", "than", "too", "very", "just", "and", "but", "if", "or", "because", "until",
    "while", "this", "that", "these", "those", "what", "which", "who", "whom", "it", "its", "me",
    "my", "i", "you"].map text

/-- The keywords of a text, each once. -/
def extractKeywords (text : Text) : List Text :=
  ((findWords tools 0 none text).filter fun word =>
    decide (word ∉ stopWords) && decide (2 ≤ word.length)).dedup

end

/-! ## Contexts -/

/-- The arguments of `track_compression`. -/
structure Compression where
  hashKey : Text
  turnNumber : ℤ
  toolName : Option Text
  originalCount : ℤ
  compressedCount : ℤ
  workspaceKey : Text
  queryContext : Text
  sampleContent : Text

structure CompressedContext (F : Type*) where
  hashKey : Text
  turnNumber : ℤ
  timestamp : F
  toolName : Option Text
  originalItemCount : ℤ
  compressedItemCount : ℤ
  queryContext : Text
  sampleContent : Text
  workspaceKey : Text

structure ExpansionRecommendation (F : Type*) where
  hashKey : Text
  reason : Text
  relevanceScore : F
deriving DecidableEq

structure ContextTrackerConfig (F : Type*) where
  enabled : Bool
  maxTrackedContexts : ℤ
  relevanceThreshold : F
  maxContextAgeSeconds : F
  proactiveExpansion : Bool
  maxProactiveExpansions : ℤ

structure Tracker (F : Type*) where
  contexts : Dict Text (CompressedContext F)
  turnOrder : List Text
  currentTurn : ℤ

def Tracker.empty {F : Type*} : Tracker F := ⟨.empty, [], 0⟩

/-- The order list when a key is tracked. -/
def Tracker.moveToEnd {F : Type*} (tracker : Tracker F) (key : Text) : List Text :=
  (if key ∈ tracker.contexts.keys then tracker.turnOrder.erase key else tracker.turnOrder) ++ [key]

/-- What a call returns. -/
inductive Outcome (F : Type*) where
  | tracked
  | recommended (recommendations : List (ExpansionRecommendation F))
  | raised
deriving DecidableEq

/-! ## Relevance -/

section

variable {F : Type*} [Float64 F] (tools : TextTools)

def overlapShare (queryWords words : List Text) : F :=
  Float64.div (Float64.ofNat (queryWords.filter (· ∈ words)).length)
    (Float64.ofNat queryWords.length)

def calculateRelevance (query : Text) (context : CompressedContext F) : F :=
  let queryLower := tools.lower query
  let queryWords := extractKeywords tools queryLower
  if queryWords.isEmpty then 0.0
  else
    let sampleLower := tools.lower context.sampleContent
    let sampleWords := extractKeywords tools sampleLower
    let sampleScore : F :=
      if sampleWords.isEmpty then 0.0
      else
        let exact := queryWords.filter fun word =>
          decide (4 ≤ word.length) && decide (word <:+: sampleLower)
        exact.foldl (fun score _ => Float64.add score 0.2)
          (Float64.add 0.0 (Float64.mul (overlapShare queryWords sampleWords) 0.5))
    let contextWords := extractKeywords tools (tools.lower context.queryContext)
    let contextScore :=
      if context.queryContext.isEmpty || contextWords.isEmpty then sampleScore
      else Float64.add sampleScore (Float64.mul (overlapShare queryWords contextWords) 0.3)
    let toolLower := tools.lower (context.toolName.getD [])
    let score :=
      if context.toolName.any (fun name => !name.isEmpty) &&
          ["find", "glob", "search", "grep", "ls"].any (within · toolLower) &&
          ["file", "where", "find", "show", "list"].any (within · queryLower) then
        Float64.add contextScore 0.1
      else contextScore
    if Float64.lt 1.0 score then 1.0 else score

/-- The reason of a recommendation, unless a number has too many digits. -/
def generateReason (context : CompressedContext F) (relevance : F) : Option Text :=
  (intText context.originalItemCount).bind fun count =>
    (intText context.turnNumber).map fun turn =>
      let source := match context.toolName with
        | some (char :: name) => [text "from " ++ char :: name]
        | _ => []
      let level :=
        if Float64.lt 0.5 relevance then "high relevance to current query"
        else "possible relevance to current query"
      (text ", ").intercalate
        (source ++ [count ++ text " items compressed in turn " ++ turn, text level])

variable (config : ContextTrackerConfig F)

/-- What the query's loop does with a context of its workspace, unless it raises. -/
def recommend (query : Text) (now : F) (entry : Text × CompressedContext F) :
    Option (Option (ExpansionRecommendation F)) :=
  let age := Float64.sub now entry.2.timestamp
  if Float64.lt config.maxContextAgeSeconds age then some none
  else if Float64.le config.maxContextAgeSeconds 0.0 && Float64.le 0.0 config.maxContextAgeSeconds
  then none
  else
    let ageFactor :=
      Float64.sub 1.0 (Float64.mul (Float64.div age config.maxContextAgeSeconds) 0.5)
    let relevance := Float64.mul (calculateRelevance tools query entry.2) ageFactor
    if Float64.le config.relevanceThreshold relevance then
      (generateReason entry.2 relevance).map fun reason => some ⟨entry.1, reason, relevance⟩
    else some none

/-! ## Calls -/

/-- `items[:bound]` -/
def sliceTo {α : Type*} (items : List α) (bound : ℤ) : List α :=
  if bound < 0 then items.take (items.length - bound.natAbs) else items.take bound.toNat

/-- The eviction loop, which raises if it runs out of keys. -/
def evict (limit : ℤ) : Dict Text (CompressedContext F) → List Text →
    Dict Text (CompressedContext F) × List Text × Bool
  | contexts, [] => (contexts, [], decide (limit < contexts.size))
  | contexts, oldest :: turnOrder =>
      if limit < contexts.size then evict limit (contexts.erase oldest) turnOrder
      else (contexts, oldest :: turnOrder, false)

def Compression.context (compression : Compression) (now : F) : CompressedContext F where
  hashKey := compression.hashKey
  turnNumber := compression.turnNumber
  timestamp := now
  toolName := compression.toolName
  originalItemCount := compression.originalCount
  compressedItemCount := compression.compressedCount
  queryContext := compression.queryContext
  sampleContent := compression.sampleContent.take 2000
  workspaceKey := compression.workspaceKey

/-- A compression that the tracker takes note of. -/
def isTracked (compression : Compression) : Bool :=
  config.enabled &&
    !looksLikeClaudeCodeCompactSummary tools [compression.queryContext, compression.sampleContent]

def trackCompression (tracker : Tracker F) (compression : Compression) (now : F) :
    Tracker F × Outcome F :=
  if isTracked tools config compression then
    let key := compression.hashKey
    let (contexts, turnOrder, raised) := evict config.maxTrackedContexts
      (tracker.contexts.set key (compression.context now)) (tracker.moveToEnd key)
    if raised then (⟨contexts, turnOrder, tracker.currentTurn⟩, .raised)
    else (⟨contexts, turnOrder, max tracker.currentTurn compression.turnNumber⟩, .tracked)
  else (tracker, .tracked)

/-- The contexts of a workspace. -/
def ofWorkspace (workspaceKey : Text) (contexts : Dict Text (CompressedContext F)) :
    Dict Text (CompressedContext F) :=
  contexts.filter fun _ context => context.workspaceKey = workspaceKey

def analyzeQuery (tracker : Tracker F) (query : Text) (currentTurn : Option ℤ)
    (workspaceKey : Text) (now : F) : Tracker F × Outcome F :=
  if !config.enabled || !config.proactiveExpansion || workspaceKey.isEmpty then
    (tracker, .recommended [])
  else
    let found := (ofWorkspace workspaceKey tracker.contexts).entries.mapM
      (recommend tools config query now)
    ({ tracker with currentTurn := currentTurn.getD tracker.currentTurn },
      match found with
      | none => .raised
      | some found =>
          let sorted := found.reduceOption.mergeSort fun left right =>
            !Float64.lt left.relevanceScore right.relevanceScore
          .recommended (sliceTo sorted config.maxProactiveExpansions))

/-! ## Runs -/

/-- A call with the clock's reading in it. -/
inductive Call (F : Type*) where
  | track (compression : Compression) (now : F)
  | query (query : Text) (currentTurn : Option ℤ) (workspaceKey : Text) (now : F)

def Call.workspaceKey : Call F → Text
  | .track compression _ => compression.workspaceKey
  | .query _ _ workspaceKey _ => workspaceKey

def step (tracker : Tracker F) : Call F → Tracker F × Outcome F
  | .track compression now => trackCompression tools config tracker compression now
  | .query query currentTurn workspaceKey now =>
      analyzeQuery tools config tracker query currentTurn workspaceKey now

/-- The tracker after some calls. -/
def after (tracker : Tracker F) (calls : List (Call F)) : Tracker F :=
  calls.foldl (fun tracker call => (step tools config tracker call).1) tracker

/-- The outcomes of a workspace's calls in a run. -/
def outcomesOf (workspaceKey : Text) : Tracker F → List (Call F) → List (Outcome F)
  | _, [] => []
  | tracker, call :: calls =>
      let done := step tools config tracker call
      if call.workspaceKey = workspaceKey then done.2 :: outcomesOf workspaceKey done.1 calls
      else outcomesOf workspaceKey done.1 calls

end

end Legroom.ContextTracker
