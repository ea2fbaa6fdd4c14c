import Legroom.Transforms.BlockDecisions

/-!
# The router with retrieval

A content is folded first.  A format compressor or a summarizer takes what does not fold, and
a summarizer is asked again where a compressor saved nothing.
-/

namespace Legroom.LossyRouter

open Python LosslessCompaction LosslessRouter BlockDecisions

/-- A text with its count of tokens, and whether a summarizer wrote a part of it. -/
structure Draft where
  compressed : Text
  tokens : ℕ
  summarized : Bool

/-- What the router calls for a content.  A compressor that is disabled or not installed is
missing, and one that raises gives nothing. -/
structure Compressors where
  estimateTokens : Text → ℕ
  countWords : Text → ℕ
  /-- `_try_ml_compressor` with its target ratio. -/
  tryMlCompressor : Option ℚ → Text → Text × ℕ
  codeCompressor : Option (Text → Option Text → Option Text)
  formatCompressor : CompressionStrategy → Option (Text → Option Text)
  /-- The runs of records that are kept or not; no runs where there is no scorer or no query. -/
  planRelevanceSplit : Text → List (Bool × Text)
  isValidJson : Text → Bool

structure LossyConfig extends RouterConfig where
  relevanceSplit : Bool
  losslessThenLossy : Bool
  lossyMinExtraSavings : ℚ
  expReadKeepRatio : ℚ

section

variable (tables : CharTables) (patterns : Ccr.PatternTables) (config : LossyConfig)
  (compressors : Compressors)

/-- What comes back as it went in was not summarized. -/
def summarizeTo (targetRatio : Option ℚ) (content : Text) : Draft :=
  let found := compressors.tryMlCompressor targetRatio content
  ⟨found.1, found.2, decide (found.1 ≠ content)⟩

def summarize (content : Text) : Draft := summarizeTo compressors none content

def plain (compressed : Text) : Draft := ⟨compressed, compressors.estimateTokens compressed, false⟩

/-! ## Folds -/

/-- The kept records are folded, and the others summarized. -/
def relevanceSplitCompress (content : Text) (kind : Kind) : Option Draft :=
  let runs := compressors.planRelevanceSplit content
  let parts := runs.map fun (keep, part) =>
    if keep then plain compressors (compactLossless tables part kind)
    else summarize compressors part
  let result := (parts.map Draft.compressed).flatten
  if runs.all Prod.fst then none
  else if result.length < (compactLossless tables content kind).length then
    some ⟨result, compressors.estimateTokens result, parts.any Draft.summarized⟩
  else none

/-- A summary of a draft is taken if it saves a part of it again. -/
def savesMore (layer base : Draft) : Bool :=
  decide ((layer.tokens : ℚ) ≤ base.tokens * (1 - config.lossyMinExtraSavings)) &&
    decide (layer.compressed.length < base.compressed.length)

def lossyAfterFold (content : Text) (strategy : CompressionStrategy) (kind : Kind) : Bool :=
  config.losslessThenLossy && decide (strategy ≠ .diff) && decide (kind ≠ .diff) &&
    !looksLikeDiff content

def foldFirst (content : Text) (strategy : CompressionStrategy) :
    Option (Draft × List ChainLink) :=
  match losslessFirst tables content strategy with
  | (_, none) => none
  | (folded, some kind) =>
      let layer := summarize compressors folded
      if lossyAfterFold config content strategy kind &&
          savesMore config layer (plain compressors folded) then
        some (layer, [.lossless kind, .strategy .kompress])
      else some (plain compressors folded, [.lossless kind])

/-! ## Strategies -/

/-- The strategy is what the fallbacks look at. -/
structure Attempt where
  draft : Option Draft
  strategy : CompressionStrategy
  chain : List ChainLink

/-- Code that does not get shorter is summarized instead, as is code without a compressor. -/
def attemptCode (content : Text) (language : Option Text) : Attempt :=
  match compressors.codeCompressor with
  | none =>
      ⟨some (summarize compressors content), .kompress,
        [.strategy .codeAware, .strategy .kompress]⟩
  | some compress =>
      match compress content language with
      | none => ⟨none, .codeAware, [.strategy .codeAware]⟩
      | some compressed =>
          let draft : Draft :=
            ⟨compressed, compressors.countWords compressed, decide (compressed ≠ content)⟩
          let summary := summarize compressors content
          if config.losslessThenLossy &&
              decide (compressors.estimateTokens content ≤ draft.tokens) &&
              decide (summary.tokens < compressors.estimateTokens content) &&
              decide (summary.compressed.length < content.length) then
            ⟨some summary, .kompress, [.strategy .codeAware, .strategy .kompress]⟩
          else ⟨some draft, .codeAware, [.strategy .codeAware]⟩

def formatTokens (strategy : CompressionStrategy) (compressed : Text) : ℕ :=
  match strategy with
  | .config => compressors.countWords compressed
  | .html => if compressed.isEmpty then 0 else compressors.estimateTokens compressed
  | _ => compressors.estimateTokens compressed

def formatted (content : Text) (strategy : CompressionStrategy) : Option Text := do
  let compress ← compressors.formatCompressor strategy
  compress content

def attempt (content : Text) (strategy : CompressionStrategy) (language : Option Text) : Attempt :=
  match strategy with
  | .codeAware => attemptCode config compressors content language
  | .kompress | .text => ⟨some (summarize compressors content), strategy, [.strategy strategy]⟩
  | .passthrough => ⟨some (plain compressors content), strategy, [.strategy strategy]⟩
  | .mixed => ⟨none, strategy, [.strategy strategy]⟩
  | _ =>
      ⟨(formatted compressors content strategy).map fun compressed =>
        ⟨compressed, formatTokens compressors strategy compressed, false⟩, strategy,
          [.strategy strategy]⟩

def fallbackEligible : CompressionStrategy → Bool
  | .smartCrusher | .codeAware | .tabular | .config => true
  | _ => false

/-- Valid JSON that the crusher and the summarizer left alone is taken for a log. -/
def lastDitch (content : Text) (strategy : CompressionStrategy) (draft : Draft)
    (chain : List ChainLink) : Draft × List ChainLink :=
  if decide (strategy = .smartCrusher) && compressors.isValidJson content &&
      (compressors.formatCompressor .log).isSome then
    match formatted compressors content .log with
    | some log =>
        if compressors.estimateTokens log < draft.tokens then
          (plain compressors log, chain ++ [.strategy .log])
        else (draft, chain ++ [.strategy .log])
    | none => (draft, chain ++ [.strategy .log])
  else (draft, chain)

/-- A summary is taken where it has fewer tokens than what saved nothing. -/
def fallBack (content : Text) (strategy : CompressionStrategy) (draft : Draft)
    (chain : List ChainLink) : Draft × List ChainLink :=
  let noSavings := decide (draft.compressed = content) ||
    decide (compressors.estimateTokens content ≤ draft.tokens)
  let fallback := if .strategy .kompress ∈ chain then (draft, chain)
    else (summarize compressors content, chain ++ [.strategy .kompress])
  if fallbackEligible strategy && noSavings then
    if fallback.1.tokens < draft.tokens then fallback
    else lastDitch compressors content strategy draft fallback.2
  else (draft, chain)

def isStructural : CompressionStrategy → Bool
  | .search | .log | .html => true
  | _ => false

/-- A summary on top of what a structural compressor left. -/
def layerLossy (content : Text) (strategy : CompressionStrategy)
    (found : Draft × List ChainLink) : Draft × List ChainLink :=
  let layer := summarize compressors found.1.compressed
  if config.losslessThenLossy && isStructural strategy && !looksLikeDiff content &&
      savesMore config layer found.1 then
    ({ layer with summarized := layer.summarized || found.1.summarized },
      found.2 ++ [.strategy .kompress])
  else found

/-- The compressors behind the fold. -/
def runStrategy (content : Text) (strategy : CompressionStrategy) (language : Option Text) :
    Draft × List ChainLink :=
  let found := attempt config compressors content strategy language
  match found.draft with
  | some draft =>
      layerLossy config compressors content found.strategy
        (fallBack compressors content found.strategy draft found.chain)
  | none => (plain compressors content, found.chain ++ [.strategy .passthrough])

/-- `_apply_strategy_to_content` outside lossless mode -/
def applyStrategyToContent (content : Text) (strategy : CompressionStrategy)
    (language : Option Text) : Draft × List ChainLink :=
  let split := if config.relevanceSplit && decide (strategy = .log ∨ strategy = .search) then
    (primaryKind strategy).bind (relevanceSplitCompress tables compressors content) else none
  match split with
  | some split => (split, [.strategy strategy, .relevanceSplit])
  | none =>
      match foldFirst tables config compressors content strategy with
      | some found => found
      | none => runStrategy config compressors content strategy language

/-! ## Contents -/

structure TracedResult extends CompressionResult where
  summarized : Bool

def passed (content : Text) : TracedResult := ⟨⟨content, .passthrough, [], 1⟩, false⟩

def ratioOf (compressed original : ℕ) : ℚ := if original = 0 then 1 else compressed / original

def compressPure (content : Text) (strategy : CompressionStrategy) : TracedResult :=
  let (draft, chain) := applyStrategyToContent tables config compressors content strategy none
  ⟨⟨draft.compressed, strategy, chain,
    ratioOf draft.tokens (compressors.estimateTokens content)⟩, draft.summarized⟩

def compressSection (found : ContentSection) : Draft :=
  (applyStrategyToContent tables config compressors found.content
    (strategyFromDetectionType found.contentType) found.language).1

def compressMixed (content : Text) : TracedResult :=
  let sections := splitIntoSections tables patterns content
  let drafts := sections.map (compressSection tables config compressors)
  let texts := List.zipWith (fun found draft =>
    (FoldedSection.mk found draft.compressed none).emitted) sections drafts
  if sections.isEmpty then passed content
  else
    ⟨⟨[newline, newline].intercalate texts, .mixed, [],
      ratioOf (drafts.map Draft.tokens).sum
        (sections.map fun found => compressors.estimateTokens found.content).sum⟩,
      drafts.any Draft.summarized⟩

def route (detector : Detector) (content : Text) : CompressionStrategy :=
  if config.forceKompress then .kompress
  else determineStrategy config.toRouterConfig detector content

/-- `ContentRouter.compress`.  A blank result is never taken. -/
def compress (detector : Detector) (content : Text) : TracedResult :=
  if isBlank tables content then passed content
  else
    let strategy := route config detector content
    let result := if strategy = .mixed then compressMixed tables patterns config compressors content
      else compressPure tables config compressors content strategy
    if isBlank tables result.compressed then
      { result with compressed := content, summarized := false }
    else result

/-- A file read that is protected from all other compression. -/
def experimentalCompressRead (content : Text) : Option Text :=
  if config.expReadKeepRatio = 0 ∨ content.length < 200 then none
  else
    let read := summarizeTo compressors (some config.expReadKeepRatio) content
    if !read.compressed.isEmpty && decide (read.compressed.length < content.length) then
      some read.compressed
    else none

end

end Legroom.LossyRouter
