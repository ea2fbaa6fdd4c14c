import Legroom.CacheStabilization.ToolDefNormalize
import Legroom.CacheStabilization.AnthropicCacheControl
import Legroom.LiveZone.CacheControl

/-!
# Anthropic requests

The body of a pay-as-you-go request has its tools put in order before the live zone
is compressed: sorted by name, the fields of their schemas by key, and a cache marker
on the last one.  If any of this changed the value the body is written anew.  All
other requests go to the live-zone dispatcher as they came.
-/

namespace Legroom.Compression

open Json Utf8 CacheStabilization LiveZone

inductive CompressionMode where
  | off
  | liveZone
  deriving DecidableEq

inductive CacheControlAutoFrozen where
  | enabled
  | disabled
  deriving DecidableEq

inductive RequestAuthMode where
  | payg
  | oauth
  | subscription
  deriving DecidableEq

/-- The class as the dispatcher knows it. -/
def RequestAuthMode.into : RequestAuthMode → AuthMode
  | .payg => .payg
  | .oauth => .oauth
  | .subscription => .subscription

inductive PassthroughReason where
  | notJson
  | noMessages
  | modeOff
  deriving DecidableEq

structure PerStrategyTokens where
  strategy : Utf8String
  originalTokens : ℕ
  compressedTokens : ℕ
  deriving DecidableEq

inductive Outcome where
  | noCompression
  | compressed (body : Bytes) (tokensBefore tokensAfter : ℕ) (strategiesApplied : List Utf8String)
      (markersInserted : List String) (perStrategyTokens : List PerStrategyTokens)
  | passthrough (reason : PassthroughReason)
  deriving DecidableEq

/-- The body the proxy sends on. -/
def Outcome.forwarded (body : Bytes) : Outcome → Bytes
  | .compressed newBody _ _ _ _ _ => newBody
  | _ => body

/-! ## Normalization -/

structure NormalizationApplied where
  e1ToolSort : Bool
  e2SchemaSort : Bool
  deriving DecidableEq

namespace NormalizationApplied

def none : NormalizationApplied := ⟨false, false⟩

def any (applied : NormalizationApplied) : Bool := applied.e1ToolSort || applied.e2SchemaSort

def strategies (applied : NormalizationApplied) : List Utf8String :=
  (if applied.e1ToolSort then [constant "tool_array_sort"] else []) ++
    if applied.e2SchemaSort then [constant "schema_key_sort"] else []

end NormalizationApplied

/-- The tool with the keys of its schema sorted, and whether that changed the schema's text. -/
def sortInputSchema (tool : Value) : Value × Bool :=
  match tool.get (constant "input_schema") with
  | Option.none => (tool, false)
  | some schema =>
      let sorted := sortSchemaKeysRecursive schema
      (tool.put (constant "input_schema") sorted, decide (schema.toJson ≠ sorted.toJson))

section

variable (md5 : Bytes → Vector Byte 16)

/-- The tools in order, each with a sorted schema.  A tool with a marker keeps them all in
their places. -/
def normalizeTools (tools : List Value) : List Value × NormalizationApplied :=
  let sorted :=
    if anyToolHasCacheControl tools then (tools, false) else sortToolsDeterministically md5 tools
  let schemas := sorted.1.map sortInputSchema
  (schemas.map Prod.fst, ⟨sorted.2, schemas.any Prod.snd⟩)

def normalizeToolDefinitions (parsed : Value) (authMode : RequestAuthMode) :
    Value × NormalizationApplied :=
  if authMode ≠ .payg then (parsed, .none)
  else
    match (parsed.get (constant "tools")).bind Value.asArray with
    | none => (parsed, .none)
    | some [] => (parsed, .none)
    | some tools =>
        let normalized := normalizeTools md5 tools
        (parsed.put (constant "tools") (.array normalized.1), normalized.2)

/-! ## The request -/

/-- What the passes over the parsed body leave. -/
structure PhaseE where
  parsed : Value
  normalization : NormalizationApplied
  e3Applied : Bool
  e3Locations : List String

def phaseE (parsed : Value) (authMode : RequestAuthMode) : PhaseE :=
  let normalized := normalizeToolDefinitions md5 parsed authMode
  if authMode = .payg then
    match autoPlaceAnthropicCacheControl normalized.1 with
    | (placed, .applied placedCount locations) =>
        if 0 < placedCount then ⟨placed, normalized.2, true, locations⟩
        else ⟨placed, normalized.2, false, []⟩
    | (placed, .skipped _) => ⟨placed, normalized.2, false, []⟩
  else ⟨normalized.1, normalized.2, false, []⟩

def PhaseE.changed (phase : PhaseE) : Bool := phase.normalization.any || phase.e3Applied

/-- The body given to the dispatcher. -/
def PhaseE.dispatchBody (phase : PhaseE) (body : Bytes) : Bytes :=
  if phase.changed then phase.parsed.toJson.bytes else body

/-- The bytes the passes make of a body. -/
def toolStage (authMode : RequestAuthMode) (body : Bytes) : Bytes :=
  match valueFromSlice body with
  | none => body
  | some parsed => (phaseE md5 parsed authMode).dispatchBody body

def PhaseE.strategies (phase : PhaseE) : List Utf8String :=
  phase.normalization.strategies ++
    if phase.e3Applied then [constant "e3_anthropic_cache_control"] else []

def resolveFrozenCount (parsed : Value) : CacheControlAutoFrozen → ℕ
  | .enabled => computeFrozenCount parsed
  | .disabled => 0

def defaultModel : Utf8String := constant "claude-3-5-sonnet-20241022"

def pushNew (strategies : List Utf8String) (strategy : Utf8String) : List Utf8String :=
  if strategy ∈ strategies then strategies else strategies ++ [strategy]

def addTokens (strategy : Utf8String) (originalTokens compressedTokens : ℕ) :
    List PerStrategyTokens → List PerStrategyTokens
  | [] => [⟨strategy, originalTokens, compressedTokens⟩]
  | slot :: slots =>
      if slot.strategy = strategy then
        ⟨strategy, slot.originalTokens + originalTokens,
          slot.compressedTokens + compressedTokens⟩ :: slots
      else slot :: addTokens strategy originalTokens compressedTokens slots

/-- The report on a rewritten body. -/
structure Totals where
  originalTokens : ℕ
  compressedTokens : ℕ
  strategies : List Utf8String
  perStrategyTokens : List PerStrategyTokens

def Totals.add (totals : Totals) (entry : BlockOutcome) : Totals :=
  match entry.action with
  | .compressed strategy _ _ originalTokens compressedTokens =>
      ⟨totals.originalTokens + originalTokens, totals.compressedTokens + compressedTokens,
        pushNew totals.strategies strategy,
        addTokens strategy originalTokens compressedTokens totals.perStrategyTokens⟩
  | _ => totals

def compressAnthropicRequest (backend : Backend) (body : Bytes) (mode : CompressionMode)
    (cacheControlPolicy : CacheControlAutoFrozen) (authMode : RequestAuthMode) : Outcome :=
  match mode with
  | .off => .passthrough .modeOff
  | .liveZone =>
      match valueFromSlice body with
      | none => .passthrough .notJson
      | some parsed =>
          let frozenCount := resolveFrozenCount parsed cacheControlPolicy
          let phase := phaseE md5 parsed authMode
          let dispatchBody := phase.dispatchBody body
          let model := (phase.parsed.getStr "model").getD defaultModel
          match compressAnthropicLiveZone backend model dispatchBody frozenCount
              authMode.into with
          | .ok (.noChange _) =>
              if phase.changed then
                .compressed dispatchBody 0 0 phase.strategies phase.e3Locations []
              else .noCompression
          | .ok (.modified newBody manifest) =>
              let totals := manifest.blockOutcomes.foldl Totals.add ⟨0, 0, [], []⟩
              .compressed newBody totals.originalTokens totals.compressedTokens
                (phase.strategies.foldl pushNew totals.strategies) phase.e3Locations
                totals.perStrategyTokens
          | .error .bodyNotJson => .passthrough .notJson
          | .error .noMessagesArray => .passthrough .noMessages

end

end Legroom.Compression
