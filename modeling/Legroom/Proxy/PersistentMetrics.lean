import Legroom.Lib.Python.Dict
import Legroom.Lib.Python.Money

/-!
# Lifetime metrics

Counts over all requests, by provider, stack and model.  Every map is bounded: what it
has no room for goes to one bucket.
-/

namespace Legroom.PersistentMetrics

open Python

def maxProviderValues : ℕ := 32
def maxStackValues : ℕ := 64
def maxTrackedModels : ℕ := 200
def maxExposedModels : ℕ := 100
def maxLabelLength : ℕ := 128

def other : Text := text "other"
def unknown : Text := text "unknown"

def knownMissReasons : List Text := ["ttl_expiry", "prefix_change", "unknown"].map text

def knownWasteSignals : List Text :=
  ["json_noise", "html_noise", "base64", "whitespace", "dynamic_date", "repetition", "reread",
    "reread_compressed"].map text

/-! ## State -/

structure ModelEntry where
  requests : ℕ
  inputTokens : ℕ
  outputTokens : ℕ
  attemptedInputTokens : ℕ
  tokensSaved : ℕ
  lastActivityAt : Option Text

def ModelEntry.empty : ModelEntry := ⟨0, 0, 0, 0, 0, none⟩

structure RequestCounts where
  total : ℕ
  cached : ℕ
  failed : ℕ
  rateLimited : ℕ
  byProvider : Dict Text ℕ
  byStack : Dict Text ℕ

structure TokenCounts where
  input : ℕ
  output : ℕ
  attemptedInput : ℕ
  saved : ℕ

structure PrefixCacheCounts where
  requests : ℕ
  hitRequests : ℕ
  cacheReadTokens : ℕ
  cacheWriteTokens : ℕ
  cacheWrite5mTokens : ℕ
  cacheWrite1hTokens : ℕ
  uncachedInputTokens : ℕ
  bustCount : ℕ
  bustTokens : ℕ
  missesByReason : Dict Text ℕ
  byProvider : Dict Text ℕ

structure Cost (F : Type*) where
  inputUsd : F
  compressionSavingsUsd : F
  cacheSavingsUsd : F

structure Models where
  tracked : Dict Text ModelEntry
  other : ModelEntry

structure MetricsState (F : Type*) where
  startedAt : Option Text
  lastActivityAt : Option Text
  fullFidelityStartedAt : Option Text
  requests : RequestCounts
  tokens : TokenCounts
  prefixCache : PrefixCacheCounts
  cost : Cost F
  wasteSignals : Dict Text ℕ
  models : Models
  lastSavedAt : Option Text

def MetricsState.empty {F : Type*} [Money F] : MetricsState F where
  startedAt := none
  lastActivityAt := none
  fullFidelityStartedAt := none
  requests := ⟨0, 0, 0, 0, .empty, .empty⟩
  tokens := ⟨0, 0, 0, 0⟩
  prefixCache := ⟨0, 0, 0, 0, 0, 0, 0, 0, 0, .empty, .empty⟩
  cost := ⟨Money.zero, Money.zero, Money.zero⟩
  wasteSignals := .empty
  models := ⟨.empty, .empty⟩
  lastSavedAt := none

section

variable (tables : CharTables) (lower : Text → Text)

/-! ## Coercions -/

def coerceInt (value : Value) : ℕ := ((value.toInt tables).getD 0).toNat

def usable {F : Type*} [Money F] (amount : F) : F :=
  if Money.isUsable amount then amount else Money.zero

def coerceFloat {F : Type*} [Money F] (value : Value) : F :=
  match Money.ofValue value with
  | some amount => usable amount
  | none => Money.zero

/-- A label of a text. -/
def labelOfText (value : Text) : Text :=
  let stripped := strip tables value
  if stripped = [] then other else stripped.take maxLabelLength

def label : Value → Text
  | .str value => labelOfText tables value
  | _ => other

/-- A model without a name is not tracked. -/
def modelNameOfText (value : Text) : Text :=
  let label := labelOfText tables value
  if lower label = unknown then other else label

def modelName (value : Value) : Text :=
  let label := label tables value
  if lower label = unknown then other else label

/-! ## Bounded maps -/

def count (values : Dict Text ℕ) (key : Text) : ℕ := (values.get? key).getD 0

def named (values : Dict Text ℕ) : List Text := values.keys.filter (· ≠ other)

/-- The smaller count, then the smaller name. -/
def goesFirst (values : Dict Text ℕ) (best key : Text) : Text :=
  if count values key < count values best ∨ (count values key = count values best ∧ key < best) then
    key
  else best

/-- The name with the smallest count goes to the other ones. -/
def evict (values : Dict Text ℕ) : Dict Text ℕ :=
  match named values with
  | [] => values
  | first :: rest =>
      let evicted := rest.foldl (goesFirst values) first
      (values.erase evicted).set other (count values other + count values evicted)

def compactCountMapFrom (limit : ℕ) : ℕ → Dict Text ℕ → Dict Text ℕ
  | fuel + 1, values =>
      if limit < (named values).length then compactCountMapFrom limit fuel (evict values)
      else values
  | 0, values => values

def compactCountMap (values : Dict Text ℕ) (limit : ℕ) : Dict Text ℕ :=
  compactCountMapFrom limit (named values).length values

def addTo (values : Dict Text ℕ) (key : Text) (amount : ℕ) : Dict Text ℕ :=
  values.set key (count values key + amount)

def incrementCount (values : Dict Text ℕ) (label : Text) (limit : ℕ) : Dict Text ℕ :=
  compactCountMap (addTo values label 1) limit

/-! ## Models -/

/-- The later of two times, as texts. -/
def laterActivity (destination source : Option Text) : Option Text :=
  match destination, source with
  | none, source => source
  | some destination, some source => if destination < source then some source else some destination
  | some destination, none => some destination

def mergeModelEntry (destination source : ModelEntry) : ModelEntry where
  requests := destination.requests + source.requests
  inputTokens := destination.inputTokens + source.inputTokens
  outputTokens := destination.outputTokens + source.outputTokens
  attemptedInputTokens := destination.attemptedInputTokens + source.attemptedInputTokens
  tokensSaved := destination.tokensSaved + source.tokensSaved
  lastActivityAt := laterActivity destination.lastActivityAt source.lastActivityAt

/-- More tokens, then the earlier activity, then the name. -/
def rankedBefore (left right : Text × ModelEntry) : Bool :=
  let tokens := fun (entry : ModelEntry) => entry.inputTokens + entry.outputTokens
  let activity := fun (entry : ModelEntry) => entry.lastActivityAt.getD []
  tokens right.2 < tokens left.2 ∨ (tokens right.2 = tokens left.2 ∧
    (activity left.2 < activity right.2 ∨ (activity left.2 = activity right.2 ∧ left.1 ≤ right.1)))

theorem nodup_take_ranked (tracked : Dict Text ModelEntry) (limit : ℕ) :
    (((tracked.entries.mergeSort rankedBefore).take limit).map Prod.fst).Nodup := by
  have hsorted : ((tracked.entries.mergeSort rankedBefore).map Prod.fst).Nodup :=
    ((List.mergeSort_perm tracked.entries rankedBefore).map Prod.fst).nodup_iff.mpr tracked.nodup
  exact hsorted.sublist ((List.take_sublist limit _).map _)

/-- The first of too many models are kept. -/
def compactModels (models : Models) : Models :=
  if models.tracked.size ≤ maxTrackedModels then models
  else
    let ranked := models.tracked.entries.mergeSort rankedBefore
    { tracked := ⟨ranked.take maxExposedModels, nodup_take_ranked models.tracked maxExposedModels⟩
      other := (ranked.drop maxExposedModels).foldl
        (fun other entry => mergeModelEntry other entry.2) models.other }

/-! ## Operations -/

section

variable {F : Type*} [Money F]

structure RequestMetrics where
  provider : Value
  stack : Value
  model : Value
  inputTokens : Value
  outputTokens : Value
  attemptedInputTokens : Value
  tokensSaved : Value
  cached : Bool
  recordStack : Bool
  cacheReadTokens : Value
  cacheWriteTokens : Value
  cacheWrite5mTokens : Value
  cacheWrite1hTokens : Value
  uncachedInputTokens : Value
  inputUsd : Value
  compressionSavingsUsd : Value
  cacheSavingsUsd : Value
  wasteSignals : Value

def recordActivity (state : MetricsState F) (timestamp : Text) : MetricsState F :=
  { state with
    startedAt := state.startedAt.or (some timestamp)
    fullFidelityStartedAt := state.fullFidelityStartedAt.or (some timestamp)
    lastActivityAt := some timestamp }

/-- What a request adds to its model. -/
def addToModel (entry : ModelEntry) (request : RequestMetrics) (timestamp : Text) : ModelEntry where
  requests := entry.requests + 1
  inputTokens := entry.inputTokens + coerceInt tables request.inputTokens
  outputTokens := entry.outputTokens + coerceInt tables request.outputTokens
  attemptedInputTokens :=
    entry.attemptedInputTokens + coerceInt tables request.attemptedInputTokens
  tokensSaved := entry.tokensSaved + coerceInt tables request.tokensSaved
  lastActivityAt := some timestamp

def recordModel (models : Models) (request : RequestMetrics) (timestamp : Text) : Models :=
  let name := modelName tables lower request.model
  compactModels
    (if name = other then
      { models with other := addToModel tables models.other request timestamp }
    else
      let entry := (models.tracked.get? name).getD .empty
      { models with tracked := models.tracked.set name (addToModel tables entry request timestamp) })

def recordWaste (values : Dict Text ℕ) (wasteSignals : Value) : Dict Text ℕ :=
  match wasteSignals with
  | .dict signals => signals.foldl (fun values signal =>
      addTo values (if signal.1 ∈ knownWasteSignals then signal.1 else other)
        (coerceInt tables signal.2)) values
  | _ => values

def addCost (total : F) (amount : Value) : F := Money.round (Money.add total (coerceFloat amount))

def recordRequest (state : MetricsState F) (request : RequestMetrics) (timestamp : Text) :
    MetricsState F :=
  let state := recordActivity state timestamp
  let providerLabel := label tables request.provider
  { state with
    requests := { state.requests with
      total := state.requests.total + 1
      cached := state.requests.cached + request.cached.toNat
      byProvider := incrementCount state.requests.byProvider providerLabel maxProviderValues
      byStack := if request.recordStack then
          incrementCount state.requests.byStack (label tables request.stack) maxStackValues
        else state.requests.byStack }
    tokens :=
      { input := state.tokens.input + coerceInt tables request.inputTokens
        output := state.tokens.output + coerceInt tables request.outputTokens
        attemptedInput :=
          state.tokens.attemptedInput + coerceInt tables request.attemptedInputTokens
        saved := state.tokens.saved + coerceInt tables request.tokensSaved }
    prefixCache := { state.prefixCache with
      requests := state.prefixCache.requests + 1
      hitRequests := state.prefixCache.hitRequests + request.cached.toNat
      cacheReadTokens :=
        state.prefixCache.cacheReadTokens + coerceInt tables request.cacheReadTokens
      cacheWriteTokens :=
        state.prefixCache.cacheWriteTokens + coerceInt tables request.cacheWriteTokens
      cacheWrite5mTokens :=
        state.prefixCache.cacheWrite5mTokens + coerceInt tables request.cacheWrite5mTokens
      cacheWrite1hTokens :=
        state.prefixCache.cacheWrite1hTokens + coerceInt tables request.cacheWrite1hTokens
      uncachedInputTokens :=
        state.prefixCache.uncachedInputTokens + coerceInt tables request.uncachedInputTokens
      byProvider := incrementCount state.prefixCache.byProvider providerLabel maxProviderValues }
    cost :=
      { inputUsd := addCost state.cost.inputUsd request.inputUsd
        compressionSavingsUsd :=
          addCost state.cost.compressionSavingsUsd request.compressionSavingsUsd
        cacheSavingsUsd := addCost state.cost.cacheSavingsUsd request.cacheSavingsUsd }
    wasteSignals := recordWaste tables state.wasteSignals request.wasteSignals
    models := recordModel tables lower state.models request timestamp }

inductive MetricsCall where
  | recordRequest (request : RequestMetrics)
  | recordStack (stack : Value)
  | recordFailed
  | recordRateLimited
  | recordCacheBust (tokensLost : Value)
  | recordCacheMiss (reason : Value)
  | setLastSavedAt (value : Option Text)

def missBucket : Value → Text
  | .str reason => if reason ∈ knownMissReasons then reason else unknown
  | _ => unknown

def recordStack (state : MetricsState F) (stack : Text) (timestamp : Text) : MetricsState F :=
  let state := recordActivity state timestamp
  { state with requests := { state.requests with
      byStack := incrementCount state.requests.byStack stack maxStackValues } }

def after (state : MetricsState F) (timestamp : Text) : MetricsCall → MetricsState F
  | .recordRequest request => PersistentMetrics.recordRequest tables lower state request timestamp
  | .recordStack .none => state
  | .recordStack stack => PersistentMetrics.recordStack state (label tables stack) timestamp
  | .recordFailed =>
      let state := recordActivity state timestamp
      { state with requests := { state.requests with failed := state.requests.failed + 1 } }
  | .recordRateLimited =>
      let state := recordActivity state timestamp
      { state with
        requests := { state.requests with rateLimited := state.requests.rateLimited + 1 } }
  | .recordCacheBust tokensLost =>
      let state := recordActivity state timestamp
      { state with prefixCache := { state.prefixCache with
          bustCount := state.prefixCache.bustCount + 1
          bustTokens := state.prefixCache.bustTokens + coerceInt tables tokensLost } }
  | .recordCacheMiss reason =>
      let state := recordActivity state timestamp
      { state with prefixCache := { state.prefixCache with
          missesByReason := addTo state.prefixCache.missesByReason (missBucket reason) 1 } }
  | .setLastSavedAt value => { state with lastSavedAt := value }

/-! ## Rebuilding -/

def normalizeCountMap (raw : Dict Text ℕ) (limit : ℕ) : Dict Text ℕ :=
  compactCountMap (raw.entries.foldl (fun values entry =>
    addTo values (labelOfText tables entry.1) entry.2) .empty) limit

def normalizeEnumMap (raw : Dict Text ℕ) (allowed : List Text) : Dict Text ℕ :=
  raw.entries.foldl (fun values entry =>
    addTo values (if entry.1 ∈ allowed then entry.1 else unknown) entry.2) .empty

/-- A model that was tracked. -/
def normalizeModel (models : Models) (entry : Text × ModelEntry) : Models :=
  let name := modelNameOfText tables lower entry.1
  if name = other then { models with other := mergeModelEntry models.other entry.2 }
  else { models with tracked := models.tracked.set name entry.2 }

def normalizeModels (raw : Models) : Models :=
  let models := raw.tracked.entries.foldl (normalizeModel tables lower) ⟨.empty, .empty⟩
  { models with other := mergeModelEntry models.other raw.other }

/-- What `to_dict` gave is read again.  Counts and times are read as they are. -/
def normalize (raw : MetricsState F) : MetricsState F :=
  { raw with
    requests := { raw.requests with
      byProvider := normalizeCountMap tables raw.requests.byProvider maxProviderValues
      byStack := normalizeCountMap tables raw.requests.byStack maxStackValues }
    prefixCache := { raw.prefixCache with
      byProvider := normalizeCountMap tables raw.prefixCache.byProvider maxProviderValues
      missesByReason := normalizeEnumMap raw.prefixCache.missesByReason knownMissReasons }
    cost :=
      { inputUsd := Money.round (usable raw.cost.inputUsd)
        compressionSavingsUsd := Money.round (usable raw.cost.compressionSavingsUsd)
        cacheSavingsUsd := Money.round (usable raw.cost.cacheSavingsUsd) }
    wasteSignals := normalizeEnumMap raw.wasteSignals knownWasteSignals
    models := normalizeModels tables lower raw.models }

/-- The state that is made of a dumped one. -/
def rebuild (raw : MetricsState F) : MetricsState F :=
  let state := normalize tables lower raw
  { state with models := compactModels state.models }

end

end

end Legroom.PersistentMetrics
