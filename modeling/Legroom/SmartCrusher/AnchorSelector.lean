import Legroom.SmartCrusher.AdaptiveSizer
import Legroom.SmartCrusher.Compactor
import Legroom.SmartCrusher.ItemHash
import Mathlib.Data.Finset.Card

/-!
# Anchors of an array

Of an array that is too long some positions are kept for where they are: slots are shared out
between the front, the back and the middle by weights, and each region is filled with items that
were not seen before.  Slots are counted without overflow.
-/

namespace Legroom.SmartCrusher

open Json Utf8

structure AnchorConfig (F : Type*) where
  anchorBudgetPct : F
  minAnchorSlots : ℕ
  maxAnchorSlots : ℕ
  defaultFrontWeight : F
  defaultBackWeight : F
  defaultMiddleWeight : F
  searchFrontWeight : F
  searchBackWeight : F
  logsFrontWeight : F
  logsBackWeight : F
  recencyKeywords : List Utf8String
  historicalKeywords : List Utf8String
  useInformationDensity : Bool
  candidateMultiplier : ℕ
  dedupIdenticalItems : Bool

inductive DataPattern where
  | searchResults
  | logs
  | timeSeries
  | generic
  deriving DecidableEq, Repr

inductive AnchorStrategy where
  | frontHeavy
  | backHeavy
  | balanced
  | distributed
  deriving DecidableEq, Repr

structure AnchorWeights (F : Type*) where
  front : F
  middle : F
  back : F

section

variable {F : Type*} [Float64 F]

def AnchorConfig.default : AnchorConfig F where
  anchorBudgetPct := 0.25
  minAnchorSlots := 3
  maxAnchorSlots := 12
  defaultFrontWeight := 0.5
  defaultBackWeight := 0.4
  defaultMiddleWeight := 0.1
  searchFrontWeight := 0.75
  searchBackWeight := 0.15
  logsFrontWeight := 0.15
  logsBackWeight := 0.75
  recencyKeywords := ["latest", "recent", "last", "newest", "current", "now"].map constant
  historicalKeywords :=
    ["first", "oldest", "earliest", "original", "initial", "beginning"].map constant
  useInformationDensity := true
  candidateMultiplier := 3
  dedupIdenticalItems := true

/-! ## Weights -/

def AnchorWeights.default : AnchorWeights F := ⟨0.5, 0.1, 0.4⟩

/-- `f64::max` with a constant on the left. -/
def maxOf (constant value : F) : F := if Float64.lt constant value then value else constant

/-- `f64::min` with a constant on the left. -/
def minOf (constant value : F) : F := if Float64.lt value constant then value else constant

def AnchorWeights.normalize (weights : AnchorWeights F) : AnchorWeights F :=
  let total := Float64.add (Float64.add weights.front weights.middle) weights.back
  if Float64.le total (Float64.ofNat 0) && Float64.le (Float64.ofNat 0) total then .default
  else ⟨Float64.div weights.front total, Float64.div weights.middle total,
    Float64.div weights.back total⟩

def strategyForPattern : DataPattern → AnchorStrategy
  | .searchResults => .frontHeavy
  | .logs => .backHeavy
  | .timeSeries => .balanced
  | .generic => .distributed

variable (config : AnchorConfig F)

def baseWeightsForStrategy : AnchorStrategy → AnchorWeights F
  | .frontHeavy =>
      ⟨config.searchFrontWeight,
        Float64.sub (Float64.sub (Float64.ofNat 1) config.searchFrontWeight)
          config.searchBackWeight,
        config.searchBackWeight⟩
  | .backHeavy =>
      ⟨config.logsFrontWeight,
        Float64.sub (Float64.sub (Float64.ofNat 1) config.logsFrontWeight) config.logsBackWeight,
        config.logsBackWeight⟩
  | .balanced => ⟨0.45, 0.1, 0.45⟩
  | .distributed =>
      ⟨config.defaultFrontWeight, config.defaultMiddleWeight, config.defaultBackWeight⟩

def adjustWeightsForQuery (tools : TextTools) (base : AnchorWeights F)
    (query : Option Utf8String) : AnchorWeights F :=
  match query.filter (!·.bytes.isEmpty) with
  | none => base
  | some query =>
      let lower := (tools.toLowercase query).bytes
      let hasRecency := config.recencyKeywords.any (·.bytes <:+: lower)
      let hasHistorical := config.historicalKeywords.any (·.bytes <:+: lower)
      if hasRecency && !hasHistorical then
        AnchorWeights.normalize ⟨maxOf 0.1 (Float64.sub base.front 0.15), base.middle,
          minOf 0.8 (Float64.add base.back 0.15)⟩
      else if hasHistorical && !hasRecency then
        AnchorWeights.normalize ⟨minOf 0.8 (Float64.add base.front 0.15), base.middle,
          maxOf 0.1 (Float64.sub base.back 0.15)⟩
      else base

/-! ## Information -/

/-- The fields of all objects. -/
def allFields (items : List Value) : List (Utf8String × Value) :=
  items.flatMap fun item =>
    match item with
    | .object fields => fields
    | _ => []

def stringifyForUniqueness : Value → Utf8String
  | .string text => text
  | value => value.pythonJsonDumpsSortKeys

def calculateValueUniqueness (fields : List (Utf8String × Value)) (items : List Value) : F :=
  if items.length < 2 then 0.5
  else
    let counted := (allFields items).map fun field => (field.1, stringifyForUniqueness field.2)
    let scores : List F := fields.filterMap fun field =>
      let count := counted.count (field.1, stringifyForUniqueness field.2)
      if 0 < count then
        some (Float64.sub (Float64.ofNat 1)
          (Float64.div (Float64.ofNat count) (Float64.ofNat items.length)))
      else none
    if scores.isEmpty then 0.5 else Float64.div (Float64.sum scores) (Float64.ofNat scores.length)

def calculateLengthScore (item : Value) (items : List Value) : F :=
  if items.length < 2 then 0.5
  else
    let lengths := (items.filter isObject).map fun item => item.toJson.bytes.length
    match lengths.max?, lengths.min? with
    | some longest, some shortest =>
        if longest = shortest then 0.5
        else
          Float64.div
            (Float64.sub (Float64.ofNat item.toJson.bytes.length) (Float64.ofNat shortest))
            (Float64.sub (Float64.ofNat longest) (Float64.ofNat shortest))
    | _, _ => 0.5

def calculateStructuralUniqueness (fields : List (Utf8String × Value)) (items : List Value) : F :=
  let valid := items.filter isObject
  if valid.length < 2 then 0.5
  else
    let names := (allFields valid).map Prod.fst
    let size : F := Float64.ofNat valid.length
    let common := names.dedup.filter fun name =>
      Float64.le (Float64.mul size 0.8) (Float64.ofNat (names.count name))
    let rare := names.dedup.filter fun name =>
      Float64.lt (Float64.ofNat (names.count name)) (Float64.mul size 0.2)
    let own := fields.map Prod.fst
    let hasRare := rare.countP (· ∈ own)
    let missingCommon := common.countP (· ∉ own)
    let uniqueness : F := Float64.ofNat 0
    let uniqueness :=
      if rare.isEmpty then uniqueness
      else Float64.add uniqueness (Float64.mul 0.5
        (Float64.div (Float64.ofNat hasRare) (Float64.ofNat (max rare.length 1))))
    let uniqueness :=
      if common.isEmpty then uniqueness
      else Float64.add uniqueness (Float64.mul 0.5
        (Float64.div (Float64.ofNat missingCommon) (Float64.ofNat (max common.length 1))))
    minOf (Float64.ofNat 1) uniqueness

def clamp (score : F) : F :=
  if Float64.lt score (Float64.ofNat 0) then Float64.ofNat 0
  else if Float64.lt (Float64.ofNat 1) score then Float64.ofNat 1
  else score

def calculateInformationScore (item : Value) (items : List Value) : F :=
  if items.isEmpty then Float64.ofNat 0
  else
    match item with
    | .object fields =>
        clamp (Float64.add (Float64.add
          (Float64.mul (calculateValueUniqueness fields items) 0.4)
          (Float64.mul (calculateLengthScore item items) 0.3))
          (Float64.mul (calculateStructuralUniqueness fields items) 0.3))
    | _ => Float64.ofNat 0

/-! ## Regions -/

/-- What a region has selected, and the hashes that were seen. -/
structure Selection where
  selected : Finset ℕ
  seen : List Utf8String

/-- Whether an item may be selected, and the hashes seen with it. -/
def shouldInclude (items : List Value) (index : ℕ) (seen : List Utf8String) (checkOnly : Bool) :
    Bool × List Utf8String :=
  if !config.dedupIdenticalItems then (true, seen)
  else
    match items[index]? with
    | none => (false, seen)
    | some item =>
        if !isObject item then (true, seen)
        else
          let hash := computeItemHash item
          if hash ∈ seen then (false, seen)
          else if checkOnly then (true, seen)
          else (true, hash :: seen)

/-- One try; the hashes are the same if it fails. -/
def tryIndex (items : List Value) (state : Selection) (index : ℕ) : Option Selection :=
  match shouldInclude config items index state.seen false with
  | (true, seen) => some ⟨insert index state.selected, seen⟩
  | (false, _) => none

/-- The positions beside one that are in the region, nearest first. -/
def adjacent (first last index : ℕ) : List ℕ :=
  ([1, -1, 2, -2] : List ℤ).filterMap fun offset =>
    let other := (index : ℤ) + offset
    if other < first ∨ (last : ℤ) ≤ other then none else some other.toNat

/-- The position of a slot, or the first of its neighbours that may be selected. -/
def fillSlot (items : List Value) (first last : ℕ) (state : Selection) (index : ℕ) : Selection :=
  ((index :: adjacent first last index).findSome? (tryIndex config items state)).getD state

/-- The positions between two ends that are a step apart. -/
def spread (first last slots : ℕ) (step : F) : List ℕ :=
  (List.range slots).map fun slot =>
    min (first + Float64.toUsize (Float64.mul (Float64.ofNat (slot + 1)) step)) (last - 1)

def selectByDensity (items : List Value) (first last slots : ℕ) (seen : List Utf8String) :
    Selection :=
  let size := last - first
  let count := min (slots * config.candidateMultiplier) size
  let step : F :=
    if 0 < count then Float64.div (Float64.ofNat size) (Float64.ofNat (count + 1))
    else Float64.ofNat 1
  let regionItems := (items.drop first).take size
  let candidates : List (ℕ × F) := (spread first last count step).filterMap fun index =>
    if (shouldInclude config items index seen true).1 then
      (items[index]?).map fun item =>
        (index, if isObject item then calculateInformationScore item regionItems else 0.5)
    else none
  let ranked := candidates.mergeSort fun left right => !Float64.lt left.2 right.2
  (ranked.take slots).foldl
    (fun state candidate => (tryIndex config items state candidate.1).getD state) ⟨∅, seen⟩

def selectRegion (items : List Value) (first last slots : ℕ) (seen : List Utf8String)
    (useDensity : Bool) : Selection :=
  if slots = 0 ∨ last ≤ first then ⟨∅, seen⟩
  else if useDensity then selectByDensity config items first last slots seen
  else if last - first ≤ slots then
    (List.range' first (last - first)).foldl
      (fun state index => (tryIndex config items state index).getD state) ⟨∅, seen⟩
  else
    let step : F := Float64.div (Float64.ofNat (last - first)) (Float64.ofNat (slots + 1))
    (spread first last slots step).foldl (fillSlot config items first last) ⟨∅, seen⟩

/-! ## Slots -/

def calculateAnchorBudget (arraySize maxItems : ℕ) : ℕ :=
  if arraySize ≤ maxItems then 0
  else
    let raw := Float64.toUsize (Float64.mul (Float64.ofNat maxItems) config.anchorBudgetPct)
    min (min config.maxAnchorSlots (max config.minAnchorSlots raw)) arraySize

structure Slots where
  front : ℕ
  middle : ℕ
  back : ℕ

/-- The share of a weight, one slot at least. -/
def slotsFor (budget : ℕ) (weight : F) : ℕ :=
  max 1 (Float64.toUsize (Float64.mul (Float64.ofNat budget) weight))

/-- The shares; what exceeds the budget is taken from the middle, and then from the back. -/
def allocateSlots (budget : ℕ) (weights : AnchorWeights F) : Slots :=
  let front := slotsFor budget weights.front
  let back := slotsFor budget weights.back
  let middle := budget - (front + back)
  let total := front + middle + back
  if budget < total then
    let excess := total - budget
    let reduction := min middle excess
    let excess := excess - reduction
    ⟨front, middle - reduction, if 0 < excess then max 1 (back - excess) else back⟩
  else ⟨front, middle, back⟩

def weightsFor (tools : TextTools) (pattern : DataPattern) (query : Option Utf8String) :
    AnchorWeights F :=
  (adjustWeightsForQuery config tools (baseWeightsForStrategy config (strategyForPattern pattern))
    query).normalize

def selectAnchors (tools : TextTools) (items : List Value) (maxItems : ℕ) (pattern : DataPattern)
    (query : Option Utf8String) : Finset ℕ :=
  let size := items.length
  if size = 0 then ∅
  else if size ≤ maxItems then Finset.range size
  else
    let budget := calculateAnchorBudget config size maxItems
    if budget = 0 then ∅
    else
      let slots := allocateSlots budget (weightsFor config tools pattern query)
      let frontEnd := min (slots.front * 2) (size / 3)
      let front := selectRegion config items 0 frontEnd slots.front [] false
      let backStart := max (size - slots.back * 2) (2 * size / 3)
      let back := selectRegion config items backStart size slots.back front.seen false
      let anchors := front.selected ∪ back.selected
      if 0 < slots.middle then
        let middleStart := front.selected.card
        let middleEnd := size - back.selected.card
        if middleStart < middleEnd then
          anchors ∪ (selectRegion config items middleStart middleEnd slots.middle back.seen
            config.useInformationDensity).selected
        else anchors
      else anchors

end

end Legroom.SmartCrusher
