import Legroom.SmartCrusher.AdaptiveSizer
import Mathlib.Data.List.Sort

/-!
# Crushers for strings, numbers and objects

Of a long array some positions are kept: those at both ends, those that stand out,
and some in between at a stride.
-/

namespace Legroom.SmartCrusher

open Json Utf8

structure SmartCrusherConfig (F : Type*) where
  minItemsToAnalyze : ℕ
  minTokensToCrush : ℕ
  varianceThreshold : F
  maxItemsAfterCrush : ℕ
  preserveChangePoints : Bool
  factorOutConstants : Bool
  firstFraction : F
  lastFraction : F
  losslessMinSavingsRatio : F
  enableCcrMarker : Bool
  losslessOnly : Bool
  compactionCoreFieldFraction : F
  compactionHeterogeneousCoreRatio : F
  compactionMaxFlattenInnerKeys : ℕ
  compactionMinBuckets : ℕ
  compactionMaxBuckets : ℕ

def SmartCrusherConfig.default {F : Type*} [Float64 F] : SmartCrusherConfig F where
  minItemsToAnalyze := 5
  minTokensToCrush := 200
  varianceThreshold := 2.0
  maxItemsAfterCrush := 15
  preserveChangePoints := true
  factorOutConstants := false
  firstFraction := 0.3
  lastFraction := 0.15
  losslessMinSavingsRatio := 0.15
  enableCcrMarker := true
  losslessOnly := false
  compactionCoreFieldFraction := 0.8
  compactionHeterogeneousCoreRatio := 0.6
  compactionMaxFlattenInnerKeys := 6
  compactionMinBuckets := 2
  compactionMaxBuckets := 8

def SmartCrusherConfig.opaqueMarkersEnabled {F : Type*} (config : SmartCrusherConfig F) : Bool :=
  config.enableCcrMarker && !config.losslessOnly

/-! ## Positions -/

/-- The items at some positions, in their order. -/
def keptAt {α : Type*} (items : List α) (keep : List ℕ) : List α :=
  items.zipIdx.filterMap fun (item, index) => if index ∈ keep then some item else none

/-- Every position is kept. -/
def Covers (keep : List ℕ) (n : ℕ) : Prop := ∀ index < n, index ∈ keep

theorem keptAt_eq_map_filter {α : Type*} (items : List α) (keep : List ℕ) :
    keptAt items keep = (items.zipIdx.filter fun entry => entry.2 ∈ keep).map Prod.fst := by
  rw [keptAt, ← List.filterMap_eq_map, List.filterMap_filter]
  refine List.filterMap_congr fun entry hentry => ?_
  simp

theorem keptAt_sublist {α : Type*} (items : List α) (keep : List ℕ) :
    (keptAt items keep).Sublist items := by
  rw [keptAt_eq_map_filter]
  have hsublist := (List.filter_sublist (p := fun entry => decide (entry.2 ∈ keep))
    (l := items.zipIdx)).map Prod.fst
  rwa [List.zipIdx_map_fst] at hsublist

theorem keptAt_eq_self_iff {α : Type*} {items : List α} {keep : List ℕ} :
    keptAt items keep = items ↔ Covers keep items.length := by
  have hall : keptAt items keep = items ↔ ∀ entry ∈ items.zipIdx, entry.2 ∈ keep := by
    rw [keptAt_eq_map_filter]
    constructor
    · intro hkept entry hentry
      have hlength := congrArg List.length hkept
      rw [List.length_map, ← List.length_zipIdx (l := items) (i := 0)] at hlength
      exact of_decide_eq_true (List.length_filter_eq_length_iff.mp hlength entry hentry)
    · intro hkeep
      rw [List.filter_eq_self.mpr fun entry hentry => decide_eq_true (hkeep entry hentry),
        List.zipIdx_map_fst]
  rw [hall, Covers]
  constructor
  · intro hkeep index hindex
    exact hkeep (items[index], index) (List.mk_mem_zipIdx_iff_getElem?.mpr (by simp [hindex]))
  · intro hkeep entry hentry
    exact hkeep _ (List.snd_lt_of_mem_zipIdx hentry)

/-- The positions at a stride. -/
def strided (n stride : ℕ) : List ℕ := (List.range n).filter (· % stride = 0)

/-- The stride that fills a budget. -/
def strideFor (n budget : ℕ) : ℕ := max ((n - 1) / (budget + 1)) 1

/-- The first and the last positions. -/
def boundary (n first last : ℕ) : List ℕ :=
  (List.range n).filter fun index => index < first ∨ n - last ≤ index

section

variable {F : Type*} [Float64 F] (tools : TextTools) (config : SmartCrusherConfig F)

def maxK : Option ℕ :=
  if 0 < config.maxItemsAfterCrush then some config.maxItemsAfterCrush else none

/-- A share of the items, at least one. -/
def share (total : ℕ) (fraction : F) : ℕ :=
  max 1 (Float64.toUsize (Float64.roundTiesEven (Float64.mul (Float64.ofNat total) fraction)))

structure KSplit where
  total : ℕ
  first : ℕ
  last : ℕ
  importance : ℕ

def computeKSplit (items : List Utf8String) (bias : F) : KSplit :=
  let total := computeOptimalK tools items bias 3 (maxK config)
  let first := min (share total config.firstFraction) total
  let last := min (share total config.lastFraction) (total - first)
  ⟨total, first, last, total - (first + last)⟩

/-- The positions of the numbers that are far from the mean. -/
def outliers (values : List (Option F)) (center deviation : F) : List ℕ :=
  if Float64.lt (Float64.ofNat 0) deviation then
    let threshold := Float64.mul config.varianceThreshold deviation
    (List.range values.length).filter fun index =>
      match values[index]? with
      | some (some value) => Float64.lt threshold (Float64.abs (Float64.sub value center))
      | _ => false
  else []

/-! ## Strings -/

def errorKeywords : List Utf8String :=
  ["error", "exception", "failed", "failure", "critical", "fatal", "crash", "panic", "abort",
    "timeout", "denied", "rejected"].map constant

def containsErrorKeyword (text : Utf8String) : Bool :=
  errorKeywords.any fun keyword => keyword.bytes <:+: (tools.toLowercase text).bytes

/-- A position that is not kept and whose text was not seen is added. -/
def fillDistinct (items : List Utf8String) (cap : ℕ) (state : List ℕ × List Utf8String)
    (index : ℕ) : List ℕ × List Utf8String :=
  match items[index]? with
  | some item =>
      if cap ≤ state.1.length ∨ index ∈ state.1 ∨ item ∈ state.2 then state
      else (index :: state.1, item :: state.2)
  | none => state

def stringKeepIndices (items : List Utf8String) (bias : F) : List ℕ :=
  let n := items.length
  let split := computeKSplit tools config items bias
  let errors := (List.range n).filter fun index =>
    (items[index]?).any (containsErrorKeyword tools)
  let lengths : List F := items.map fun item => Float64.ofNat (chars item.bytes).length
  let anomalies := outliers config (lengths.map some) ((Float64.mean lengths).getD (Float64.ofNat 0))
    ((Float64.sampleStdev lengths).getD (Float64.ofNat 0))
  let keep := (errors ++ anomalies ++ boundary n split.first split.last).dedup
  let budget := split.total - keep.length
  if 0 < budget then
    let cap := split.total + errors.length + anomalies.length
    ((strided n (strideFor n budget)).foldl (fillDistinct items cap)
      (keep, keep.filterMap (items[·]?))).1
  else keep

def crushStringArray (items : List Utf8String) (bias : F) : List Utf8String :=
  if items.length ≤ 8 then items else keptAt items (stringKeepIndices tools config items bias)

/-! ## Numbers -/

/-- `as_f64`, if it is finite. -/
def finiteNumber : Value → Option F
  | .number literal => (Float64.parse literal.bytes : Option F).filter Float64.isFinite
  | _ => none

/-- The mean of what is finite, zero if there is none. -/
def meanOf (values : List F) : F := (Float64.mean values).getD (Float64.ofNat 0)

/-- A position where the means of five items before and behind are far apart. -/
def isChangePoint (items : List Value) (deviation : F) (index : ℕ) : Bool :=
  let left : List F := ((items.drop (index - 5)).take 5).filterMap finiteNumber
  let right : List F := ((items.drop index).take 5).filterMap finiteNumber
  !left.isEmpty && !right.isEmpty && Float64.lt (Float64.ofNat 0) deviation &&
    Float64.lt (Float64.mul config.varianceThreshold deviation)
      (Float64.abs (Float64.sub (meanOf right) (meanOf left)))

def changePoints (items : List Value) (deviation : F) : List ℕ :=
  if config.preserveChangePoints ∧ 10 < items.length then
    (List.range items.length).filter fun index =>
      5 ≤ index ∧ index < items.length - 5 ∧ isChangePoint config items deviation index
  else []

def numberKeepIndices (items : List Value) (bias : F) : List ℕ :=
  let n := items.length
  let finite : List F := items.filterMap finiteNumber
  let split := computeKSplit tools config (items.map Value.toJson) bias
  let deviation := (Float64.sampleStdev finite).getD (Float64.ofNat 0)
  let outlying := outliers config (items.map finiteNumber) (meanOf finite) deviation
  let keep := (outlying ++ changePoints config items deviation ++
    boundary n split.first split.last).dedup
  let budget := split.total - keep.length
  if 0 < budget then
    let cap := split.total + outlying.length
    (strided n (strideFor n budget)).foldl (fun keep index =>
      if cap ≤ keep.length then keep else keep.insert index) keep
  else keep

def crushNumberArray (items : List Value) (bias : F) : List Value :=
  if items.length ≤ 8 ∨ (items.filterMap (finiteNumber (F := F))).isEmpty then items
  else keptAt items (numberKeepIndices tools config items bias)

/-! ## Objects -/

/-- A field as a text. -/
def fieldText (field : Utf8String × Value) : Utf8String :=
  field.1 ++ constant ": " ++ field.2.toJson

/-- A rough number of tokens. -/
def fieldTokens (field : Utf8String × Value) : ℕ :=
  field.2.toJson.bytes.length / 4 + field.1.bytes.length / 4 + 2

def isErrorField (field : Utf8String × Value) : Bool :=
  containsErrorKeyword tools field.2.toJson

def objectKeepIndices (fields : List (Utf8String × Value)) (total : ℕ) : List ℕ :=
  let n := fields.length
  let isError := fun (index : ℕ) => (fields[index]?).any (isErrorField tools)
  let small := (List.range n).filter fun index =>
    (fields[index]?).any fun field => fieldTokens field ≤ 12
  let keep := ((List.range n).filter isError ++ small ++
    boundary n (share total config.firstFraction) (share total config.lastFraction)).dedup
  let budget := total - keep.length
  if 0 < budget then
    (strided n (strideFor n budget)).foldl (fun keep index =>
      if total + keep.countP isError ≤ keep.length then keep else keep.insert index) keep
  else keep

/-- Nothing if the object is passed through. -/
def crushObject (fields : List (Utf8String × Value)) (bias : F) :
    Option (List (Utf8String × Value)) :=
  if fields.length ≤ 8 ∨ (fields.map fieldTokens).sum < config.minTokensToCrush then none
  else
    let total := computeOptimalK tools (fields.map fieldText) bias 3 (maxK config)
    if fields.length ≤ total then none
    else some (keptAt fields (objectKeepIndices tools config fields total))

end

end Legroom.SmartCrusher
