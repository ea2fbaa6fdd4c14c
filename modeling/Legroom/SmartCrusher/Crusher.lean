import Legroom.SmartCrusher.Compactor
import Legroom.SmartCrusher.Crushers
import Mathlib.Data.Finset.Sort

/-!
# The crusher

A document is crushed from the outside in.  An array of objects is compacted to a
table where that saves enough, and else loses rows; the other arrays and the long
objects lose what does not stand out.
-/

/-!
## Texts of tables

A table is written as a declaration of its columns and a line for every row.
-/

namespace Legroom.SmartCrusher

open Json Utf8

/-! ## As JSON -/

def schemaToJson (schema : List FieldSpec) : Value :=
  .array (schema.map fun field =>
    .object ([(constant "name", .string field.name), (constant "type", .string field.typeTag.text)] ++
      if field.nullable then [(constant "nullable", .bool true)] else []))

mutual

def compactionToJson : Compaction → Value
  | .table schema rows originalCount =>
      .object [(constant "_compaction", .string (constant "table")),
        (constant "_schema", schemaToJson schema),
        (constant "_kept", .number (numberAtom rows.length)),
        (constant "_total", .number (numberAtom originalCount)),
        (constant "_rows", .array (rowsToJson rows))]
  | .buckets discriminator buckets originalCount =>
      .object [(constant "_compaction", .string (constant "buckets")),
        (constant "_discriminator", .string discriminator),
        (constant "_total", .number (numberAtom originalCount)),
        (constant "_buckets", .array (bucketsToJson buckets))]
  | .opaqueRef ccrHash byteSize kind =>
      .object [(constant "_compaction", .string (constant "ccr")),
        (constant "_hash", .string ccrHash),
        (constant "_size", .number (numberAtom byteSize)),
        (constant "_kind", .string kind.text)]
  | .untouched value => value

def cellToJson : CellValue → Value
  | .scalar value => value
  | .missing => .null
  | .nested sub => compactionToJson sub
  | .opaqueRef ccrHash byteSize kind =>
      .object [(constant "_ccr", .string ccrHash),
        (constant "_size", .number (numberAtom byteSize)),
        (constant "_kind", .string kind.text)]

def rowToJson : List CellValue → List Value
  | [] => []
  | cell :: row => cellToJson cell :: rowToJson row

def rowsToJson : List (List CellValue) → List Value
  | [] => []
  | row :: rows => .array (rowToJson row) :: rowsToJson rows

def bucketsToJson : List Bucket → List Value
  | [] => []
  | .mk key schema rows :: buckets =>
      .object [(constant "_key", key), (constant "_schema", schemaToJson schema),
        (constant "_rows", .array (rowsToJson rows))] :: bucketsToJson buckets

end

def jsonFormat (compaction : Compaction) : Utf8String := (compactionToJson compaction).toJson

/-! ## As CSV -/

/-- A quote is doubled. -/
def doubledQuote (byte : Byte) : Bytes :=
  if byte = quoteByte then [quoteByte, quoteByte] else [byte]

def doubledQuotes (text : Utf8String) : Utf8String where
  bytes := text.bytes.flatMap doubledQuote
  valid := by
    refine run_flatMap ?_ ?_ (fun range hrange => absurd hrange List.not_mem_nil) text.valid
    · intro byte hbyte written hwritten
      rw [doubledQuote] at hwritten
      split_ifs at hwritten
      · rcases List.mem_pair.mp hwritten with rfl | rfl <;> decide
      · rwa [List.mem_singleton.mp hwritten]
    · intro byte hbyte
      refine if_neg ?_
      rintro rfl
      exact hbyte (by decide)

def csvQuote (text : Utf8String) : Utf8String :=
  constant "\"" ++ doubledQuotes text ++ constant "\""

def needsCsvQuote (text : Utf8String) : Bool :=
  text.bytes.any fun byte => byte = comma || byte = quoteByte || byte = 0x0A || byte = 0x0D

def jsonScalarToCsv : Value → Utf8String
  | .null => constant ""
  | .bool true => constant "true"
  | .bool false => constant "false"
  | .number literal => literal.utf8
  | .string text => if needsCsvQuote text then csvQuote text else text
  | value => csvQuote value.toJson

def formatCell : CellValue → Utf8String
  | .missing => constant ""
  | .scalar value => jsonScalarToCsv value
  | .nested sub => csvQuote (jsonFormat sub)
  | .opaqueRef ccrHash byteSize kind => formatCcrMarker ccrHash byteSize kind

def formatField (field : FieldSpec) : Utf8String :=
  field.name ++ constant ":" ++ field.typeTag.text ++
    if field.nullable then constant "?" else constant ""

def formatRow (row : List CellValue) : Utf8String :=
  joined (constant ",") (row.map formatCell) ++ constant "\n"

structure CsvSchemaFormatter where
  includeDropSummary : Bool

namespace CsvSchemaFormatter

variable (formatter : CsvSchemaFormatter)

def dropSummary (kept originalCount : ℕ) : Utf8String :=
  if formatter.includeDropSummary ∧ kept < originalCount then
    constant " __dropped:" ++ numberText (originalCount - kept)
  else constant ""

def writeTable (schema : List FieldSpec) (rows : List (List CellValue)) (originalCount : ℕ) :
    Utf8String :=
  constant "[" ++ numberText rows.length ++ constant "]\x7b" ++
    joined (constant ",") (schema.map formatField) ++ constant "\x7d" ++
    formatter.dropSummary rows.length originalCount ++ constant "\n" ++
    Utf8String.concat (rows.map formatRow)

def writeBucket : Bucket → Utf8String
  | .mk key schema rows =>
      constant "__key:" ++ jsonScalarToCsv key ++ constant "\n" ++
        formatter.writeTable schema rows rows.length

def bucketRows : Bucket → ℕ
  | .mk _ _ rows => rows.length

def format : Compaction → Utf8String
  | .table schema rows originalCount => formatter.writeTable schema rows originalCount
  | .buckets discriminator buckets originalCount =>
      constant "__buckets:" ++ discriminator ++
        formatter.dropSummary (buckets.map bucketRows).sum originalCount ++ constant "\n" ++
        Utf8String.concat (buckets.map formatter.writeBucket)
  | .opaqueRef ccrHash byteSize kind => formatCcrMarker ccrHash byteSize kind
  | .untouched value => value.toJson

/-! ## Lines -/

def EndsLine (text : Utf8String) : Prop := text.bytes.getLast? = some 0x0A

theorem endsLine_newline : EndsLine (constant "\n") := by
  show (constant "\n").bytes.getLast? = some 0x0A
  decide

theorem endsLine_append (front : Utf8String) {text : Utf8String} (htext : EndsLine text) :
    EndsLine (front ++ text) := by
  rw [EndsLine, Utf8String.bytes_append, List.getLast?_append, htext]
  rfl

theorem endsLine_append_concat {front : Utf8String} (hfront : EndsLine front)
    {texts : List Utf8String} (htexts : ∀ text ∈ texts, EndsLine text) :
    EndsLine (front ++ Utf8String.concat texts) := by
  induction texts generalizing front with
  | nil => rwa [Utf8String.concat_nil, Utf8String.append_empty]
  | cons text texts ih =>
      obtain ⟨htext, htexts⟩ := List.forall_mem_cons.mp htexts
      rw [Utf8String.concat_cons, ← Utf8String.append_assoc]
      exact ih (endsLine_append front htext) htexts

theorem endsLine_writeTable (schema : List FieldSpec) (rows : List (List CellValue))
    (originalCount : ℕ) : EndsLine (formatter.writeTable schema rows originalCount) := by
  refine endsLine_append_concat (endsLine_append _ endsLine_newline) fun text htext => ?_
  obtain ⟨row, -, rfl⟩ := List.mem_map.mp htext
  exact endsLine_append _ endsLine_newline

/-- What is not a marker ends its last line. -/
theorem endsLine_format {compaction : Compaction} (hcompacted : compaction.wasCompacted = true)
    (hmarker : ∀ ccrHash byteSize kind, compaction ≠ .opaqueRef ccrHash byteSize kind) :
    EndsLine (formatter.format compaction) := by
  cases compaction with
  | table schema rows originalCount => exact formatter.endsLine_writeTable schema rows _
  | buckets discriminator buckets originalCount =>
      refine endsLine_append_concat (endsLine_append _ endsLine_newline) fun text htext => ?_
      obtain ⟨⟨key, schema, rows⟩, -, rfl⟩ := List.mem_map.mp htext
      exact endsLine_append _ (formatter.endsLine_writeTable schema rows _)
  | opaqueRef ccrHash byteSize kind => exact absurd rfl (hmarker ccrHash byteSize kind)
  | untouched value => cases hcompacted

end CsvSchemaFormatter

/-! ## Documents -/

/-- What the planner keeps of an array, and the fields it found constant. -/
structure CompressionPlan where
  keepIndices : List ℕ
  constantFields : List (Utf8String × Value)

structure CompactionStage (F : Type*) where
  config : CompactConfig F
  formatter : CsvSchemaFormatter

/-- The analyzer and the planner weigh the items by statistics.  What they decide on
is a parameter; there is no plan for an array that is better left alone. -/
structure SmartCrusher (F : Type*) where
  config : SmartCrusherConfig F
  tools : TextTools
  createPlan : List Value → Utf8String → ℕ → Option CompressionPlan
  compaction : Option (CompactionStage F)

structure CrushArrayResult where
  items : List Value
  ccrHash : Option Utf8String
  droppedSummary : Utf8String
  compacted : Option Utf8String

/-! ## Kinds of arrays -/

inductive ArrayType where
  | dictArray
  | stringArray
  | numberArray
  | boolArray
  | nestedArray
  | mixedArray
  | empty
  deriving DecidableEq

inductive TypeKey where
  | dict
  | str
  | bool
  | number
  | list
  | none
  deriving DecidableEq

def groupKey : Value → TypeKey
  | .object _ => .dict
  | .string _ => .str
  | .bool _ => .bool
  | .number _ => .number
  | .array _ => .list
  | .null => .none

def classifyArray : List Value → ArrayType
  | [] => .empty
  | item :: items =>
      if items.all fun other => groupKey other = groupKey item then
        match groupKey item with
        | .bool => .boolArray
        | .dict => .dictArray
        | .str => .stringArray
        | .number => .numberArray
        | .list => .nestedArray
        | .none => .mixedArray
      else .mixedArray

/-! ## Plans -/

/-- The constant fields out of an object. -/
def withoutConstants (constantFields : List (Utf8String × Value)) : Value → Value
  | .object fields => .object (constantFields.foldl (fun fields found =>
      if ((Value.object fields).get found.1).any (·.same found.2) then
        Value.swapRemove fields found.1
      else fields) fields)
  | value => value

def hasConstant (constantFields : List (Utf8String × Value)) (item : Value) : Bool :=
  isObject item && constantFields.any fun found => (item.get found.1).any (·.same found.2)

def executePlan (factorOutConstants : Bool) (plan : CompressionPlan) (items : List Value) :
    List Value :=
  let kept := (plan.keepIndices.insertionSort (· ≤ ·)).filterMap (items[·]?)
  if factorOutConstants ∧ plan.constantFields ≠ [] ∧ 2 ≤ kept.length ∧
      kept.any (hasConstant plan.constantFields) then
    .object [(constant "_constant_fields", .object (Value.collect plan.constantFields))] ::
      kept.map (withoutConstants plan.constantFields)
  else kept

section

variable {F : Type*} [Float64 F]

def compactConfig (config : SmartCrusherConfig F) : CompactConfig F where
  classify := { ClassifyConfig.default with emitOpaqueMarkers := config.opaqueMarkersEnabled }
  minItems := 2
  coreFieldFraction := config.compactionCoreFieldFraction
  heterogeneousCoreRatio := config.compactionHeterogeneousCoreRatio
  maxFlattenInnerKeys := config.compactionMaxFlattenInnerKeys
  minBuckets := config.compactionMinBuckets
  maxBuckets := config.compactionMaxBuckets

/-- `SmartCrusher::new`. -/
def SmartCrusher.new (config : SmartCrusherConfig F) (tools : TextTools)
    (createPlan : List Value → Utf8String → ℕ → Option CompressionPlan) : SmartCrusher F where
  config := config
  tools := tools
  createPlan := createPlan
  compaction := some ⟨compactConfig config, ⟨false⟩⟩

variable (crusher : SmartCrusher F) (query : Utf8String) (bias : F)

/-! ## Arrays of objects -/

/-- The length of the array as it would be written. -/
def estimateArrayBytes (itemStrings : List Utf8String) : ℕ :=
  (itemStrings.map (·.bytes.length)).sum + (itemStrings.length - 1) + 2

/-- The text of the table, if it saves enough. -/
def losslessText (items : List Value) (itemStrings : List Utf8String) : Option Utf8String :=
  crusher.compaction.bind fun stage =>
    let compaction := compact stage.config items
    let rendered := stage.formatter.format compaction
    let savingsRatio : F := Float64.sub (Float64.ofNat 1)
      (Float64.div (Float64.ofNat rendered.bytes.length)
        (Float64.ofNat (estimateArrayBytes itemStrings)))
    if compaction.wasCompacted ∧
        Float64.le crusher.config.losslessMinSavingsRatio savingsRatio then
      some rendered
    else none

def crushArray (items : List Value) : CrushArrayResult :=
  let itemStrings := items.map Value.toJson
  let adaptiveK := computeOptimalK crusher.tools itemStrings bias 3 (maxK crusher.config)
  if items.length ≤ adaptiveK then ⟨items, none, constant "", none⟩
  else
    match losslessText crusher items itemStrings with
    | some rendered => ⟨items, none, constant "", some rendered⟩
    | none =>
        if crusher.config.losslessOnly then ⟨items, none, constant "", none⟩
        else
          match crusher.createPlan items query adaptiveK with
          | none => ⟨items, none, constant "", none⟩
          | some plan =>
              let result := executePlan crusher.config.factorOutConstants plan items
              let droppedCount := items.length - result.length
              if 0 < droppedCount ∧ crusher.config.enableCcrMarker then
                let hash := hashOpaque (Value.array items).toJson
                ⟨result, some hash,
                  constant "<<ccr:" ++ hash ++ constant " " ++ numberText droppedCount ++
                    constant "_rows_offloaded>>", none⟩
              else ⟨result, none, constant "", none⟩

/-! ## Mixed arrays -/

/-- The items of one type with their positions. -/
def groupOf (key : TypeKey) (items : List Value) : List (Value × ℕ) :=
  items.zipIdx.filter fun entry => groupKey entry.1 = key

def mixedNumberKeeps (group : List (Value × ℕ)) : List ℕ :=
  let values := group.map Prod.fst
  let split := computeKSplit crusher.tools crusher.config (values.map Value.toJson) bias
  let first := min split.first values.length
  let last := min split.last (values.length - first)
  let finite : List F := values.filterMap finiteNumber
  let outlying :=
    match Float64.mean finite, Float64.sampleStdev finite with
    | some center, some deviation =>
        outliers crusher.config (values.map finiteNumber) center deviation
    | _, _ => []
  (boundary values.length first last ++ outlying).filterMap fun index =>
    (group[index]?).map Prod.snd

/-- The positions that stay of the items of one type. -/
def mixedKeeps (key : TypeKey) (group : List (Value × ℕ)) : List ℕ :=
  if group.length < crusher.config.minItemsToAnalyze then group.map Prod.snd
  else
    match key with
    | .dict =>
        let crushed :=
          (crushArray crusher query bias (group.map Prod.fst)).items.map Value.pythonJsonDumpsSortKeys
        (group.filter fun entry => entry.1.pythonJsonDumpsSortKeys ∈ crushed).map Prod.snd
    | .str =>
        let crushed := crushStringArray crusher.tools crusher.config
          (group.filterMap fun entry => entry.1.asStr) bias
        (group.filter fun entry => entry.1.asStr.any (· ∈ crushed)).map Prod.snd
    | .number => mixedNumberKeeps crusher bias group
    | _ => group.map Prod.snd

def crushMixedArray (items : List Value) : List Value :=
  if items.length ≤ 8 then items
  else
    keptAt items (([.dict, .str, .bool, .number, .list, .none] : List TypeKey).flatMap fun key =>
      mixedKeeps crusher query bias key (groupOf key items))

/-! ## Documents -/

def maxProcessDepth : ℕ := 50

/-- The rows that are left and the marker behind them. -/
def sentinelItems (result : CrushArrayResult) : List Value :=
  result.items ++
    if result.droppedSummary.bytes.isEmpty then []
    else [.object [(constant "_ccr_dropped", .string result.droppedSummary)]]

/-- A text whose JSON was processed. -/
def containerText : Value → Utf8String
  | .string rendered => rendered
  | value => value.toJson

def processString (processed : Value → Value) (text : Utf8String) : Value :=
  match tryParseJsonContainer text with
  | some parsed =>
      if (processed parsed).same parsed then .string text
      else .string (containerText (processed parsed))
  | none =>
      match classifyString (compactConfig crusher.config).classify text with
      | .opaqueBlob kind => .string (formatCcrMarker (hashOpaque text) text.bytes.length kind)
      | _ => .string text

/-- A value of which `fuel` more levels are processed. -/
def processValue : ℕ → Value → Value
  | 0, value => value
  | fuel + 1, .array items =>
      if items.length < crusher.config.minItemsToAnalyze then
        .array (items.map (processValue fuel))
      else
        match classifyArray items with
        | .dictArray =>
            let result := crushArray crusher query bias items
            match result.compacted with
            | some rendered => .string rendered
            | none => .array (sentinelItems result)
        | .stringArray =>
            .array ((crushStringArray crusher.tools crusher.config
              (items.filterMap Value.asStr) bias).map .string)
        | .numberArray => .array (crushNumberArray crusher.tools crusher.config items bias)
        | .mixedArray => .array (crushMixedArray crusher query bias items)
        | _ => .array (items.map (processValue fuel))
  | fuel + 1, .object fields =>
      let processed := fields.map fun field => (field.1, processValue fuel field.2)
      if processed.length < crusher.config.minItemsToAnalyze then .object processed
      else .object ((crushObject crusher.tools crusher.config processed bias).getD processed)
  | fuel + 1, .string text => processString crusher (processValue fuel) text
  | _ + 1, value => value

section

variable {crusher query bias} {fuel : ℕ} {items : List Value}

attribute [local simp] processValue in
theorem processValue_short (hlength : items.length < crusher.config.minItemsToAnalyze) :
    processValue crusher query bias (fuel + 1) (.array items) =
      .array (items.map (processValue crusher query bias fuel)) := by
  simp [hlength]

theorem processValue_stringArray (hlength : ¬items.length < crusher.config.minItemsToAnalyze)
    (hclass : classifyArray items = .stringArray) :
    processValue crusher query bias (fuel + 1) (.array items) =
      .array ((crushStringArray crusher.tools crusher.config
        (items.filterMap Value.asStr) bias).map .string) := by
  rw [processValue, if_neg hlength, hclass]

theorem processValue_numberArray (hlength : ¬items.length < crusher.config.minItemsToAnalyze)
    (hclass : classifyArray items = .numberArray) :
    processValue crusher query bias (fuel + 1) (.array items) =
      .array (crushNumberArray crusher.tools crusher.config items bias) := by
  rw [processValue, if_neg hlength, hclass]

theorem processValue_mixedArray (hlength : ¬items.length < crusher.config.minItemsToAnalyze)
    (hclass : classifyArray items = .mixedArray) :
    processValue crusher query bias (fuel + 1) (.array items) =
      .array (crushMixedArray crusher query bias items) := by
  rw [processValue, if_neg hlength, hclass]

/-- The items of the other arrays are processed one by one. -/
theorem processValue_items (hclass : classifyArray items ≠ .dictArray ∧
    classifyArray items ≠ .stringArray ∧ classifyArray items ≠ .numberArray ∧
      classifyArray items ≠ .mixedArray) :
    processValue crusher query bias (fuel + 1) (.array items) =
      .array (items.map (processValue crusher query bias fuel)) := by
  obtain ⟨hdict, hstring, hnumber, hmixed⟩ := hclass
  rw [processValue]
  split_ifs
  · rfl
  · split
    · exact absurd ‹_› hdict
    · exact absurd ‹_› hstring
    · exact absurd ‹_› hnumber
    · exact absurd ‹_› hmixed
    · rfl

theorem processValue_object {fields : List (Utf8String × Value)} :
    processValue crusher query bias (fuel + 1) (.object fields) =
      let processed := fields.map fun field => (field.1, processValue crusher query bias fuel field.2)
      if fields.length < crusher.config.minItemsToAnalyze then .object processed
      else .object ((crushObject crusher.tools crusher.config processed bias).getD processed) := by
  rw [processValue]
  dsimp only
  rw [List.length_map]

theorem processValue_string {text : Utf8String} :
    processValue crusher query bias (fuel + 1) (.string text) =
      processString crusher (processValue crusher query bias fuel) text := by
  rw [processValue]

end

/-- What is left of a text.  A text that is not JSON stays as it is. -/
def crush (content : Utf8String) : Utf8String :=
  match valueFromSlice content.bytes with
  | some parsed => (processValue crusher query bias maxProcessDepth parsed).pythonSafeJsonDumps
  | none => content

end

/-!
## Sets of positions

The planner collects the positions that stand out.  What it keeps of them are those with
different contents, with others that fill the room that is left, and the critical ones first
where there is not enough room.
-/

/-- What the statistics of an array say. -/
structure ArrayFindings where
  /-- The items are ranked by a score, and nothing else is weighed. -/
  ranked : Bool
  keep : Finset ℕ
  /-- Errors, outliers and anomalies. -/
  critical : Finset ℕ
  constantFields : List (Utf8String × Value)

/-- The analyzer studies an array for a query and a number of items.  It finds nothing in an
array that is better left alone. -/
structure Planner where
  dedupIdenticalItems : Bool
  study : List Value → Utf8String → ℕ → Option ArrayFindings

section

variable (tools : TextTools)

def itemContent : Value → Utf8String
  | .string text => text
  | .null => constant "None"
  | .object fields => (Value.object fields).pythonJsonDumpsSortKeys
  | .array items => (Value.array items).pythonJsonDumpsSortKeys
  | value => value.toJson

/-- The first half of the digest. -/
def itemContentHash (item : Value) : Bytes := (tools.md5 (itemContent item).bytes).take 8

/-- The first position of every content. -/
def deduplicateIndicesByContent (keep : Finset ℕ) (items : List Value) : Finset ℕ :=
  ((keep.sort.foldl (fun (seen : List (Bytes × ℕ)) index =>
    match items[index]? with
    | some item =>
        let hash := itemContentHash tools item
        if seen.any (·.1 = hash) then seen else seen ++ [(hash, index)]
    | none => seen) []).map Prod.snd).toFinset

/-- Every `step`-th candidate, then those behind them. -/
def interleaved (step : ℕ) (candidates : List ℕ) : List ℕ :=
  (List.range step).flatMap fun offset =>
    (candidates.zipIdx.filter fun entry => entry.2 % step = offset).map Prod.fst

def fillRemainingSlots (keep : Finset ℕ) (items : List Value) (effectiveMax : ℕ) : Finset ℕ :=
  let remaining := effectiveMax - keep.card
  let hashOf := fun index => (items[index]?).map (itemContentHash tools)
  let candidates := (List.range items.length).filter (· ∉ keep)
  let step := max (candidates.length / (remaining + 1)) 1
  ((interleaved step candidates).foldl (fun (state : Finset ℕ × List (Option Bytes)) index =>
    if keep.card + remaining ≤ state.1.card then state
    else if hashOf index ∈ state.2 then state
    else (insert index state.1, hashOf index :: state.2))
    (keep, (keep.sort.filter (· < items.length)).map hashOf)).1

/-- A position more, if there is room. -/
def addWhileRoom (effectiveMax : ℕ) (kept : Finset ℕ) (index : ℕ) : Finset ℕ :=
  if kept.card < effectiveMax then insert index kept else kept

/-- The critical positions all stay; then come the ends, and then the others. -/
def prioritizeIndices (dedup : Bool) (keep critical : Finset ℕ) (items : List Value)
    (effectiveMax : ℕ) : Finset ℕ :=
  let unique := if dedup then deduplicateIndicesByContent tools keep items else keep
  let current :=
    if unique.card < effectiveMax ∧ unique.card < items.length then
      fillRemainingSlots tools unique items effectiveMax
    else unique
  if current.card ≤ effectiveMax then current
  else
    let positions := List.range items.length
    (positions.take 3 ++ positions.drop (items.length - 2) ++ current.sort).foldl
      (addWhileRoom effectiveMax) critical

/-- The plan of an array, unless it is better left alone. -/
def Planner.createPlan (planner : Planner) (factorOutConstants : Bool) (items : List Value)
    (query : Utf8String) (maxItems : ℕ) : Option CompressionPlan :=
  (planner.study items query maxItems).map fun found =>
    { keepIndices :=
        (if found.ranked then found.keep
        else prioritizeIndices tools planner.dedupIdenticalItems found.keep found.critical items
          maxItems).sort
      constantFields := if factorOutConstants then found.constantFields else [] }

/-- The positions of a plan are those of a set. -/
theorem Planner.nodup_keepIndices {planner : Planner} {factorOutConstants : Bool}
    {items : List Value} {query : Utf8String} {maxItems : ℕ} {plan : CompressionPlan}
    (hplan : planner.createPlan tools factorOutConstants items query maxItems = some plan) :
    plan.keepIndices.Nodup := by
  obtain ⟨found, -, rfl⟩ := Option.map_eq_some_iff.mp hplan
  exact Finset.sort_nodup _ _

end

end Legroom.SmartCrusher
