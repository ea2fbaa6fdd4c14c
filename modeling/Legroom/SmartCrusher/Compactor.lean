import Legroom.Lib.Json.Weight
import Legroom.SmartCrusher.Cells
import Mathlib.Data.List.Sort

/-!
# The compactor

An array of objects becomes a table with a column for every field.  Arrays whose
rows have little in common are put into buckets by one of their fields; objects
with the same fields in every row become columns of their own.
-/

namespace Legroom.SmartCrusher

open Json Utf8

structure CompactConfig (F : Type*) where
  classify : ClassifyConfig F
  minItems : ℕ
  coreFieldFraction : F
  heterogeneousCoreRatio : F
  maxFlattenInnerKeys : ℕ
  minBuckets : ℕ
  maxBuckets : ℕ

def isObject : Value → Bool
  | .object _ => true
  | _ => false

def fieldNames : Value → List Utf8String
  | .object fields => fields.map Prod.fst
  | _ => []

/-- The order of a `BTreeMap` with texts for keys. -/
def TextLe (left right : Utf8String) : Prop := left.bytes ≤ right.bytes

instance : DecidableRel TextLe := fun left right =>
  inferInstanceAs (Decidable (left.bytes ≤ right.bytes))

def hasField (name : Utf8String) (item : Value) : Bool := (item.get name).isSome

def computeKeyFreqs (items : List Value) : List (Utf8String × ℕ) :=
  ((items.flatMap fieldNames).dedup.insertionSort TextLe).map fun name =>
    (name, items.countP (hasField name))

/-- The most frequent first, then by name. -/
def FreqLe (left right : Utf8String × ℕ) : Prop :=
  right.2 < left.2 ∨ left.2 = right.2 ∧ TextLe left.1 right.1

instance : DecidableRel FreqLe := fun left right =>
  inferInstanceAs (Decidable (right.2 < left.2 ∨ left.2 = right.2 ∧ TextLe left.1 right.1))

def orderedKeys (keyFreqs : List (Utf8String × ℕ)) : List Utf8String :=
  (keyFreqs.insertionSort FreqLe).map Prod.fst

/-! ## Types of columns -/

/-- A number that is an `i64` or a `u64`. -/
def isInteger (literal : Atom) : Bool :=
  let value := fun (digits : Bytes) =>
    digits.foldl (fun number digit => 10 * number + (digit.toNat - 48)) 0
  match literal.bytes with
  | first :: digits =>
      if first = 0x2D then digits.all isDigit && value digits ≤ 2 ^ 63
      else (first :: digits).all isDigit && value (first :: digits) < 2 ^ 64
  | [] => false

def typeTagFor : Value → TypeTag
  | .null => .null
  | .bool _ => .bool
  | .number literal => if isInteger literal then .int else .float
  | .string _ => .string
  | .object _ => .json
  | .array _ => .json

def inferTypeTag (items : List Value) (name : Utf8String) : TypeTag :=
  match (items.filterMap (·.get name)).filter (!·.isNull) with
  | [] => .string
  | value :: values =>
      if values.all fun other => typeTagFor other = typeTagFor value then typeTagFor value
      else .json

/-- The type behind a number of cells, whether a value was seen, and whether one was
missing. -/
def stepTypeTag (seen : TypeTag × Bool × Bool) : CellValue → TypeTag × Bool × Bool
  | .missing => (seen.1, seen.2.1, true)
  | .scalar .null => (seen.1, seen.2.1, true)
  | .scalar value =>
      if seen.2.1 = false then (typeTagFor value, true, seen.2.2)
      else if typeTagFor value = seen.1 then seen
      else (.json, seen.2.1, seen.2.2)
  | _ => (.json, seen.2.1, seen.2.2)

/-- The type of a column, and whether it is nullable. -/
def inferTypeTagFromCells (cells : List CellValue) : TypeTag × Bool :=
  let seen := cells.foldl stepTypeTag (.string, false, false)
  (seen.1, seen.2.2)

/-! ## Flattening -/

/-- The cells of a column. -/
def column (rows : List (List CellValue)) (index : ℕ) : List (Option CellValue) :=
  rows.map fun row => row[index]?

/-- The names in the objects of a column, if they are the same in every row. -/
def uniformObjectKeys : List (Option CellValue) → Option (List Utf8String) →
    Option (List Utf8String)
  | [], canonical => canonical
  | some .missing :: cells, canonical => uniformObjectKeys cells canonical
  | some (.scalar (.object fields)) :: cells, none =>
      uniformObjectKeys cells (some (fields.map Prod.fst))
  | some (.scalar (.object fields)) :: cells, some canonical =>
      if canonical = fields.map Prod.fst then uniformObjectKeys cells (some canonical) else none
  | _ :: _, _ => none

def dot : Byte := 0x2E

/-- The names a column is flattened to. -/
def flattenedKeys (maxFlattenInnerKeys : ℕ) (spec : FieldSpec) (cells : List (Option CellValue)) :
    Option (List Utf8String) :=
  if dot ∈ spec.name.bytes then none
  else (uniformObjectKeys cells none).filter fun names =>
    !names.isEmpty && names.length ≤ maxFlattenInnerKeys

/-- One field of a cell. -/
def innerCell (name : Utf8String) : CellValue → CellValue
  | .scalar value =>
      match value.get name with
      | some inner => .scalar inner
      | none => .missing
  | _ => .missing

def expandCell : Option (List Utf8String) → CellValue → List CellValue
  | none, cell => [cell]
  | some names, cell => names.map (innerCell · cell)

def expandSpec (spec : FieldSpec) (cells : List (Option CellValue)) :
    Option (List Utf8String) → List FieldSpec
  | none => [spec]
  | some names => names.map fun name =>
      let (typeTag, nullable) :=
        inferTypeTagFromCells (cells.map fun cell => innerCell name (cell.getD .missing))
      ⟨spec.name ++ constant "." ++ name, typeTag, nullable⟩

def flattenUniformNested (maxFlattenInnerKeys : ℕ) (specs : List FieldSpec)
    (rows : List (List CellValue)) : List FieldSpec × List (List CellValue) :=
  let expansions := specs.mapIdx fun index spec =>
    flattenedKeys maxFlattenInnerKeys spec (column rows index)
  ((specs.mapIdx fun index spec =>
      let cells := column rows index
      expandSpec spec cells (flattenedKeys maxFlattenInnerKeys spec cells)).flatten,
    rows.map fun row => (List.zipWith expandCell expansions row).flatten)

/-! ## Tables -/

section

variable {F : Type*} [Float64 F] (config : CompactConfig F)

/-- An array of two or more objects. -/
def isTabular (items : List Value) : Bool := items.all isObject && 2 ≤ items.length

/-- A cell.  Arrays of objects in it are compacted. -/
def cellFromValue (compactInner : List Value → Compaction) (value : Value) : CellValue :=
  match classifyCell config.classify value, value with
  | .jsonArray, .array items =>
      if isTabular items then .nested (compactInner items) else .scalar value
  | .stringifiedJson (.array items), _ =>
      if isTabular items then .nested (compactInner items) else .scalar (.array items)
  | .stringifiedJson parsed, _ => .scalar parsed
  | .opaqueBlob kind, .string text => .opaqueRef (hashOpaque text) text.bytes.length kind
  | _, _ => .scalar value

def buildRow (compactInner : List Value → Compaction) (names : List Utf8String)
    (item : Value) : List CellValue :=
  names.map fun name =>
    match item.get name with
    | some value => cellFromValue config compactInner value
    | none => .missing

def fieldSpec (items : List Value) (keyFreqs : List (Utf8String × ℕ)) (name : Utf8String) :
    FieldSpec where
  name := name
  typeTag := inferTypeTag items name
  nullable :=
    decide (((keyFreqs.find? fun found => found.1 = name).elim 0 Prod.snd) < items.length) ||
      items.any fun item => (item.get name).any Value.isNull

def buildHomogeneousTable (compactInner : List Value → Compaction) (items : List Value)
    (keyFreqs : List (Utf8String × ℕ)) : Compaction :=
  let names := orderedKeys keyFreqs
  let (specs, rows) := flattenUniformNested config.maxFlattenInnerKeys
    (names.map (fieldSpec items keyFreqs)) (items.map (buildRow config compactInner names))
  .table specs rows items.length

/-! ## Buckets -/

/-- How many buckets a field makes, if it can tell the rows apart. -/
def discriminatorScore (items : List Value) (name : Utf8String) : Option ℕ :=
  let values := items.filterMap fun item => (item.get name).bind Value.asStr
  if values.length < items.length then none
  else
    let count := values.dedup.length
    if count < config.minBuckets ∨ config.maxBuckets < count then none
    else if Float64.lt (0.7 : F)
        (Float64.div (Float64.ofNat count) (Float64.ofNat items.length)) then none
    else some count

/-- The field that makes most buckets, the first of those that make as many. -/
def detectDiscriminator (items : List Value) (keyFreqs : List (Utf8String × ℕ)) :
    Option Utf8String :=
  let best := keyFreqs.foldl (fun best found =>
    if found.2 < items.length then best
    else
      match discriminatorScore config items found.1, best with
      | some count, none => some (found.1, count)
      | some count, some (_, most) => if most < count then some (found.1, count) else best
      | none, _ => best) none
  best.map Prod.fst

def bucketKey (discriminator : Utf8String) (item : Value) : Utf8String :=
  ((item.get discriminator).bind Value.asStr).getD (constant "__missing__")

def bucketOf (key : Utf8String) (items : List Value) : Compaction → Bucket
  | .table schema rows _ => .mk (.string key) schema rows
  | _ => .mk (.string key) [⟨constant "value", .json, false⟩] (items.map fun item => [.scalar item])

def groupKeys (items : List Value) (discriminator : Utf8String) : List Utf8String :=
  (items.map (bucketKey discriminator)).dedup.insertionSort TextLe

def groupItems (items : List Value) (discriminator key : Utf8String) : List Value :=
  items.filter fun item => bucketKey discriminator item = key

def bucketBy (compactInner : List Value → Compaction) (items : List Value)
    (discriminator : Utf8String) : Compaction :=
  .buckets discriminator
    ((groupKeys items discriminator).map fun key =>
      let group := groupItems items discriminator key
      bucketOf key group (compactInner group))
    items.length

/-! ## Compaction -/

/-- Too few of the fields are in most of the rows. -/
def isHeterogeneous (items : List Value) (keyFreqs : List (Utf8String × ℕ)) : Bool :=
  let coreThreshold := Float64.toUsize
    (Float64.ceil (Float64.mul (Float64.ofNat items.length) config.coreFieldFraction))
  let coreCount := keyFreqs.countP fun found => coreThreshold ≤ found.2
  let coreRatio : F :=
    if keyFreqs.length = 0 then Float64.ofNat 1
    else Float64.div (Float64.ofNat coreCount) (Float64.ofNat keyFreqs.length)
  Float64.lt coreRatio config.heterogeneousCoreRatio

/-- Each call is made with less fuel. -/
def compactInner : ℕ → List Value → Compaction
  | 0, items => .untouched (.array items)
  | fuel + 1, items =>
      if items.length < config.minItems ∨ items.all isObject = false then
        .untouched (.array items)
      else
        let keyFreqs := computeKeyFreqs items
        let discriminator :=
          if isHeterogeneous config items keyFreqs then detectDiscriminator config items keyFreqs
          else none
        match discriminator with
        | some name => bucketBy (compactInner fuel) items name
        | none => buildHomogeneousTable config (compactInner fuel) items keyFreqs

def compact (items : List Value) : Compaction :=
  compactInner config ((items.map Value.weight).sum + 1) items

end

end Legroom.SmartCrusher
