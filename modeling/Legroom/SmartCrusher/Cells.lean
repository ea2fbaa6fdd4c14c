import Legroom.Lib.Float64
import Legroom.Lib.Json.Writer
import Legroom.Lib.Digests

/-!
# Cells and tables

What an array is compacted to, and what becomes of a single value.  A long text
is taken out of the table and leaves a marker with its hash.
-/

namespace Legroom.SmartCrusher

open Json Utf8

inductive OpaqueKind where
  | base64Blob
  | longString
  | htmlChunk
  | other (name : Utf8String)
  deriving DecidableEq

def OpaqueKind.text : OpaqueKind → Utf8String
  | .base64Blob => constant "base64"
  | .longString => constant "string"
  | .htmlChunk => constant "html"
  | .other name => name

inductive TypeTag where
  | int
  | float
  | string
  | bool
  | null
  | json
  deriving DecidableEq

def TypeTag.text : TypeTag → Utf8String
  | .int => constant "int"
  | .float => constant "float"
  | .string => constant "string"
  | .bool => constant "bool"
  | .null => constant "null"
  | .json => constant "json"

structure FieldSpec where
  name : Utf8String
  typeTag : TypeTag
  nullable : Bool
  deriving DecidableEq

mutual

inductive CellValue where
  | scalar (value : Value)
  | nested (sub : Compaction)
  | opaqueRef (ccrHash : Utf8String) (byteSize : ℕ) (kind : OpaqueKind)
  | missing

inductive Bucket where
  | mk (key : Value) (schema : List FieldSpec) (rows : List (List CellValue))

inductive Compaction where
  | table (schema : List FieldSpec) (rows : List (List CellValue)) (originalCount : ℕ)
  | buckets (discriminator : Utf8String) (buckets : List Bucket) (originalCount : ℕ)
  | opaqueRef (ccrHash : Utf8String) (byteSize : ℕ) (kind : OpaqueKind)
  | untouched (value : Value)

end

def Compaction.wasCompacted : Compaction → Bool
  | .untouched _ => false
  | _ => true

/-! ## Classification -/

structure ClassifyConfig (F : Type*) where
  opaqueMinBytes : ℕ
  base64AlphabetRatio : F
  htmlMinOpenBrackets : ℕ
  emitOpaqueMarkers : Bool

inductive CellClass where
  | scalar
  | jsonObject
  | jsonArray
  | stringifiedJson (parsed : Value)
  | opaqueBlob (kind : OpaqueKind)

def isContainer : Value → Bool
  | .array _ => true
  | .object _ => true
  | _ => false

/-- A text that is the JSON of an array or an object. -/
def tryParseJsonContainer (text : Utf8String) : Option Value :=
  match trimStart text.bytes with
  | byte :: _ =>
      if byte = openBrace ∨ byte = openBracket then
        (valueFromSlice text.bytes).filter isContainer
      else none
  | [] => none

def isAsciiAlphabetic (byte : Byte) : Bool :=
  (0x41 ≤ byte && byte ≤ 0x5A) || (0x61 ≤ byte && byte ≤ 0x7A)

def lessThan : Byte := 0x3C
def greaterThan : Byte := 0x3E

/-- `+`, `/`, `=`, `_`, `-`, letters and digits. -/
def isBase64Char (char : Bytes) : Bool :=
  match char with
  | [byte] => isAsciiAlphabetic byte || isDigit byte || byte = 0x2B || byte = 0x2F ||
      byte = 0x3D || byte = 0x5F || byte = 0x2D
  | _ => false

/-- How many `<` have a letter, `/` or `!` behind them. -/
def countTagStarts : Bytes → ℕ
  | byte :: next :: bytes =>
      (if byte = lessThan ∧ (isAsciiAlphabetic next ∨ next = 0x2F ∨ next = 0x21) then 1 else 0) +
        countTagStarts (next :: bytes)
  | _ => 0

def looksLikeHtml (text : Utf8String) (minOpenBrackets : ℕ) : Bool :=
  minOpenBrackets ≤ text.bytes.count lessThan && minOpenBrackets ≤ countTagStarts text.bytes

section

variable {F : Type*} [Float64 F]

def ClassifyConfig.default : ClassifyConfig F := ⟨256, 0.95, 3, true⟩

def looksLikeBase64 (text : Utf8String) (ratioThreshold : F) : Bool :=
  let alphabet := (chars text.bytes).countP isBase64Char
  if text.bytes.length < 64 then false
  else if lessThan ∈ text.bytes ∨ greaterThan ∈ text.bytes then false
  else if (chars text.bytes).any isWhitespace then false
  else if Float64.lt (Float64.div (Float64.ofNat alphabet) (Float64.ofNat text.bytes.length))
      ratioThreshold then false
  else decide (16 ≤ (chars text.bytes).dedup.length)

def opaqueKindOf (config : ClassifyConfig F) (text : Utf8String) : OpaqueKind :=
  if looksLikeBase64 text config.base64AlphabetRatio then .base64Blob
  else if looksLikeHtml text config.htmlMinOpenBrackets then .htmlChunk
  else .longString

def classifyString (config : ClassifyConfig F) (text : Utf8String) : CellClass :=
  match tryParseJsonContainer text with
  | some parsed => .stringifiedJson parsed
  | none =>
      if text.bytes.length ≤ config.opaqueMinBytes ∨ config.emitOpaqueMarkers = false then .scalar
      else .opaqueBlob (opaqueKindOf config text)

def classifyCell (config : ClassifyConfig F) : Value → CellClass
  | .object _ => .jsonObject
  | .array _ => .jsonArray
  | .string text => classifyString config text
  | _ => .scalar

end

/-! ## Markers -/

/-- A quotient with one decimal, a tie to the even digit. -/
def tenths (numerator denominator : ℕ) : Utf8String :=
  let quotient := 10 * numerator / denominator
  let double := 2 * (10 * numerator % denominator)
  let rounded :=
    if double > denominator ∨ double = denominator ∧ quotient % 2 = 1 then quotient + 1
    else quotient
  numberText (rounded / 10) ++ constant "." ++ numberText (rounded % 10)

def humanize (size : ℕ) : Utf8String :=
  if size < 1024 then numberText size ++ constant "B"
  else if size < 1024 * 1024 then tenths size 1024 ++ constant "KB"
  else tenths size (1024 * 1024) ++ constant "MB"

def formatCcrMarker (hash : Utf8String) (byteSize : ℕ) (kind : OpaqueKind) : Utf8String :=
  constant "<<ccr:" ++ hash ++ constant "," ++ kind.text ++ constant "," ++ humanize byteSize ++
    constant ">>"

/-- The first twelve digits of the SHA-256 of a text. -/
def hashOpaque (text : Utf8String) : Utf8String :=
  hexPrefix (Sha256.digest text.bytes).toList 6

end Legroom.SmartCrusher
