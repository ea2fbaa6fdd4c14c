import Legroom.Lib.Float64
import Legroom.Lib.Json.Writer
import Legroom.Lib.Digests

/-!
# How many items to keep

The number of items is read off the curve of what every further item adds.  The
digests, the compressor and the case mapping that the source takes from elsewhere
are parameters.
-/

namespace Legroom.SmartCrusher

open Json Utf8

structure TextTools where
  toLowercase : Utf8String → Utf8String
  md5 : Bytes → Bytes
  /-- The length of the `zlib` stream at level 1. -/
  zlibCompressedLen : Bytes → ℕ

section

variable {F : Type*} [Float64 F] (tools : TextTools)

/-! ## Similar items -/

/-- The windows of four characters, or all of a shorter text. -/
def grams (chars : List Bytes) : List Bytes :=
  (List.range (if chars.length ≤ 3 then 1 else chars.length - 3)).map fun start =>
    ((chars.drop start).take 4).flatten

/-- A bit is set if it is set in most of the digests. -/
def simhash (text : Utf8String) : ℕ :=
  let hashes := (grams (chars (tools.toLowercase text).bytes)).map fun gram =>
    fromBe ((tools.md5 gram).take 8)
  ((List.range 64).map fun bit =>
    if hashes.length < 2 * hashes.countP (Nat.testBit · bit) then 2 ^ bit else 0).sum

def hammingDistance (left right : ℕ) : ℕ :=
  (List.range 64).countP fun bit => Nat.testBit (left ^^^ right) bit

/-- The first of every cluster of fingerprints. -/
def simhashClusters (threshold : ℕ) (fingerprints : List ℕ) : List ℕ :=
  fingerprints.foldl (fun clusters fingerprint =>
    if clusters.any fun found => hammingDistance fingerprint found ≤ threshold then clusters
    else clusters ++ [fingerprint]) []

def countUniqueSimhash (items : List Utf8String) (threshold : ℕ) : ℕ :=
  (simhashClusters threshold (items.map (simhash tools))).length

/-! ## The curve -/

def isCjkChar (char : Bytes) : Bool :=
  let code := codePoint char
  (0x3040 ≤ code && code ≤ 0x30FF) || (0x3400 ≤ code && code ≤ 0x4DBF) ||
    (0x4E00 ≤ code && code ≤ 0x9FFF) || (0xAC00 ≤ code && code ≤ 0xD7AF) ||
    (0xF900 ≤ code && code ≤ 0xFAFF)

def splitWhitespace (chars : List Bytes) : List (List Bytes) :=
  (chars.splitOnP isWhitespace).filter (!·.isEmpty)

def neighbours (texts : List Bytes) : List (Bytes × Bytes) := texts.zip texts.tail

def itemBigrams (item : Utf8String) : List (Bytes × Bytes) :=
  match splitWhitespace (chars (tools.toLowercase item).bytes) with
  | [] => [([], [])]
  | [word] =>
      if 2 ≤ word.length ∧ word.any isCjkChar then neighbours word else [(word.flatten, [])]
  | words => neighbours (words.map List.flatten)

/-- How many bigrams there are behind every item, and the bigrams that were seen. -/
def bigramCurveFrom (seen : List (Bytes × Bytes)) : List Utf8String → List ℕ
  | [] => []
  | item :: items =>
      let seen := (itemBigrams tools item).foldl (fun seen bigram => seen.insert bigram) seen
      seen.length :: bigramCurveFrom seen items

def computeUniqueBigramCurve (items : List Utf8String) : List ℕ := bigramCurveFrom tools [] items

/-- Where the curve is furthest above the diagonal. -/
def findKnee (F : Type*) [Float64 F] (curve : List ℕ) : Option ℕ :=
  if curve.length < 3 then none
  else
    let yMin : F := Float64.ofNat (curve.headD 0)
    let yMax : F := Float64.ofNat (curve.getLastD 0)
    if Float64.lt (Float64.abs (Float64.sub yMax yMin)) (2.220446049250313e-16 : F) then some 1
    else
      let xRange : F := Float64.ofNat (curve.length - 1)
      let yRange := Float64.sub yMax yMin
      let (maxDiff, kneeIdx) := curve.zipIdx.foldl (fun (best : F × Option ℕ) (y, index) =>
        let xNorm := Float64.div (Float64.ofNat index) xRange
        let yNorm := Float64.div (Float64.sub (Float64.ofNat y) yMin) yRange
        let diff := Float64.sub yNorm xNorm
        if Float64.lt best.1 diff then (diff, some index) else best)
        (Float64.sub (Float64.ofNat 0) (Float64.ofNat 1), none)
      if Float64.lt maxDiff (0.05 : F) then none else kneeIdx.map (· + 1)

/-! ## The size -/

/-- A fifth more if what is kept compresses differently. -/
def validateWithZlib (items : List Utf8String) (k maxK : ℕ) (tolerance : F) : ℕ :=
  if items.length ≤ k ∨ maxK ≤ k then k
  else
    let fullText := (joined (constant "\n") items).bytes
    let subsetText := (joined (constant "\n") (items.take k)).bytes
    if fullText.length < 200 then k
    else
      let ratio := fun (text : Bytes) =>
        if text.isEmpty then (Float64.ofNat 1 : F)
        else Float64.div (Float64.ofNat (tools.zlibCompressedLen text)) (Float64.ofNat text.length)
      if Float64.lt tolerance (Float64.abs (Float64.sub (ratio fullText) (ratio subsetText))) then
        min (Float64.toUsize (Float64.mul (Float64.ofNat k) (1.2 : F))) maxK
      else k

def computeOptimalK (items : List Utf8String) (bias : F) (minK : ℕ) (maxK : Option ℕ) : ℕ :=
  let n := items.length
  let effectiveMax := maxK.getD n
  if n ≤ 8 then n
  else
    let uniqueCount := countUniqueSimhash tools items 3
    if uniqueCount ≤ 3 then min (max minK uniqueCount) effectiveMax
    else
      let diversityRatio : F := Float64.div (Float64.ofNat uniqueCount) (Float64.ofNat n)
      let keepFraction := Float64.add (0.3 : F) (Float64.mul (0.7 : F) diversityRatio)
      let floor := max minK (Float64.toUsize (Float64.mul (Float64.ofNat n) keepFraction))
      let knee :=
        match findKnee F (computeUniqueBigramCurve tools items) with
        | none => floor
        | some k => if Float64.lt (0.7 : F) diversityRatio then max k floor else k
      let k := max minK (Float64.toUsize (Float64.mul (Float64.ofNat knee) bias))
      let k := validateWithZlib tools items (min k effectiveMax) effectiveMax (0.15 : F)
      max minK (min k effectiveMax)

/-- More than eight items are cut to one of the two bounds. -/
theorem computeOptimalK_le {items : List Utf8String} (hlong : ¬items.length ≤ 8) (bias : F)
    (minK maxK : ℕ) : computeOptimalK tools items bias minK (some maxK) ≤ max minK maxK := by
  rw [computeOptimalK]
  simp only [if_neg hlong, Option.getD_some]
  by_cases hunique : countUniqueSimhash tools items 3 ≤ 3
  · rw [if_pos hunique]
    exact (min_le_right _ maxK).trans (le_max_right minK maxK)
  · rw [if_neg hunique]
    exact max_le_max le_rfl (min_le_right _ maxK)

end

/-- The tools as they are on small letters, without the compressor. -/
def letterCaseTools : TextTools where
  toLowercase := id
  md5 := fun bytes => (Md5.digest bytes).toList
  zlibCompressedLen := fun _ => 0

end Legroom.SmartCrusher
