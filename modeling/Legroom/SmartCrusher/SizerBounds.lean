import Legroom.SmartCrusher.AdaptiveSizer
import Mathlib.Data.Rat.Floor

/-!
# The bounds of the budget

Beyond eight items the number of items is cut twice, once before the compressor
is asked and once after.  The compressor can only add to the number, and it may
do so for a bias and not for the next larger one.
-/

namespace Legroom.SmartCrusher

open Json Utf8

variable {F : Type*} [Float64 F] (tools : TextTools) (items : List Utf8String)

/-- What is kept before the bias is applied. -/
def kneeOf (F : Type*) [Float64 F] (minK : ℕ) : ℕ :=
  let diversityRatio : F := Float64.div (Float64.ofNat (countUniqueSimhash tools items 3))
    (Float64.ofNat items.length)
  let keepFraction := Float64.add (0.3 : F) (Float64.mul (0.7 : F) diversityRatio)
  let floor := max minK (Float64.toUsize (Float64.mul (Float64.ofNat items.length) keepFraction))
  match findKnee F (computeUniqueBigramCurve tools items) with
  | none => floor
  | some k => if Float64.lt (0.7 : F) diversityRatio then max k floor else k

/-- The number for which the compressor is asked. -/
def biasedK (bias : F) (minK effectiveMax : ℕ) : ℕ :=
  min (max minK (Float64.toUsize (Float64.mul (Float64.ofNat (kneeOf tools items F minK)) bias)))
    effectiveMax

/-- What the compressor makes of it. -/
def validatedK (bias : F) (minK effectiveMax : ℕ) : ℕ :=
  validateWithZlib tools items (biasedK tools items bias minK effectiveMax) effectiveMax (0.15 : F)

theorem computeOptimalK_eq (bias : F) (minK : ℕ) (maxK : Option ℕ) :
    computeOptimalK tools items bias minK maxK =
      if items.length ≤ 8 then items.length
      else if countUniqueSimhash tools items 3 ≤ 3 then
        min (max minK (countUniqueSimhash tools items 3)) (maxK.getD items.length)
      else
        max minK (min (validatedK tools items bias minK (maxK.getD items.length))
          (maxK.getD items.length)) := rfl

/-- Whichever of the two bounds is the larger one, the number is between them. -/
theorem computeOptimalK_between {items : List Utf8String} (hlong : ¬items.length ≤ 8) (bias : F)
    (minK : ℕ) (maxK : Option ℕ) :
    min minK (maxK.getD items.length) ≤ computeOptimalK tools items bias minK maxK ∧
      computeOptimalK tools items bias minK maxK ≤ max minK (maxK.getD items.length) := by
  rw [computeOptimalK_eq, if_neg hlong]
  split_ifs with hunique
  · exact ⟨min_le_min_right _ (le_max_left _ _), (min_le_right _ _).trans (le_max_right _ _)⟩
  · exact ⟨(min_le_left _ _).trans (le_max_left _ _), max_le_max_left _ (min_le_right _ _)⟩

/-! ## In exact arithmetic -/

theorem toUsize_mono {low high : ℚ} (hle : low ≤ high) :
    (Float64.toUsize low : ℕ) ≤ Float64.toUsize high :=
  Int.toNat_le_toNat (Int.floor_mono hle)

theorem biasedK_mono {low high : ℚ} (hle : low ≤ high) (minK effectiveMax : ℕ) :
    biasedK tools items low minK effectiveMax ≤ biasedK tools items high minK effectiveMax := by
  refine min_le_min_right _ (max_le_max_left _ (toUsize_mono ?_))
  exact mul_le_mul_of_nonneg_left hle (Nat.cast_nonneg (α := ℚ) _)

theorem five_toUsize_le (k : ℕ) :
    k ≤ (Float64.toUsize (Float64.mul (Float64.ofNat k : ℚ) 1.2) : ℕ) ∧
      5 * (Float64.toUsize (Float64.mul (Float64.ofNat k : ℚ) 1.2) : ℕ) ≤ 6 * k := by
  have hfloor : (Float64.toUsize (Float64.mul (Float64.ofNat k : ℚ) 1.2) : ℕ) = 6 * k / 5 := by
    have hvalue : (Float64.mul (Float64.ofNat k : ℚ) 1.2 : ℚ) = ((6 * k : ℕ) : ℚ) / (5 : ℕ) := by
      change (k : ℚ) * 1.2 = _
      push_cast
      ring
    rw [hvalue]
    change (⌊((6 * k : ℕ) : ℚ) / (5 : ℕ)⌋).toNat = _
    rw [Rat.floor_natCast_div_natCast]
    omega
  omega

/-- The compressor adds at most a fifth and takes nothing away. -/
theorem validateWithZlib_between (k maxK : ℕ) (tolerance : ℚ) :
    k ≤ validateWithZlib tools items k maxK tolerance ∧
      5 * validateWithZlib tools items k maxK tolerance ≤ 6 * k := by
  obtain ⟨hmore, hfifth⟩ := five_toUsize_le k
  unfold validateWithZlib
  simp only
  split_ifs <;> omega

/-- The number of items to keep is all of up to eight items, and of more items it is
between the two bounds.  A larger bias never costs more than the fifth that the
compressor adds, and nothing if the compressor adds nothing at the smaller one. -/
theorem computeOptimalK_budget (minK : ℕ) (maxK : Option ℕ) {low high : ℚ} (hle : low ≤ high) :
    (items.length ≤ 8 → computeOptimalK tools items low minK maxK = items.length) ∧
    (8 < items.length →
      min minK (maxK.getD items.length) ≤ computeOptimalK tools items low minK maxK ∧
        computeOptimalK tools items low minK maxK ≤ max minK (maxK.getD items.length)) ∧
    5 * computeOptimalK tools items low minK maxK ≤
      6 * computeOptimalK tools items high minK maxK ∧
    (validatedK tools items low minK (maxK.getD items.length) =
        biasedK tools items low minK (maxK.getD items.length) →
      computeOptimalK tools items low minK maxK ≤
        computeOptimalK tools items high minK maxK) := by
  refine ⟨fun hshort => ?_, fun hlong => computeOptimalK_between tools (by omega) low minK maxK,
    ?_, ?_⟩
  · rw [computeOptimalK_eq, if_pos hshort]
  all_goals
    have hbiased := biasedK_mono tools items hle minK (maxK.getD items.length)
    obtain ⟨-, hlow⟩ := validateWithZlib_between tools items
      (biasedK tools items low minK (maxK.getD items.length)) (maxK.getD items.length) 0.15
    obtain ⟨hhigh, -⟩ := validateWithZlib_between tools items
      (biasedK tools items high minK (maxK.getD items.length)) (maxK.getD items.length) 0.15
    rw [← validatedK] at hlow hhigh
    rw [computeOptimalK_eq, computeOptimalK_eq]
    split_ifs <;> omega

/-! ## Where the bounds give way -/

/-- A compressor to which a text of 109 bytes is nothing. -/
def unevenTools : TextTools where
  toLowercase := id
  md5 := id
  zlibCompressedLen := fun bytes => if bytes.length = 109 then 0 else bytes.length

/-- Twenty words of ten equal letters. -/
def twentyWords : List Utf8String :=
  ["aaaaaaaaaa", "bbbbbbbbbb", "cccccccccc", "dddddddddd", "eeeeeeeeee", "ffffffffff",
    "gggggggggg", "hhhhhhhhhh", "iiiiiiiiii", "jjjjjjjjjj", "kkkkkkkkkk", "llllllllll",
    "mmmmmmmmmm", "nnnnnnnnnn", "oooooooooo", "pppppppppp", "qqqqqqqqqq", "rrrrrrrrrr",
    "ssssssssss", "tttttttttt"].map constant

theorem computeOptimalK_budget_words :
    (3 ≤ computeOptimalK unevenTools twentyWords (0.55 : ℚ) 3 none ∧
      computeOptimalK unevenTools twentyWords (0.55 : ℚ) 3 none ≤ 20) ∧
    computeOptimalK unevenTools twentyWords (0.55 : ℚ) 3 none ≤
      computeOptimalK unevenTools twentyWords (0.6 : ℚ) 3 none := by
  obtain ⟨-, hbounds, -, hmono⟩ := computeOptimalK_budget unevenTools twentyWords 3 none
    (show (0.55 : ℚ) ≤ 0.6 by decide +kernel)
  exact ⟨hbounds (by decide), hmono (by decide +kernel)⟩

/-- Two items are kept for a maximum of one, nine equal items fall below the minimum
for the sake of the maximum, twenty items are made forty, and a bias of 0.55 keeps
fewer items than one of 0.5. -/
theorem computeOptimalK_not_bounded :
    ¬computeOptimalK unevenTools (twentyWords.take 2) (1 : ℚ) 0 (some 1) ≤ 1 ∧
    ¬min 5 9 ≤ computeOptimalK unevenTools (List.replicate 9 (constant "a")) (1 : ℚ) 5 (some 1) ∧
    ¬computeOptimalK unevenTools twentyWords (2 : ℚ) 3 (some 100) ≤ twentyWords.length ∧
    ¬computeOptimalK unevenTools twentyWords (0.5 : ℚ) 3 none ≤
      computeOptimalK unevenTools twentyWords (0.55 : ℚ) 3 none := by
  decide +kernel

end Legroom.SmartCrusher
