import Legroom.Lib.Float64
import Legroom.Lib.Python.Value
import Mathlib.Algebra.Order.Floor.Ring
import Mathlib.Algebra.Order.Ring.Rat
import Mathlib.Tactic.FieldSimp
import Mathlib.Tactic.Positivity

/-!
# Amounts of money

Amounts are floats that are added and rounded to six places.  The arithmetic is a
parameter; fractions are one.
-/

namespace Legroom.Python

/-- What is done with floats that are amounts of money. -/
class Money (F : Type*) where
  zero : F
  add : F → F → F
  /-- `round(value, 6)` -/
  round : F → F
  /-- `math.isfinite(value) and value >= 0` -/
  isUsable : F → Bool
  /-- `float(value)`, unless it raises. -/
  ofValue : Value → Option F

/-- What `round` does to amounts that are not negative. -/
class LawfulMoney (F : Type*) [Money F] : Prop where
  isUsable_zero : Money.isUsable (Money.zero : F) = true
  round_zero : Money.round (Money.zero : F) = Money.zero
  isUsable_round : ∀ amount : F, Money.isUsable amount = true →
    Money.isUsable (Money.round amount) = true
  round_round : ∀ amount : F, Money.isUsable amount = true →
    Money.round (Money.round amount) = Money.round amount

/-! ## Fractions -/

instance atLeastTwo_million : (1000000 : ℕ).AtLeastTwo := ⟨by decide⟩

/-- `round(value, 6)` on a fraction. -/
def roundSix (value : ℚ) : ℚ := Float64.roundFraction (value * 1000000) / 1000000

/-- The value of a number. -/
def fractionOfValue : Value → Option ℚ
  | .number number =>
      match number.exact with
      | .finite value => some value
      | _ => none
  | _ => none

instance : Money ℚ where
  zero := 0
  add := (· + ·)
  round := roundSix
  isUsable := fun value => 0 ≤ value
  ofValue := fractionOfValue

theorem roundFraction_intCast (value : ℤ) : Float64.roundFraction value = value := by
  rw [Float64.roundFraction]
  rw [Rat.floor_intCast, sub_self, if_pos (.inl one_half_pos)]

theorem roundFraction_eq_intCast (value : ℚ) :
    ∃ whole : ℤ, Float64.roundFraction value = whole ∧ value.floor ≤ whole := by
  rw [Float64.roundFraction]
  split_ifs
  · exact ⟨value.floor, rfl, le_rfl⟩
  · exact ⟨value.floor + 1, by push_cast; rfl, by omega⟩

theorem roundSix_nonneg {value : ℚ} (hvalue : 0 ≤ value) : 0 ≤ roundSix value := by
  obtain ⟨whole, hwhole, hfloor⟩ := roundFraction_eq_intCast (value * 1000000)
  have hpositive : 0 ≤ (value * 1000000).floor := Rat.le_floor_iff.mpr (by positivity)
  rw [roundSix, hwhole]
  have : (0 : ℚ) ≤ whole := by exact_mod_cast hpositive.trans hfloor
  positivity

theorem roundSix_roundSix (value : ℚ) : roundSix (roundSix value) = roundSix value := by
  obtain ⟨whole, hwhole, -⟩ := roundFraction_eq_intCast (value * 1000000)
  have hcancel : (whole : ℚ) / 1000000 * 1000000 = whole := div_mul_cancel₀ _ (by norm_num)
  rw [roundSix, roundSix, hwhole, hcancel, roundFraction_intCast]

instance : LawfulMoney ℚ where
  isUsable_zero := rfl
  round_zero := by decide +kernel
  isUsable_round := fun _ husable => decide_eq_true (roundSix_nonneg (of_decide_eq_true husable))
  round_round := fun amount _ => roundSix_roundSix amount

/-!
## Dollars with six places

A total that is rounded after every addition is a whole number of millionths.  Prices are
fractions, and what is added is rounded into the total.
-/

/-- An amount with six places, in millionths. -/
@[ext]
structure Usd where
  micros : ℕ
deriving DecidableEq

namespace Usd

def value (amount : Usd) : ℚ≥0 := amount.micros / 1000000

/-- `round(value, 6)` -/
def round (value : ℚ≥0) : Usd := ⟨(Float64.roundFraction (value * 1000000)).floor.toNat⟩

instance : Zero Usd := ⟨⟨0⟩⟩
instance : Add Usd := ⟨fun left right => ⟨left.micros + right.micros⟩⟩
/-- What is not below zero. -/
instance : Sub Usd := ⟨fun left right => ⟨left.micros - right.micros⟩⟩
instance : Preorder Usd := Preorder.lift micros

instance : AddCommMonoid Usd where
  add_assoc _ _ _ := Usd.ext (add_assoc _ _ _)
  zero_add _ := Usd.ext (zero_add _)
  add_zero _ := Usd.ext (add_zero _)
  add_comm _ _ := Usd.ext (add_comm _ _)
  nsmul := nsmulRec

@[simp]
theorem micros_add (left right : Usd) : (left + right).micros = left.micros + right.micros := rfl

@[simp]
theorem micros_sub (left right : Usd) : (left - right).micros = left.micros - right.micros := rfl

theorem le_def {left right : Usd} : left ≤ right ↔ left.micros ≤ right.micros := Iff.rfl

theorem value_add (left right : Usd) : (left + right).value = left.value + right.value := by
  rw [value, value, value, micros_add, Nat.cast_add, add_div]

theorem value_sub (left right : Usd) : (left - right).value = left.value - right.value := by
  rw [value, value, value, micros_sub]
  rcases le_total left.micros right.micros with hle | hle
  · have hvalue : (left.micros : ℚ≥0) / 1000000 ≤ right.micros / 1000000 := by
      gcongr
    rw [Nat.sub_eq_zero_of_le hle, tsub_eq_zero_of_le hvalue, Nat.cast_zero, zero_div]
  · refine eq_tsub_of_add_eq ?_
    rw [← add_div, ← Nat.cast_add, Nat.sub_add_cancel hle]

theorem micros_round (value : ℚ≥0) :
    (((round value).micros : ℤ) : ℚ) = Float64.roundFraction (value * 1000000) := by
  obtain ⟨whole, hwhole, hfloor⟩ := roundFraction_eq_intCast ((value : ℚ) * 1000000)
  have hpositive : 0 ≤ ((value : ℚ) * 1000000).floor :=
    Rat.le_floor_iff.mpr (by have := value.coe_nonneg; positivity)
  rw [round, hwhole, Rat.floor_intCast, Int.toNat_of_nonneg (hpositive.trans hfloor)]

theorem value_mul (amount : Usd) : (amount.value : ℚ) * 1000000 = ((amount.micros : ℤ) : ℚ) := by
  rw [value]
  push_cast
  exact div_mul_cancel₀ _ (by norm_num)

/-- A rounded amount stays as it is. -/
@[simp]
theorem round_value (amount : Usd) : round amount.value = amount := by
  refine Usd.ext ?_
  rw [round, value_mul, roundFraction_intCast, Rat.floor_intCast, Int.toNat_natCast]

theorem round_add (left right : Usd) : round (left.value + right.value) = left + right := by
  rw [← value_add, round_value]

/-- Rounding does not go below an amount with six places. -/
theorem le_round {amount : Usd} {value : ℚ≥0} (hle : amount.value ≤ value) :
    amount ≤ round value := by
  obtain ⟨whole, hwhole, hfloor⟩ := roundFraction_eq_intCast ((value : ℚ) * 1000000)
  have hmicros := micros_round value
  rw [hwhole, Int.cast_inj] at hmicros
  have hscaled : ((amount.micros : ℤ) : ℚ) ≤ (value : ℚ) * 1000000 := by
    rw [← value_mul]
    have : (amount.value : ℚ) ≤ value := by exact_mod_cast hle
    gcongr
  have hbelow : (amount.micros : ℤ) ≤ ((value : ℚ) * 1000000).floor := Rat.le_floor_iff.mpr hscaled
  rw [le_def]
  omega

end Usd

end Legroom.Python
