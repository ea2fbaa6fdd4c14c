import Legroom.Lib.Bytes
import Mathlib.Data.Rat.Sqrt

/-!
# Floating-point arithmetic

Thresholds and statistics are computed in `f64`.  The arithmetic is a parameter,
so what is proved holds for every rounding; only the operations that the source
applies are named.
-/

namespace Legroom

class Float64 (F : Type*) extends OfScientific F where
  /-- `as f64` on a `usize`. -/
  ofNat : ℕ → F
  /-- `as_f64` on a number that is kept as text. -/
  parse : Bytes → Option F
  add : F → F → F
  sub : F → F → F
  mul : F → F → F
  div : F → F → F
  abs : F → F
  sqrt : F → F
  ceil : F → F
  roundTiesEven : F → F
  /-- `as usize`. -/
  toUsize : F → ℕ
  lt : F → F → Bool
  le : F → F → Bool
  isFinite : F → Bool

namespace Float64

variable {F : Type*} [Float64 F]

def sum (values : List F) : F := values.foldl add (ofNat 0)

def mean (values : List F) : Option F :=
  if values.isEmpty then none
  else
    let quotient := div (sum values) (ofNat values.length)
    if isFinite quotient then some quotient else none

def sampleVariance (values : List F) : Option F :=
  if values.length < 2 then none
  else
    (mean values).bind fun center =>
      let squares := values.map fun value => mul (sub value center) (sub value center)
      let variance := div (sum squares) (ofNat (values.length - 1))
      if isFinite variance then some variance else none

def sampleStdev (values : List F) : Option F := (sampleVariance values).map sqrt

/-! ## Fractions -/

/-- The digits, the fraction and the exponent of a JSON number. -/
def parseFraction (bytes : Bytes) : ℚ :=
  let digits := fun (bytes : Bytes) =>
    bytes.foldl (fun (number : ℕ) digit => 10 * number + (digit.toNat - 48)) 0
  let (mantissa, exponent) := (bytes.dropWhile (· = 0x2D)).span fun byte =>
    byte ≠ 0x65 ∧ byte ≠ 0x45
  let (whole, fraction) := mantissa.span (· ≠ 0x2E)
  let fraction := fraction.drop 1
  let power : ℕ := 10 ^ digits (exponent.filter fun byte => 0x30 ≤ byte ∧ byte ≤ 0x39)
  let value : ℚ := digits (whole ++ fraction) / (10 ^ fraction.length : ℕ)
  let scaled := if 0x2D ∈ exponent then value / power else value * power
  if 0x2D ∈ bytes.take 1 then -scaled else scaled

def roundFraction (value : ℚ) : ℚ :=
  let rest := value - value.floor
  if rest < 1 / 2 ∨ rest = 1 / 2 ∧ value.floor % 2 = 0 then value.floor else value.floor + 1

/-- Arithmetic that never rounds.  It is `f64` on small whole numbers and their
quotients, as far as these are compared and rounded to whole numbers. -/
instance : Float64 ℚ where
  ofNat := Nat.cast
  parse := fun bytes => some (parseFraction bytes)
  add := (· + ·)
  sub := (· - ·)
  mul := (· * ·)
  div := (· / ·)
  abs := fun value => max value (-value)
  sqrt := Rat.sqrt
  ceil := fun value => value.ceil
  roundTiesEven := roundFraction
  toUsize := fun value => value.floor.toNat
  lt := fun left right => left < right
  le := fun left right => left ≤ right
  isFinite := fun _ => true

end Float64

end Legroom
