import Mathlib.Algebra.Order.Ring.Nat
import Mathlib.Data.List.Infix
import Mathlib.Tactic.Ring

/-!
# Byte strings

Every wire format of the proxy is read and written byte by byte, so buffers,
chunks and text are lists of bytes here.  This file fixes that representation
together with the big-endian integers that length-prefixed formats use.
-/

namespace Legroom

abbrev Byte := UInt8
abbrev Bytes := List Byte

instance lawful_optionBytes : LawfulBEq (Option Bytes) := inferInstance

/-- The bytes of an ASCII literal. -/
def ascii (text : String) : Bytes :=
  text.toList.map fun char => UInt8.ofNat char.toNat

/-- A literal is cheap to evaluate only once its characters are written out. -/
theorem ascii_ofList {text : String} {chars : List Char} (htext : text = String.ofList chars) :
    ascii text = chars.map fun char => UInt8.ofNat char.toNat := by
  rw [ascii, htext, String.toList_ofList]

namespace Byte

def lf : Byte := 0x0A
def cr : Byte := 0x0D
def space : Byte := 0x20
def colon : Byte := 0x3A

end Byte

/-- `slice[start..stop]`: the bytes from `start` up to `stop`. -/
def sliceRange (bytes : Bytes) (start stop : ℕ) : Bytes :=
  (bytes.take stop).drop start
variable {bytes : Bytes} {start stop : ℕ}

theorem sliceRange_append_left {more : Bytes} (hstop : stop ≤ bytes.length) :
    sliceRange (bytes ++ more) start stop = sliceRange bytes start stop := by
  rw [sliceRange, sliceRange, List.take_append_of_le_length hstop]

/-- A slice of a concatenation that covers exactly the middle part. -/
theorem sliceRange_middle (head middle tail : Bytes) :
    sliceRange (head ++ (middle ++ tail)) head.length
      (head.length + middle.length) = middle := by
  rw [sliceRange, ← List.append_assoc, ← List.length_append,
    List.take_left, List.drop_left]

theorem sliceRange_append_drop (hstart : start ≤ stop) :
    sliceRange bytes start stop ++ bytes.drop stop = bytes.drop start := by
  rw [sliceRange, List.drop_take]
  have hdrop : bytes.drop stop = (bytes.drop start).drop (stop - start) := by
    rw [List.drop_drop, Nat.add_sub_cancel' hstart]
  rw [hdrop, List.take_append_drop]

theorem take_append_sliceRange (hstart : start ≤ stop) :
    bytes.take start ++ sliceRange bytes start stop = bytes.take stop := by
  rw [sliceRange, ← min_eq_left hstart, ← List.take_take, min_eq_left hstart,
    List.take_append_drop]

variable (bytes : Bytes)

@[simp]
theorem length_sliceRange (start stop : ℕ) :
    (sliceRange bytes start stop).length = min stop bytes.length - start := by
  simp [sliceRange]

/-- Big-endian encoding of `value`, truncated to `width` bytes. -/
def toBe : ℕ → ℕ → Bytes
  | 0, _ => []
  | width + 1, value => UInt8.ofNat (value / 256 ^ width) :: toBe width value

/-- Big-endian value of a byte string. -/
def fromBe (bytes : Bytes) : ℕ :=
  bytes.foldl (fun value byte => value * 256 + byte.toNat) 0

@[simp]
theorem length_toBe (width value : ℕ) : (toBe width value).length = width := by
  induction width with
  | zero => rfl
  | succ width ih => simp [toBe, ih]

private theorem foldl_toBe (width value start : ℕ) :
    (toBe width value).foldl (fun acc byte => acc * 256 + byte.toNat) start =
      start * 256 ^ width + value % 256 ^ width := by
  induction width generalizing start with
  | zero => simp [toBe, Nat.mod_one]
  | succ width ih =>
      have hsplit : value % 256 ^ (width + 1) =
          value % 256 ^ width + 256 ^ width * (value / 256 ^ width % 256) := by
        rw [Nat.pow_succ, Nat.mod_mul]
      rw [toBe, List.foldl_cons, ih, UInt8.toNat_ofNat', hsplit]
      ring

/-- Reading back a big-endian field gives its value modulo the field width. -/
theorem fromBe_toBe (width value : ℕ) :
    fromBe (toBe width value) = value % 256 ^ width := by
  rw [fromBe, foldl_toBe]
  simp

theorem fromBe_toBe_of_lt {width value : ℕ} (hvalue : value < 256 ^ width) :
    fromBe (toBe width value) = value := by
  rw [fromBe_toBe, Nat.mod_eq_of_lt hvalue]

private theorem foldl_lt (start : ℕ) :
    bytes.foldl (fun acc byte => acc * 256 + byte.toNat) start <
      (start + 1) * 256 ^ bytes.length := by
  induction bytes generalizing start with
  | nil => simp
  | cons byte bytes ih =>
      have hbyte : start * 256 + byte.toNat + 1 ≤ (start + 1) * 256 := by
        have := byte.toNat_lt
        omega
      calc
        _ < (start * 256 + byte.toNat + 1) * 256 ^ bytes.length := ih _
        _ ≤ (start + 1) * 256 * 256 ^ bytes.length :=
            Nat.mul_le_mul_right _ hbyte
        _ = (start + 1) * 256 ^ (bytes.length + 1) := by ring

theorem fromBe_lt : fromBe bytes < 256 ^ bytes.length := by
  simpa [fromBe] using foldl_lt bytes 0

private theorem le_foldl (start : ℕ) :
    start * 256 ^ bytes.length ≤
      bytes.foldl (fun acc byte => acc * 256 + byte.toNat) start := by
  induction bytes generalizing start with
  | nil => simp
  | cons byte bytes ih =>
      calc
        start * 256 ^ (bytes.length + 1) = start * 256 * 256 ^ bytes.length := by ring
        _ ≤ (start * 256 + byte.toNat) * 256 ^ bytes.length :=
            Nat.mul_le_mul_right _ (Nat.le_add_right _ _)
        _ ≤ _ := ih _

private theorem toBe_foldl (start : ℕ) :
    toBe bytes.length (bytes.foldl (fun acc byte => acc * 256 + byte.toNat) start) = bytes := by
  induction bytes generalizing start with
  | nil => rfl
  | cons byte bytes ih =>
      have hdigit : bytes.foldl (fun acc byte => acc * 256 + byte.toNat)
          (start * 256 + byte.toNat) / 256 ^ bytes.length = start * 256 + byte.toNat :=
        Nat.div_eq_of_lt_le (le_foldl bytes _) (foldl_lt bytes _)
      have hbyte : UInt8.ofNat (start * 256 + byte.toNat) = byte := by
        apply UInt8.toNat_inj.mp
        have hlt := byte.toNat_lt
        rw [UInt8.toNat_ofNat']
        omega
      rw [List.length_cons, List.foldl_cons, toBe, hdigit, hbyte, ih]

/-- A field is the encoding of what is read from it. -/
theorem toBe_fromBe : toBe bytes.length (fromBe bytes) = bytes :=
  toBe_foldl bytes 0

end Legroom
