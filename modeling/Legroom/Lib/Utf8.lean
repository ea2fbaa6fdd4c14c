import Legroom.Lib.Bytes
import Mathlib.Tactic.Common

/-!
# UTF-8 text

Rust's `str` is a byte string that is known to be valid UTF-8, and
`std::str::from_utf8` is the only door into it.  This file gives the validity
automaton of that function and packages its accepted byte strings as
`Utf8String`, so that a text value cannot hold malformed bytes.  The lemmas
used later all say where a valid text may be cut: in front of an ASCII byte.
-/

namespace Legroom.Utf8

/-- Ranges of the continuation bytes that the current character still owes. -/
abbrev Owed := List (Byte × Byte)

def tail : Byte × Byte := (0x80, 0xBF)

/-- Continuation bytes announced by the first byte of a character. -/
def lead (byte : Byte) : Option Owed :=
  if byte < 0x80 then some []
  else if 0xC2 ≤ byte ∧ byte ≤ 0xDF then some [tail]
  else if byte = 0xE0 then some [(0xA0, 0xBF), tail]
  else if byte = 0xED then some [(0x80, 0x9F), tail]
  else if 0xE1 ≤ byte ∧ byte ≤ 0xEF then some [tail, tail]
  else if byte = 0xF0 then some [(0x90, 0xBF), tail, tail]
  else if 0xF1 ≤ byte ∧ byte ≤ 0xF3 then some [tail, tail, tail]
  else if byte = 0xF4 then some [(0x80, 0x8F), tail, tail]
  else none

def step : Owed → Byte → Option Owed
  | [], byte => lead byte
  | (low, high) :: owed, byte =>
      if low ≤ byte ∧ byte ≤ high then some owed else none

/-- The state after reading `bytes`, or `none` once a byte is refused. -/
def run (owed : Owed) (bytes : Bytes) : Option Owed :=
  bytes.foldlM step owed

/-- Valid UTF-8: every character is complete. -/
def Valid (bytes : Bytes) : Prop :=
  run [] bytes = some []

instance (bytes : Bytes) : Decidable (Valid bytes) :=
  inferInstanceAs (Decidable (run [] bytes = some []))

variable (owed : Owed)

@[simp]
theorem run_nil : run owed [] = some owed := rfl

theorem run_cons (byte : Byte) (bytes : Bytes) :
    run owed (byte :: bytes) = (step owed byte).bind (run · bytes) := rfl

theorem run_append (left right : Bytes) :
    run owed (left ++ right) = (run owed left).bind (run · right) := by
  simp [run, List.foldlM_append]

@[simp]
theorem valid_nil : Valid [] := rfl

theorem Valid.append {left right : Bytes} (hleft : Valid left)
    (hright : Valid right) : Valid (left ++ right) := by
  rw [Valid] at *
  rw [run_append, hleft]
  exact hright

/-! ## Cutting in front of an ASCII byte -/

/-- Every byte still owed is a continuation byte. -/
def Pending (owed : Owed) : Prop :=
  ∀ range ∈ owed, (0x80 : Byte) ≤ range.1

variable {byte : Byte} {owed : Owed}

theorem pending_lead (hlead : lead byte = some owed) : Pending owed := by
  unfold lead at hlead
  split_ifs at hlead <;> cases hlead <;> simp [Pending, tail]

variable {next : Owed}

theorem pending_step (howed : Pending owed) (hstep : step owed byte = some next) :
    Pending next := by
  cases owed with
  | nil => exact pending_lead hstep
  | cons range owed =>
      simp only [step] at hstep
      split_ifs at hstep
      cases hstep
      exact fun range hrange => howed range (List.mem_cons_of_mem _ hrange)

variable {bytes : Bytes}

theorem pending_run (howed : Pending owed) (hrun : run owed bytes = some next) : Pending next := by
  induction bytes generalizing owed with
  | nil =>
      cases hrun
      exact howed
  | cons byte bytes ih =>
      rw [run_cons, Option.bind_eq_some_iff] at hrun
      obtain ⟨middle, hstep, hrest⟩ := hrun
      exact ih (pending_step howed hstep) hrest

theorem step_ascii (hbyte : byte < 0x80) : step [] byte = some [] := by
  simp [step, lead, hbyte]

/-- An ASCII byte is only accepted between characters. -/
theorem eq_nil_of_step_ascii (howed : Pending owed) (hbyte : byte < 0x80)
    (hstep : step owed byte = some next) : owed = [] ∧ next = [] := by
  cases owed with
  | nil =>
      rw [step_ascii hbyte] at hstep
      cases hstep
      exact ⟨rfl, rfl⟩
  | cons range owed =>
      have hlow : (0x80 : Byte) ≤ range.1 := howed range List.mem_cons_self
      simp only [step] at hstep
      split_ifs at hstep with hrange
      exact absurd (UInt8.lt_of_lt_of_le hbyte (UInt8.le_trans hlow hrange.1))
        (UInt8.lt_irrefl byte)

theorem valid_cons_ascii (hbyte : byte < 0x80) (bytes : Bytes) :
    Valid (byte :: bytes) ↔ Valid bytes := by
  rw [Valid, run_cons, step_ascii hbyte]
  rfl

theorem valid_of_ascii (hbytes : ∀ byte ∈ bytes, byte < 0x80) : Valid bytes := by
  induction bytes with
  | nil => exact valid_nil
  | cons byte bytes ih =>
      rw [valid_cons_ascii (hbytes byte List.mem_cons_self)]
      exact ih fun byte hbyte => hbytes byte (List.mem_cons_of_mem _ hbyte)

/-- A valid text cut in front of an ASCII byte leaves two valid texts. -/
theorem Valid.split {left right : Bytes} (hbyte : byte < 0x80)
    (hboth : Valid (left ++ byte :: right)) : Valid left ∧ Valid right := by
  rw [Valid, run_append, Option.bind_eq_some_iff] at hboth
  obtain ⟨owed, hleft, hright⟩ := hboth
  rw [run_cons, Option.bind_eq_some_iff] at hright
  obtain ⟨next, hstep, hrest⟩ := hright
  have howed : Pending owed :=
    pending_run (fun range hrange => by simp at hrange) hleft
  obtain ⟨rfl, rfl⟩ := eq_nil_of_step_ascii howed hbyte hstep
  exact ⟨hleft, hrest⟩

/-- Writing ASCII for ASCII leaves a text valid. -/
theorem run_flatMap {write : Byte → Bytes}
    (hascii : ∀ byte < 0x80, ∀ written ∈ write byte, written < 0x80)
    (hother : ∀ byte, ¬byte < 0x80 → write byte = [byte]) {last : Owed} (howed : Pending owed)
    (hrun : run owed bytes = some last) : run owed (bytes.flatMap write) = some last := by
  induction bytes generalizing owed with
  | nil => exact hrun
  | cons byte bytes ih =>
      rw [run_cons, Option.bind_eq_some_iff] at hrun
      obtain ⟨next, hstep, hrest⟩ := hrun
      rw [List.flatMap_cons, run_append]
      by_cases hbyte : byte < 0x80
      · obtain ⟨rfl, rfl⟩ := eq_nil_of_step_ascii howed hbyte hstep
        have hvalid : Valid (write byte) := valid_of_ascii (hascii byte hbyte)
        rw [Valid] at hvalid
        rw [hvalid]
        exact ih howed hrest
      · rw [hother byte hbyte, run_cons, hstep]
        exact ih (pending_step howed hstep) hrest

/-! ## `std::str::from_utf8` -/

/-- `std::str::Utf8Error`: the length of the longest valid prefix, and the
length of the refused sequence unless the text just ends too early. -/
structure Utf8Error where
  validUpTo : ℕ
  errorLen : Option ℕ
  deriving DecidableEq, Repr

/-- Position and shape of the first malformed sequence; `seen` bytes of the
current character, which starts at `start`, have been accepted. -/
def errorFrom (start seen : ℕ) : Owed → Bytes → Utf8Error
  | _, [] => ⟨start, none⟩
  | owed, byte :: bytes =>
      match step owed byte with
      | none => ⟨start, some (max 1 seen)⟩
      | some [] => errorFrom (start + seen + 1) 0 [] bytes
      | some next => errorFrom start (seen + 1) next bytes

/-- A Rust `String`: bytes together with their UTF-8 validity. -/
structure Utf8String where
  bytes : Bytes
  valid : Valid bytes
  deriving DecidableEq

@[ext]
theorem Utf8String.ext' {left right : Utf8String}
    (hbytes : left.bytes = right.bytes) : left = right := by
  cases left
  cases right
  cases hbytes
  rfl

instance : Append Utf8String where
  append left right := ⟨left.bytes ++ right.bytes, left.valid.append right.valid⟩

@[simp]
theorem Utf8String.bytes_append (left right : Utf8String) :
    (left ++ right).bytes = left.bytes ++ right.bytes := rfl

namespace Utf8String

def empty : Utf8String := ⟨[], valid_nil⟩

instance : Inhabited Utf8String := ⟨empty⟩

variable (text : Utf8String)

@[simp]
theorem append_empty : text ++ empty = text :=
  Utf8String.ext' (List.append_nil text.bytes)

@[simp]
theorem empty_append : empty ++ text = text := rfl

theorem append_assoc (first second third : Utf8String) :
    first ++ second ++ third = first ++ (second ++ third) :=
  Utf8String.ext' (List.append_assoc first.bytes second.bytes third.bytes)

/-- The texts one behind the other. -/
def concat (pieces : List Utf8String) : Utf8String :=
  pieces.foldr (· ++ ·) empty

@[simp]
theorem concat_nil : concat [] = empty := rfl

@[simp]
theorem concat_cons (piece : Utf8String) (pieces : List Utf8String) :
    concat (piece :: pieces) = piece ++ concat pieces := rfl

@[simp]
theorem concat_append (left right : List Utf8String) :
    concat (left ++ right) = concat left ++ concat right := by
  induction left with
  | nil => rfl
  | cons piece left ih => rw [List.cons_append, concat_cons, concat_cons, ih, append_assoc]

/-- `push_str` of a text that may be missing. -/
def pushStr (text : Utf8String) : Option Utf8String → Utf8String
  | some piece => text ++ piece
  | none => text

theorem pushStr_eq (piece : Option Utf8String) :
    text.pushStr piece = text ++ concat piece.toList := by
  cases piece with
  | none => exact (append_empty text).symm
  | some piece => exact congrArg (text ++ ·) (append_empty piece).symm

end Utf8String

/-- A text constant of the source; all of them are ASCII. -/
def constant (text : String) : Utf8String :=
  if hvalid : Valid (ascii text) then ⟨ascii text, hvalid⟩ else ⟨[], valid_nil⟩

def fromUtf8 (bytes : Bytes) : Except Utf8Error Utf8String :=
  if hvalid : Valid bytes then .ok ⟨bytes, hvalid⟩
  else .error (errorFrom 0 0 [] bytes)

theorem fromUtf8_of_valid (hvalid : Valid bytes) : fromUtf8 bytes = .ok ⟨bytes, hvalid⟩ := by
  rw [fromUtf8, dif_pos hvalid]

theorem fromUtf8_eq_ok_iff {text : Utf8String} :
    fromUtf8 bytes = .ok text ↔ text.bytes = bytes := by
  constructor
  · intro hok
    rw [fromUtf8] at hok
    split_ifs at hok
    cases hok
    rfl
  · rintro rfl
    exact fromUtf8_of_valid text.valid

/-! ## `String::from_utf8_lossy` -/

/-- U+FFFD. -/
def replacement : Bytes := [0xEF, 0xBF, 0xBD]

/-- Every malformed sequence becomes one replacement character; `pending` is what has
been read of the current character.  The byte that breaks a character off is read
again as the start of the next one. -/
def lossyFrom : Owed → Bytes → Bytes → Bytes
  | _, pending, [] => if pending = [] then [] else replacement
  | owed, pending, byte :: bytes =>
      match step owed byte with
      | some [] => pending ++ byte :: lossyFrom [] [] bytes
      | some next => lossyFrom next (pending ++ [byte]) bytes
      | none =>
          if pending = [] then replacement ++ lossyFrom [] [] bytes
          else
            match lead byte with
            | some [] => replacement ++ byte :: lossyFrom [] [] bytes
            | some next => replacement ++ lossyFrom next [byte] bytes
            | none => replacement ++ (replacement ++ lossyFrom [] [] bytes)

theorem valid_lossyFrom {pending : Bytes} (bytes : Bytes) (hpending : run [] pending = some owed) :
    Valid (lossyFrom owed pending bytes) := by
  have hreplacement : Valid replacement := by decide
  induction bytes generalizing owed pending with
  | nil =>
      rw [lossyFrom]
      split_ifs
      · exact valid_nil
      · exact hreplacement
  | cons byte bytes ih =>
      have hmore : run [] (pending ++ [byte]) = step owed byte := by
        rw [run_append, hpending]
        simp [run]
      have hlead : run [] [byte] = lead byte := by simp [run, step]
      have hdone : ∀ {front : Bytes}, Valid front →
          Valid (front ++ lossyFrom [] [] bytes) := fun hfront => hfront.append (ih rfl)
      rw [lossyFrom]
      split
      · rename_i hstep
        rw [List.append_cons]
        exact hdone (hmore.trans hstep)
      · rename_i next _ hstep
        exact ih (hmore.trans hstep)
      · split_ifs
        · exact hdone hreplacement
        · split
          · rename_i hbyte
            rw [List.append_cons]
            exact hdone (hreplacement.append (hlead.trans hbyte))
          · rename_i next _ hbyte
            exact hreplacement.append (ih (hlead.trans hbyte))
          · exact hreplacement.append (hdone hreplacement)

def fromUtf8Lossy (bytes : Bytes) : Utf8String :=
  ⟨lossyFrom [] [] bytes, valid_lossyFrom bytes rfl⟩

/-!
## Characters of a text

A text is kept as bytes.  Where the source walks over `char`s, the bytes are cut
in front of every byte that does not continue a character.
-/

/-- A byte behind the first of a character. -/
def isContinuation (byte : Byte) : Bool := 0x80 ≤ byte && byte < 0xC0

/-- Put a byte in front of a text that is cut into characters.  Continuation bytes
wait for their first byte. -/
def pushByte (byte : Byte) (cut : Bytes × List Bytes) : Bytes × List Bytes :=
  if isContinuation byte then (byte :: cut.1, cut.2)
  else ([], (byte :: cut.1) :: cut.2)

/-- The characters of a valid text, each as its bytes. -/
def chars (bytes : Bytes) : List Bytes :=
  (bytes.foldr pushByte ([], [])).2

/-- The code point of a character. -/
def codePoint : Bytes → ℕ
  | [first] => first.toNat
  | [first, second] => (first.toNat - 0xC0) * 64 + (second.toNat - 0x80)
  | [first, second, third] =>
      ((first.toNat - 0xE0) * 64 + (second.toNat - 0x80)) * 64 + (third.toNat - 0x80)
  | [first, second, third, fourth] =>
      (((first.toNat - 0xF0) * 64 + (second.toNat - 0x80)) * 64 +
        (third.toNat - 0x80)) * 64 + (fourth.toNat - 0x80)
  | _ => 0

/-- `char::is_whitespace`. -/
def isWhitespace (char : Bytes) : Bool :=
  let code := codePoint char
  (9 ≤ code && code ≤ 13) || code = 0x20 || code = 0x85 || code = 0xA0 ||
    code = 0x1680 || (0x2000 ≤ code && code ≤ 0x200A) || code = 0x2028 ||
    code = 0x2029 || code = 0x202F || code = 0x205F || code = 0x3000

/-- `str::trim_start`, as bytes. -/
def trimStart (bytes : Bytes) : Bytes :=
  ((chars bytes).dropWhile isWhitespace).flatten

/-- `str::trim`, as bytes. -/
def trim (bytes : Bytes) : Bytes :=
  (((chars bytes).dropWhile isWhitespace).reverse.dropWhile isWhitespace).reverse.flatten

/-- A number as `to_string` writes it. -/
def decimal (value : ℕ) : Bytes :=
  (Nat.toDigits 10 value).map fun digit => UInt8.ofNat digit.toNat

theorem valid_decimal (value : ℕ) : Valid (decimal value) := by
  refine valid_of_ascii fun byte hbyte => ?_
  obtain ⟨digit, hdigit, rfl⟩ := List.mem_map.mp hbyte
  have hisDigit := Nat.isDigit_of_mem_toDigits (by decide) (by decide) hdigit
  have hupper : digit.toNat ≤ 57 := by
    simp only [Char.isDigit, Bool.and_eq_true, decide_eq_true_eq] at hisDigit
    exact hisDigit.2
  rw [UInt8.lt_iff_toNat_lt, UInt8.toNat_ofNat']
  show _ < 128
  omega

theorem digit_of_mem_decimal {value : ℕ} {byte : Byte} (hbyte : byte ∈ decimal value) :
    0x30 ≤ byte ∧ byte ≤ 0x39 := by
  have hall : ∀ code < 58, 48 ≤ code → 0x30 ≤ UInt8.ofNat code ∧ UInt8.ofNat code ≤ 0x39 := by
    decide
  obtain ⟨digit, hdigit, rfl⟩ := List.mem_map.mp hbyte
  have hisDigit := Nat.isDigit_of_mem_toDigits (by decide) (by decide) hdigit
  simp only [Char.isDigit, Bool.and_eq_true, decide_eq_true_eq] at hisDigit
  exact hall digit.toNat (Nat.lt_succ_of_le hisDigit.2) hisDigit.1

/-- No two numbers are written alike. -/
theorem decimal_injective : Function.Injective decimal := by
  intro left right heq
  have hread : ∀ value, (decimal value).map (fun byte => Char.ofNat byte.toNat) =
      Nat.toDigits 10 value := by
    intro value
    rw [decimal, List.map_map]
    refine (List.map_congr_left fun digit hdigit => ?_).trans (List.map_id _)
    have hisDigit := Nat.isDigit_of_mem_toDigits (by decide) (by decide) hdigit
    simp only [Char.isDigit, Bool.and_eq_true, decide_eq_true_eq] at hisDigit
    have hcode : digit.toNat < 256 := lt_of_le_of_lt hisDigit.2 (by decide)
    rw [Function.comp_apply, UInt8.toNat_ofNat', Nat.mod_eq_of_lt hcode, Char.ofNat_toNat]
    rfl
  have hdigits : Nat.toDigits 10 left = Nat.toDigits 10 right := by
    rw [← hread, heq, hread]
  rw [← Nat.ofDigitChars_toDigits (n := left) (b := 10) (by decide) le_rfl, hdigits,
    Nat.ofDigitChars_toDigits (by decide) le_rfl]

/-- A number as a text. -/
def numberText (value : ℕ) : Utf8String := ⟨decimal value, valid_decimal value⟩

end Legroom.Utf8
