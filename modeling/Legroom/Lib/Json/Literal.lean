import Legroom.Lib.Utf8

/-!
# JSON tokens

The tokens of a JSON text as they stand on the wire: white space, the atoms
(`null`, `true`, `false` and numbers) and string literals.  A token is a
structure that carries its own well-formedness, so a syntax tree built from
tokens cannot be malformed.

String literals are read by two automata.  `Scan` finds the closing quote and
accepts every escape that is well formed; `Unescape` also computes the text and
refuses surrogates that do not pair up.
-/

namespace Legroom.Json

open Utf8

def quoteByte : Byte := 0x22
def backslash : Byte := 0x5C
def letterU : Byte := 0x75

variable {rest : Bytes}

/-- A run of bytes of one class, up to a byte of another. -/
theorem span_append {holds : Byte → Bool} {front : Bytes}
    (hfront : ∀ byte ∈ front, holds byte = true) (hrest : ∀ byte ∈ rest.head?, holds byte = false) :
    (front ++ rest).takeWhile holds = front ∧
      (front ++ rest).dropWhile holds = rest := by
  rw [List.takeWhile_append_of_pos hfront, List.dropWhile_append_of_pos hfront]
  cases rest with
  | nil => simp
  | cons byte rest =>
      have hbyte : holds byte = false := hrest byte rfl
      constructor
      · rw [List.takeWhile_cons_of_neg (by simp [hbyte]), List.append_nil]
      · rw [List.dropWhile_cons_of_neg (by simp [hbyte])]

/-! ## White space -/

def isSpace (byte : Byte) : Bool :=
  byte = 0x20 || byte = 0x0A || byte = 0x0D || byte = 0x09

structure Space where
  bytes : Bytes
  blank : bytes.all isSpace = true
  deriving DecidableEq

def Space.empty : Space := ⟨[], rfl⟩

def takeSpace (bytes : Bytes) : Space × Bytes :=
  (⟨bytes.takeWhile isSpace, List.all_takeWhile⟩, bytes.dropWhile isSpace)

/-- A token stands at the front: what follows is no white space. -/
def StartsToken (bytes : Bytes) : Prop :=
  ∀ byte ∈ bytes.head?, isSpace byte = false

theorem takeSpace_eq (bytes : Bytes) :
    bytes = (takeSpace bytes).1.bytes ++ (takeSpace bytes).2 :=
  List.takeWhile_append_dropWhile.symm

theorem takeSpace_append (space : Space) (hrest : StartsToken rest) :
    takeSpace (space.bytes ++ rest) = (space, rest) := by
  have hspan := span_append (List.all_eq_true.mp space.blank) hrest
  simp only [takeSpace, hspan]

/-! ## Atoms -/

def isDigit (byte : Byte) : Bool := 0x30 ≤ byte && byte ≤ 0x39

/-- The bytes that atoms are made of. -/
def isAtomByte (byte : Byte) : Bool :=
  isDigit byte || (0x61 ≤ byte && byte ≤ 0x7A) || byte = 0x45 || byte = 0x2B ||
    byte = 0x2D || byte = 0x2E

def isDigits (bytes : Bytes) : Bool := !bytes.isEmpty && bytes.all isDigit

def isExponent : Bytes → Bool
  | [] => true
  | mark :: bytes =>
      (mark = 0x65 || mark = 0x45) &&
        match bytes with
        | sign :: digits =>
            if sign = 0x2B || sign = 0x2D then isDigits digits
            else isDigits (sign :: digits)
        | [] => false

def isFraction : Bytes → Bool
  | [] => true
  | dot :: bytes =>
      if dot = 0x2E then
        !(bytes.takeWhile isDigit).isEmpty && isExponent (bytes.dropWhile isDigit)
      else isExponent (dot :: bytes)

def isUnsigned : Bytes → Bool
  | [] => false
  | first :: bytes =>
      if first = 0x30 then isFraction bytes
      else isDigit first && isFraction (bytes.dropWhile isDigit)

def isNumber : Bytes → Bool
  | [] => false
  | first :: bytes =>
      if first = 0x2D then isUnsigned bytes else isUnsigned (first :: bytes)

def isAtom (bytes : Bytes) : Bool :=
  bytes.all isAtomByte &&
    (bytes = ascii "null" || bytes = ascii "true" || bytes = ascii "false" ||
      isNumber bytes)

structure Atom where
  bytes : Bytes
  wellFormed : isAtom bytes = true
  deriving DecidableEq

variable (atom : Atom)

theorem Atom.all : ∀ byte ∈ atom.bytes, isAtomByte byte = true := by
  have hwell := atom.wellFormed
  rw [isAtom, Bool.and_eq_true, List.all_eq_true] at hwell
  exact hwell.1

theorem Atom.ne_nil : atom.bytes ≠ [] := by
  intro hnil
  have hwell := atom.wellFormed
  rw [hnil] at hwell
  exact absurd hwell (by decide)

/-- What follows an atom does not continue it. -/
def EndsAtom (bytes : Bytes) : Prop :=
  ∀ byte ∈ bytes.head?, isAtomByte byte = false

def takeAtom (bytes : Bytes) : Option (Atom × Bytes) :=
  if hatom : isAtom (bytes.takeWhile isAtomByte) = true then
    some (⟨bytes.takeWhile isAtomByte, hatom⟩, bytes.dropWhile isAtomByte)
  else none

theorem takeAtom_append (hrest : EndsAtom rest) :
    takeAtom (atom.bytes ++ rest) = some (atom, rest) := by
  have hspan := span_append atom.all hrest
  simp only [takeAtom, hspan, atom.wellFormed, dite_true]

theorem eq_of_takeAtom {bytes : Bytes} {atom : Atom} (htake : takeAtom bytes = some (atom, rest)) :
    bytes = atom.bytes ++ rest := by
  rw [takeAtom] at htake
  split_ifs at htake
  cases htake
  exact List.takeWhile_append_dropWhile.symm

/-! ## String literals -/

def isHex (byte : Byte) : Bool :=
  isDigit byte || (0x61 ≤ byte && byte ≤ 0x66) || (0x41 ≤ byte && byte ≤ 0x46)

/-- The byte that a one-letter escape stands for. -/
def simpleEscape (byte : Byte) : Option Byte :=
  if byte = quoteByte then some quoteByte
  else if byte = backslash then some backslash
  else if byte = 0x2F then some 0x2F
  else if byte = 0x62 then some 0x08
  else if byte = 0x66 then some 0x0C
  else if byte = 0x6E then some 0x0A
  else if byte = 0x72 then some 0x0D
  else if byte = 0x74 then some 0x09
  else none

inductive Scan where
  | plain
  | escape
  /-- Inside `\u`, with one more digit to come than `left`. -/
  | hex (left : ℕ)
  deriving DecidableEq, Repr

namespace Scan

def step : Scan → Byte → Option Scan
  | .plain, byte =>
      if byte = backslash then some .escape
      else if byte < 0x20 ∨ byte = quoteByte then none
      else some .plain
  | .escape, byte =>
      if byte = letterU then some (.hex 3)
      else (simpleEscape byte).map fun _ => .plain
  | .hex left, byte =>
      if isHex byte then some (if left = 0 then .plain else .hex (left - 1)) else none

def run (state : Scan) (bytes : Bytes) : Option Scan :=
  bytes.foldlM step state

theorem run_cons (state : Scan) (byte : Byte) (bytes : Bytes) :
    run state (byte :: bytes) = (step state byte).bind (run · bytes) := rfl

theorem run_append (state : Scan) (left right : Bytes) :
    run state (left ++ right) = (run state left).bind (run · right) := by
  simp [run, List.foldlM_append]

end Scan

/-- The content of a string literal, escapes as written. -/
structure StringLit where
  raw : Bytes
  escaped : Scan.run .plain raw = some .plain
  valid : Valid raw

instance : DecidableEq StringLit := fun left right =>
  decidable_of_iff (left.raw = right.raw) ⟨fun hraw => by cases left; cases right; cases hraw; rfl,
    congrArg StringLit.raw⟩

def StringLit.bytes (lit : StringLit) : Bytes :=
  quoteByte :: (lit.raw ++ [quoteByte])

/-- Read up to the closing quote: the content and what is behind the quote. -/
def scanString : Scan → Bytes → Option (Bytes × Bytes)
  | _, [] => none
  | state, byte :: bytes =>
      if state = .plain ∧ byte = quoteByte then some ([], bytes)
      else do
        let next ← state.step byte
        let (raw, rest) ← scanString next bytes
        return (byte :: raw, rest)

theorem scanString_append {state : Scan} {raw : Bytes} (rest : Bytes)
    (hrun : state.run raw = some .plain) :
    scanString state (raw ++ quoteByte :: rest) = some (raw, rest) := by
  induction raw generalizing state with
  | nil =>
      cases hrun
      rw [List.nil_append, scanString, if_pos ⟨rfl, rfl⟩]
  | cons byte raw ih =>
      rw [Scan.run_cons, Option.bind_eq_some_iff] at hrun
      obtain ⟨next, hstep, hraw⟩ := hrun
      have hopen : ¬(state = .plain ∧ byte = quoteByte) := by
        rintro ⟨rfl, rfl⟩
        have hnone : Scan.plain.step quoteByte = none := by decide
        rw [hnone] at hstep
        cases hstep
      rw [List.cons_append, scanString, if_neg hopen, hstep]
      simp only [bind, Option.bind, ih hraw]
      rfl

theorem of_scanString {state : Scan} {bytes raw : Bytes}
    (hscan : scanString state bytes = some (raw, rest)) :
    bytes = raw ++ quoteByte :: rest ∧ state.run raw = some .plain := by
  induction bytes generalizing state raw with
  | nil => cases hscan
  | cons byte bytes ih =>
      rw [scanString] at hscan
      split_ifs at hscan with hclose
      · cases hscan
        exact ⟨by rw [hclose.2]; rfl, by rw [hclose.1]; rfl⟩
      · simp only [bind, Option.bind_eq_some_iff] at hscan
        obtain ⟨next, hstep, ⟨later, after⟩, hlater, hraw⟩ := hscan
        cases hraw
        obtain ⟨hbytes, hrun⟩ := ih hlater
        exact ⟨by rw [hbytes]; rfl, by rw [Scan.run_cons, hstep]; exact hrun⟩

/-- The literal behind an opening quote. -/
def takeString (bytes : Bytes) : Option (StringLit × Bytes) :=
  match hscan : scanString .plain bytes with
  | some (raw, rest) =>
      if hvalid : Valid raw then some (⟨raw, (of_scanString hscan).2, hvalid⟩, rest)
      else none
  | none => none

theorem takeString_append (lit : StringLit) (rest : Bytes) :
    takeString (lit.raw ++ quoteByte :: rest) = some (lit, rest) := by
  have hscan := scanString_append rest lit.escaped
  rw [takeString]
  split
  · rename_i raw after heq
    rw [hscan] at heq
    cases heq
    rw [dif_pos lit.valid]
  · rename_i heq
    rw [hscan] at heq
    cases heq

theorem eq_of_takeString {bytes : Bytes} {lit : StringLit}
    (htake : takeString bytes = some (lit, rest)) : bytes = lit.raw ++ quoteByte :: rest := by
  rw [takeString] at htake
  split at htake
  · rename_i raw after hscan
    split_ifs at htake
    cases htake
    exact (of_scanString hscan).1
  · cases htake

/-! ## The text of a literal -/

def hexValue (byte : Byte) : Option ℕ :=
  if isDigit byte then some (byte.toNat - 0x30)
  else if 0x61 ≤ byte && byte ≤ 0x66 then some (byte.toNat - 0x57)
  else if 0x41 ≤ byte && byte ≤ 0x46 then some (byte.toNat - 0x37)
  else none

/-- The UTF-8 encoding of a code point. -/
def encodeUtf8 (code : ℕ) : Bytes :=
  if code < 0x80 then [UInt8.ofNat code]
  else if code < 0x800 then
    [UInt8.ofNat (0xC0 + code / 0x40), UInt8.ofNat (0x80 + code % 0x40)]
  else if code < 0x10000 then
    [UInt8.ofNat (0xE0 + code / 0x1000), UInt8.ofNat (0x80 + code / 0x40 % 0x40),
      UInt8.ofNat (0x80 + code % 0x40)]
  else
    [UInt8.ofNat (0xF0 + code / 0x40000), UInt8.ofNat (0x80 + code / 0x1000 % 0x40),
      UInt8.ofNat (0x80 + code / 0x40 % 0x40), UInt8.ofNat (0x80 + code % 0x40)]

inductive Unescape where
  | plain
  | escape
  /-- Inside `\u`, with one more digit to come than `left`; `high` is the high
  surrogate in front, if any. -/
  | hex (left value : ℕ) (high : Option ℕ)
  | afterHigh (high : ℕ)
  | afterHighSlash (high : ℕ)
  deriving DecidableEq, Repr

namespace Unescape

/-- A complete `\uXXXX`.  Surrogates must come in pairs. -/
def finish (value : ℕ) : Option ℕ → Option (Unescape × Bytes)
  | none =>
      if 0xDC00 ≤ value ∧ value ≤ 0xDFFF then none
      else if 0xD800 ≤ value ∧ value ≤ 0xDBFF then some (.afterHigh value, [])
      else some (.plain, encodeUtf8 value)
  | some high =>
      if 0xDC00 ≤ value ∧ value ≤ 0xDFFF then
        some (.plain,
          encodeUtf8 (0x10000 + (high - 0xD800) * 0x400 + (value - 0xDC00)))
      else none

/-- The new state and the bytes of text that one byte completes. -/
def step : Unescape → Byte → Option (Unescape × Bytes)
  | .plain, byte => some (if byte = backslash then (.escape, []) else (.plain, [byte]))
  | .escape, byte =>
      if byte = letterU then some (.hex 3 0 none, [])
      else (simpleEscape byte).map fun text => (.plain, [text])
  | .hex left value high, byte => do
      let digit ← hexValue byte
      let value := value * 16 + digit
      if left = 0 then finish value high else some (.hex (left - 1) value high, [])
  | .afterHigh high, byte =>
      if byte = backslash then some (.afterHighSlash high, []) else none
  | .afterHighSlash high, byte =>
      if byte = letterU then some (.hex 3 0 (some high), []) else none

def run : Unescape → Bytes → Option (Unescape × Bytes)
  | state, [] => some (state, [])
  | state, byte :: bytes => do
      let (next, text) ← state.step byte
      let (last, later) ← run next bytes
      return (last, text ++ later)

/-- What one stretch of a literal contributes to the text. -/
theorem run_append {state middle last : Unescape} {left right text later : Bytes}
    (hleft : state.run left = some (middle, text))
    (hright : middle.run right = some (last, later)) :
    state.run (left ++ right) = some (last, text ++ later) := by
  induction left generalizing state text with
  | nil =>
      cases hleft
      exact hright
  | cons byte left ih =>
      rw [run] at hleft
      simp only [bind, Option.bind_eq_some_iff] at hleft
      obtain ⟨⟨next, front⟩, hstep, ⟨after, back⟩, hrest, htext⟩ := hleft
      cases htext
      rw [List.cons_append, run, hstep]
      simp only [bind, Option.bind, ih hrest]
      rw [List.append_assoc]
      rfl

end Unescape

/-- The text that a literal stands for, if its surrogates pair up. -/
def StringLit.text (lit : StringLit) : Option Utf8String :=
  match Unescape.run .plain lit.raw with
  | some (.plain, bytes) => (fromUtf8 bytes).toOption
  | _ => none

theorem Unescape.run_of_not_mem {bytes : Bytes} (hbytes : backslash ∉ bytes) :
    Unescape.run .plain bytes = some (.plain, bytes) := by
  induction bytes with
  | nil => rfl
  | cons byte bytes ih =>
      rw [List.mem_cons, not_or] at hbytes
      rw [run, step, if_neg fun heq => hbytes.1 heq.symm]
      simp only [bind, Option.bind, ih hbytes.2]
      rfl

/-- A literal without escapes stands for what it is written as. -/
theorem StringLit.text_of_not_mem {lit : StringLit} (hraw : backslash ∉ lit.raw) :
    lit.text = some ⟨lit.raw, lit.valid⟩ := by
  simp only [text, Unescape.run_of_not_mem hraw, fromUtf8_of_valid lit.valid]
  rfl

/-! ## Writing a text as a literal -/

def hexDigit (value : ℕ) : Byte :=
  UInt8.ofNat (if value < 10 then 0x30 + value else 0x57 + value)

/-- One byte of a text between quotes: only the quote, the backslash and the
control characters are escaped. -/
def escapeByte (byte : Byte) : Bytes :=
  if byte = quoteByte then [backslash, quoteByte]
  else if byte = backslash then [backslash, backslash]
  else if byte = 0x08 then [backslash, 0x62]
  else if byte = 0x09 then [backslash, 0x74]
  else if byte = 0x0A then [backslash, 0x6E]
  else if byte = 0x0C then [backslash, 0x66]
  else if byte = 0x0D then [backslash, 0x72]
  else if byte < 0x20 then
    [backslash, letterU, 0x30, 0x30, hexDigit (byte.toNat / 16),
      hexDigit (byte.toNat % 16)]
  else [byte]

/-- Reading one escaped byte gives the byte back. -/
theorem escapeByte_reads (byte : Byte) :
    Scan.run .plain (escapeByte byte) = some .plain ∧
      Unescape.run .plain (escapeByte byte) = some (.plain, [byte]) ∧
      (byte < 0x80 → ∀ written ∈ escapeByte byte, written < 0x80) := by
  have hall : ∀ value < 256,
      Scan.run .plain (escapeByte (UInt8.ofNat value)) = some .plain ∧
      Unescape.run .plain (escapeByte (UInt8.ofNat value)) =
        some (.plain, [UInt8.ofNat value]) ∧
      (UInt8.ofNat value < 0x80 →
        (escapeByte (UInt8.ofNat value)).all (· < 0x80) = true) := by
    decide +kernel
  have hbyte := hall byte.toNat byte.toNat_lt
  rw [UInt8.ofNat_toNat] at hbyte
  exact ⟨hbyte.1, hbyte.2.1, fun hascii => by simpa using hbyte.2.2 hascii⟩

theorem escapeByte_of_not_lt {byte : Byte} (hbyte : ¬byte < 0x80) :
    escapeByte byte = [byte] := by
  have hne : ∀ small : Byte, small < 0x80 → byte ≠ small := by
    rintro small hsmall rfl
    exact hbyte hsmall
  have hlarge : ¬byte < 0x20 := fun hlt =>
    hbyte (UInt8.lt_trans hlt (by decide))
  rw [escapeByte, if_neg (hne _ (by decide)), if_neg (hne _ (by decide)),
    if_neg (hne _ (by decide)), if_neg (hne _ (by decide)), if_neg (hne _ (by decide)),
    if_neg (hne _ (by decide)), if_neg (hne _ (by decide)), if_neg hlarge]

def escapeText (bytes : Bytes) : Bytes :=
  bytes.flatMap escapeByte

theorem run_escapeText (bytes : Bytes) :
    Scan.run .plain (escapeText bytes) = some .plain := by
  induction bytes with
  | nil => rfl
  | cons byte bytes ih =>
      rw [escapeText, List.flatMap_cons, Scan.run_append, (escapeByte_reads byte).1]
      exact ih

theorem unescape_escapeText (bytes : Bytes) :
    Unescape.run .plain (escapeText bytes) = some (.plain, bytes) := by
  induction bytes with
  | nil => rfl
  | cons byte bytes ih =>
      rw [escapeText, List.flatMap_cons]
      exact Unescape.run_append (escapeByte_reads byte).2.1 ih

/-- Escapes are ASCII and stand for ASCII, so they leave UTF-8 valid. -/
theorem utf8_run_escapeText {owed last : Owed} (howed : Pending owed) {bytes : Bytes}
    (hrun : Utf8.run owed bytes = some last) :
    Utf8.run owed (escapeText bytes) = some last :=
  Utf8.run_flatMap (fun byte => (escapeByte_reads byte).2.2)
    (fun _ => escapeByte_of_not_lt) howed hrun

/-- The literal that a text is written as. -/
def quote (text : Utf8String) : StringLit where
  raw := escapeText text.bytes
  escaped := run_escapeText text.bytes
  valid := utf8_run_escapeText (fun range hrange => by simp at hrange) text.valid

/-- A written text reads back. -/
@[simp]
theorem text_quote (text : Utf8String) : (quote text).text = some text := by
  simp only [StringLit.text, quote, unescape_escapeText, fromUtf8_of_valid text.valid]
  rfl

end Legroom.Json
