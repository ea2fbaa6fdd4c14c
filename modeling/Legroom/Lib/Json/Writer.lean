import Legroom.Lib.Json.Value
import Mathlib.Data.List.TakeWhile

/-!
# Writing values

Values are compared up to the order of object fields, and written in the formats
of `json.dumps` and of `serde_json::to_string`.
-/

namespace Legroom.Json

open Utf8

namespace Value

mutual

/-- `==` of parsed values.  Objects are maps. -/
def same : Value → Value → Bool
  | .null, .null => true
  | .bool left, .bool right => left == right
  | .number left, .number right => left == right
  | .string left, .string right => left == right
  | .array left, .array right => sameElements left right
  | .object left, .object right => left.length == right.length && sameFields left right
  | _, _ => false

def sameElements : List Value → List Value → Bool
  | [], [] => true
  | left :: lefts, right :: rights => left.same right && sameElements lefts rights
  | _, _ => false

/-- Every field on the left is on the right. -/
def sameFields : List (Utf8String × Value) → List (Utf8String × Value) → Bool
  | [], _ => true
  | (name, value) :: fields, rights =>
      (match rights.find? fun field => field.1 = name with
        | some field => value.same field.2
        | none => false) && sameFields fields rights

end

end Value

/-! ## Formats -/

structure JsonFmt where
  sortKeys : Bool
  compact : Bool
  ensureAscii : Bool

/-- Four hexadecimal digits behind `\u`. -/
def unicodeEscape (code : ℕ) : Bytes :=
  [backslash, letterU, hexDigit (code / 4096 % 16), hexDigit (code / 256 % 16),
    hexDigit (code / 16 % 16), hexDigit (code % 16)]

/-- A character in ASCII. -/
def asciiEscape (code : ℕ) : Bytes :=
  if code ≤ 0x7E then escapeByte (UInt8.ofNat code)
  else if code ≤ 0xFFFF then unicodeEscape code
  else
    unicodeEscape (0xD800 + (code - 0x10000) / 1024) ++
      unicodeEscape (0xDC00 + (code - 0x10000) % 1024)

theorem hexDigit_lt (value : ℕ) : hexDigit (value % 16) < 0x80 := by
  have hall : ∀ digit < 16, hexDigit digit < 0x80 := by decide
  exact hall _ (Nat.mod_lt _ (by decide))

def hexByte (byte : Byte) : Bytes :=
  [hexDigit (byte.toNat / 16 % 16), hexDigit (byte.toNat % 16)]

/-- The first bytes in hexadecimal. -/
def hexPrefix (bytes : Bytes) (size : ℕ) : Utf8String where
  bytes := (bytes.take size).flatMap hexByte
  valid := valid_of_ascii fun byte hbyte => by
    obtain ⟨source, -, hwritten⟩ := List.mem_flatMap.mp hbyte
    rcases List.mem_pair.mp hwritten with rfl | rfl <;> exact hexDigit_lt _

theorem unicodeEscape_lt (code : ℕ) : ∀ byte ∈ unicodeEscape code, byte < 0x80 := by
  intro byte hbyte
  simp only [unicodeEscape, List.mem_cons, List.not_mem_nil, or_false] at hbyte
  rcases hbyte with rfl | rfl | rfl | rfl | rfl | rfl
  · decide
  · decide
  all_goals exact hexDigit_lt _

theorem asciiEscape_lt (code : ℕ) : ∀ byte ∈ asciiEscape code, byte < 0x80 := by
  rw [asciiEscape]
  split_ifs with hascii hbasic
  · refine (escapeByte_reads _).2.2 ?_
    rw [UInt8.lt_iff_toNat_lt, UInt8.toNat_ofNat']
    show _ < 128
    omega
  · exact unicodeEscape_lt code
  · intro byte hbyte
    rcases List.mem_append.mp hbyte with hbyte | hbyte
    · exact unicodeEscape_lt _ byte hbyte
    · exact unicodeEscape_lt _ byte hbyte

/-- The characters of a text in ASCII. -/
def asciiText (text : Utf8String) : Utf8String where
  bytes := (chars text.bytes).flatMap fun char => asciiEscape (codePoint char)
  valid := valid_of_ascii fun byte hbyte => by
    obtain ⟨char, _, hwritten⟩ := List.mem_flatMap.mp hbyte
    exact asciiEscape_lt _ byte hwritten

def StringLit.utf8 (lit : StringLit) : Utf8String := ⟨lit.bytes, lit.valid_bytes⟩

/-- `write_python_json_string`.  With other characters allowed it escapes what
`serde_json` escapes. -/
def pythonString (text : Utf8String) (ensureAscii : Bool) : Utf8String :=
  if ensureAscii then constant "\"" ++ asciiText text ++ constant "\""
  else (quote text).utf8

def Atom.utf8 (token : Atom) : Utf8String :=
  ⟨token.bytes, valid_of_ascii fun byte hbyte => lt_of_isAtomByte (token.all byte hbyte)⟩

/-! ## Numbers -/

/-- No number but zero begins with a zero. -/
theorem head_decimal {value : ℕ} (hvalue : 0 < value) :
    ∃ first rest, decimal value = first :: rest ∧ first ≠ 0x30 := by
  induction value using Nat.strong_induction_on with
  | _ value ih =>
      by_cases hsmall : value < 10
      · have hall : ∀ digit < 10, 0 < digit → UInt8.ofNat digit.digitChar.toNat ≠ 0x30 := by decide
        refine ⟨_, [], ?_, hall value hsmall hvalue⟩
        rw [decimal, Nat.toDigits_of_lt_base hsmall]
        rfl
      · obtain ⟨first, rest, hrest, hfirst⟩ := ih (value / 10) (by omega) (by omega)
        refine ⟨first, rest ++ [UInt8.ofNat (value % 10).digitChar.toNat], ?_, hfirst⟩
        rw [← List.cons_append, ← hrest, decimal, decimal,
          Nat.toDigits_of_base_le (by decide) (Nat.le_of_not_lt hsmall), List.map_append]
        rfl

theorem isAtom_decimal (value : ℕ) : isAtom (decimal value) = true := by
  have hdigits : ∀ byte ∈ decimal value, isDigit byte = true := fun byte hbyte => by
    have hdigit := digit_of_mem_decimal hbyte
    rw [isDigit, decide_eq_true hdigit.1, decide_eq_true hdigit.2]
    rfl
  have hatoms : (decimal value).all isAtomByte = true := by
    refine List.all_eq_true.mpr fun byte hbyte => ?_
    rw [isAtomByte, hdigits byte hbyte]
    rfl
  have hnumber : isNumber (decimal value) = true := by
    rcases Nat.eq_zero_or_pos value with rfl | hvalue
    · decide
    · obtain ⟨first, rest, hsplit, hfirst⟩ := head_decimal hvalue
      rw [hsplit] at hdigits ⊢
      obtain ⟨hdigit, hrest⟩ := List.forall_mem_cons.mp hdigits
      have hminus : first ≠ 0x2D := by
        rintro rfl
        exact absurd hdigit (by decide)
      rw [isNumber, if_neg hminus, isUnsigned, if_neg hfirst, hdigit,
        List.dropWhile_eq_nil_iff.mpr hrest]
      rfl
  rw [isAtom, hatoms, hnumber, Bool.or_true]
  rfl
def numberAtom (value : ℕ) : Atom := ⟨decimal value, isAtom_decimal value⟩

/-- Texts with a separator between them. -/
def joined (separator : Utf8String) : List Utf8String → Utf8String
  | [] => constant ""
  | [text] => text
  | text :: texts => text ++ separator ++ joined separator texts

namespace Value

/-- `str` order. -/
def keyLe (left right : Utf8String × Utf8String) : Bool :=
  decide (left.1.bytes ≤ right.1.bytes)

mutual

/-- `write_python_json_inner`. -/
def dumps (fmt : JsonFmt) : Value → Utf8String
  | .null => constant "null"
  | .bool true => constant "true"
  | .bool false => constant "false"
  | .number literal => literal.utf8
  | .string text => pythonString text fmt.ensureAscii
  | .array elements =>
      constant "[" ++
        joined (constant (if fmt.compact then "," else ", ")) (dumpsElements fmt elements) ++
        constant "]"
  | .object fields =>
      let members := dumpsFields fmt fields
      let members := if fmt.sortKeys then members.mergeSort keyLe else members
      constant "\x7b" ++
        joined (constant (if fmt.compact then "," else ", "))
          (members.map fun member => pythonString member.1 fmt.ensureAscii ++
            constant (if fmt.compact then ":" else ": ") ++ member.2) ++
        constant "\x7d"

def dumpsElements (fmt : JsonFmt) : List Value → List Utf8String
  | [] => []
  | value :: values => value.dumps fmt :: dumpsElements fmt values

def dumpsFields (fmt : JsonFmt) :
    List (Utf8String × Value) → List (Utf8String × Utf8String)
  | [] => []
  | (name, value) :: fields => (name, value.dumps fmt) :: dumpsFields fmt fields

end

/-- `python_json_dumps_sort_keys`. -/
def pythonJsonDumpsSortKeys (value : Value) : Utf8String := value.dumps ⟨true, false, true⟩

/-- `python_json_dumps`. -/
def pythonJsonDumps (value : Value) : Utf8String := value.dumps ⟨false, false, true⟩

/-- `python_safe_json_dumps`. -/
def pythonSafeJsonDumps (value : Value) : Utf8String := value.dumps ⟨false, true, false⟩

/-- `serde_json::to_string`, which writes the same bytes. -/
def toJson (value : Value) : Utf8String := value.dumps ⟨false, true, false⟩

end Value

end Legroom.Json

/-!
## Escapes in ASCII

A valid text is a row of characters, each the encoding of its code point.  So a text whose
characters beyond ASCII are written as escapes is read back, byte for byte.
-/

namespace Legroom

namespace Utf8

open Json

/-! ## Characters of valid texts -/

/-- The encoding of a Unicode scalar value. -/
structure IsChar (char : Bytes) : Prop where
  encoded : encodeUtf8 (codePoint char) = char
  isScalar : codePoint char < 0x110000 ∧ ¬(0xD800 ≤ codePoint char ∧ codePoint char ≤ 0xDFFF)
  cut : ∃ first others, char = first :: others ∧ isContinuation first = false ∧
    ∀ byte ∈ others, isContinuation byte = true

variable {bytes : Bytes}

theorem run_owed {low high : Byte} {owed : Owed} (hrun : run ((low, high) :: owed) bytes = some
      []) :
    ∃ byte rest, bytes = byte :: rest ∧ (low.toNat ≤ byte.toNat ∧ byte.toNat ≤ high.toNat) ∧
      run owed rest = some [] := by
  cases bytes with
  | nil => cases hrun
  | cons byte rest =>
      rw [run_cons, step] at hrun
      split_ifs at hrun with hrange
      · exact ⟨byte, rest, rfl, ⟨UInt8.le_iff_toNat_le.mp hrange.1,
          UInt8.le_iff_toNat_le.mp hrange.2⟩, hrun⟩
      · cases hrun

theorem isContinuation_iff {byte : Byte} :
    isContinuation byte = true ↔ 0x80 ≤ byte.toNat ∧ byte.toNat < 0xC0 := by
  rw [isContinuation, Bool.and_eq_true, decide_eq_true_eq, decide_eq_true_eq,
    UInt8.le_iff_toNat_le, UInt8.lt_iff_toNat_lt]
  rfl

theorem isContinuation_eq_false {byte : Byte} (hbyte : byte.toNat < 0x80 ∨ 0xC0 ≤ byte.toNat) :
    isContinuation byte = false := by
  rw [← Bool.not_eq_true, isContinuation_iff]
  omega

variable {first : Byte}

theorem isChar_one (hfirst : first.toNat < 0x80) : IsChar [first] := by
  have hcode : codePoint [first] = first.toNat := rfl
  refine ⟨?_, by omega, first, [], rfl, isContinuation_eq_false (.inl hfirst),
    fun _ hnil => absurd hnil List.not_mem_nil⟩
  rw [hcode, encodeUtf8, if_pos hfirst, UInt8.ofNat_toNat]

variable {second : Byte}

theorem isChar_two (hfirst : 0xC2 ≤ first.toNat ∧ first.toNat ≤ 0xDF)
    (hsecond : 0x80 ≤ second.toNat ∧ second.toNat ≤ 0xBF) : IsChar [first, second] := by
  have hcode : codePoint [first, second] =
      (first.toNat - 0xC0) * 64 + (second.toNat - 0x80) := rfl
  refine ⟨?_, by omega, first, [second], rfl, isContinuation_eq_false (by omega), ?_⟩
  · have hhigh : 0xC0 + codePoint [first, second] / 0x40 = first.toNat := by omega
    have hlow : 0x80 + codePoint [first, second] % 0x40 = second.toNat := by omega
    rw [encodeUtf8, if_neg (by omega), if_pos (by omega), hhigh, hlow, UInt8.ofNat_toNat,
      UInt8.ofNat_toNat]
  · simp only [List.mem_singleton, forall_eq, isContinuation_iff]
    omega

theorem isChar_three {third : Byte} (hfirst : 0xE0 ≤ first.toNat ∧ first.toNat ≤ 0xEF)
    (hsecond : 0x80 ≤ second.toNat ∧ second.toNat ≤ 0xBF)
    (hthird : 0x80 ≤ third.toNat ∧ third.toNat ≤ 0xBF)
    (hlong : first.toNat = 0xE0 → 0xA0 ≤ second.toNat)
    (hsurrogate : first.toNat = 0xED → second.toNat ≤ 0x9F) : IsChar [first, second, third] := by
  have hcode : codePoint [first, second, third] =
      ((first.toNat - 0xE0) * 64 + (second.toNat - 0x80)) * 64 + (third.toNat - 0x80) := rfl
  refine ⟨?_, by omega, first, [second, third], rfl, isContinuation_eq_false (by omega), ?_⟩
  · have hhigh : 0xE0 + codePoint [first, second, third] / 0x1000 = first.toNat := by omega
    have hmiddle : 0x80 + codePoint [first, second, third] / 0x40 % 0x40 = second.toNat := by
      omega
    have hlow : 0x80 + codePoint [first, second, third] % 0x40 = third.toNat := by omega
    rw [encodeUtf8, if_neg (by omega), if_neg (by omega), if_pos (by omega), hhigh, hmiddle,
      hlow, UInt8.ofNat_toNat, UInt8.ofNat_toNat, UInt8.ofNat_toNat]
  · simp only [List.mem_cons, List.not_mem_nil, or_false, forall_eq_or_imp, forall_eq,
      isContinuation_iff]
    omega

theorem isChar_four {third fourth : Byte} (hfirst : 0xF0 ≤ first.toNat ∧ first.toNat ≤ 0xF4)
    (hsecond : 0x80 ≤ second.toNat ∧ second.toNat ≤ 0xBF)
    (hthird : 0x80 ≤ third.toNat ∧ third.toNat ≤ 0xBF)
    (hfourth : 0x80 ≤ fourth.toNat ∧ fourth.toNat ≤ 0xBF)
    (hlong : first.toNat = 0xF0 → 0x90 ≤ second.toNat)
    (hlast : first.toNat = 0xF4 → second.toNat ≤ 0x8F) : IsChar [first, second, third, fourth] := by
  have hcode : codePoint [first, second, third, fourth] =
      (((first.toNat - 0xF0) * 64 + (second.toNat - 0x80)) * 64 +
        (third.toNat - 0x80)) * 64 + (fourth.toNat - 0x80) := rfl
  refine ⟨?_, by omega, first, [second, third, fourth], rfl,
    isContinuation_eq_false (by omega), ?_⟩
  · generalize codePoint [first, second, third, fourth] = code at hcode
    have hhigh : 0xF0 + code / 0x40000 = first.toNat := by omega
    have hupper : 0x80 + code / 0x1000 % 0x40 = second.toNat := by omega
    have hmiddle : 0x80 + code / 0x40 % 0x40 = third.toNat := by omega
    have hlow : 0x80 + code % 0x40 = fourth.toNat := by omega
    rw [encodeUtf8, if_neg (by omega), if_neg (by omega), if_neg (by omega), hhigh, hupper,
      hmiddle, hlow, UInt8.ofNat_toNat, UInt8.ofNat_toNat, UInt8.ofNat_toNat,
      UInt8.ofNat_toNat]
  · simp only [List.mem_cons, List.not_mem_nil, or_false, forall_eq_or_imp, forall_eq,
      isContinuation_iff]
    omega

/-- A valid text begins with a character. -/
theorem Valid.exists_char (hvalid : Valid (first :: bytes)) :
    ∃ char rest, first :: bytes = char ++ rest ∧ IsChar char ∧ Valid rest := by
  rw [Valid, run_cons, step, Option.bind_eq_some_iff] at hvalid
  obtain ⟨owed, hlead, hrun⟩ := hvalid
  rw [lead] at hlead
  split_ifs at hlead with hone htwo hlong hsurrogate hthree hfour hmany hlast
  all_goals cases hlead
  · exact ⟨[first], bytes, rfl, isChar_one (UInt8.lt_iff_toNat_lt.mp hone), hrun⟩
  · obtain ⟨second, rest, rfl, hsecond, hrest⟩ := run_owed hrun
    exact ⟨[first, second], rest, rfl, isChar_two ⟨UInt8.le_iff_toNat_le.mp htwo.1,
      UInt8.le_iff_toNat_le.mp htwo.2⟩ hsecond, hrest⟩
  · obtain ⟨second, more, rfl, hsecond, hmore⟩ := run_owed hrun
    obtain ⟨third, rest, rfl, hthird, hrest⟩ := run_owed hmore
    have hfirst : first.toNat = 0xE0 := congrArg UInt8.toNat hlong
    exact ⟨[first, second, third], rest, rfl, isChar_three (by omega)
      ⟨(by decide : 0x80 ≤ 0xA0).trans hsecond.1, hsecond.2⟩ hthird (fun _ => hsecond.1)
      (by omega), hrest⟩
  · obtain ⟨second, more, rfl, hsecond, hmore⟩ := run_owed hrun
    obtain ⟨third, rest, rfl, hthird, hrest⟩ := run_owed hmore
    have hfirst : first.toNat = 0xED := congrArg UInt8.toNat hsurrogate
    exact ⟨[first, second, third], rest, rfl, isChar_three (by omega)
      ⟨hsecond.1, hsecond.2.trans (by decide)⟩ hthird (by omega) (fun _ => hsecond.2), hrest⟩
  · obtain ⟨second, more, rfl, hsecond, hmore⟩ := run_owed hrun
    obtain ⟨third, rest, rfl, hthird, hrest⟩ := run_owed hmore
    have hfirst : 0xE1 ≤ first.toNat ∧ first.toNat ≤ 0xEF :=
      ⟨UInt8.le_iff_toNat_le.mp hthree.1, UInt8.le_iff_toNat_le.mp hthree.2⟩
    exact ⟨[first, second, third], rest, rfl, isChar_three (by omega) hsecond hthird (by omega)
      (fun heq => absurd (UInt8.toNat_inj.mp heq) hsurrogate), hrest⟩
  · obtain ⟨second, more, rfl, hsecond, hmore⟩ := run_owed hrun
    obtain ⟨third, others, rfl, hthird, hothers⟩ := run_owed hmore
    obtain ⟨fourth, rest, rfl, hfourth, hrest⟩ := run_owed hothers
    have hfirst : first.toNat = 0xF0 := congrArg UInt8.toNat hfour
    exact ⟨[first, second, third, fourth], rest, rfl, isChar_four (by omega)
      ⟨(by decide : 0x80 ≤ 0x90).trans hsecond.1, hsecond.2⟩ hthird hfourth
      (fun _ => hsecond.1) (by omega), hrest⟩
  · obtain ⟨second, more, rfl, hsecond, hmore⟩ := run_owed hrun
    obtain ⟨third, others, rfl, hthird, hothers⟩ := run_owed hmore
    obtain ⟨fourth, rest, rfl, hfourth, hrest⟩ := run_owed hothers
    have hfirst : 0xF1 ≤ first.toNat ∧ first.toNat ≤ 0xF3 :=
      ⟨UInt8.le_iff_toNat_le.mp hmany.1, UInt8.le_iff_toNat_le.mp hmany.2⟩
    exact ⟨[first, second, third, fourth], rest, rfl, isChar_four (by omega) hsecond hthird
      hfourth (by omega) (by omega), hrest⟩
  · obtain ⟨second, more, rfl, hsecond, hmore⟩ := run_owed hrun
    obtain ⟨third, others, rfl, hthird, hothers⟩ := run_owed hmore
    obtain ⟨fourth, rest, rfl, hfourth, hrest⟩ := run_owed hothers
    have hfirst : first.toNat = 0xF4 := congrArg UInt8.toNat hlast
    exact ⟨[first, second, third, fourth], rest, rfl, isChar_four (by omega)
      ⟨hsecond.1, hsecond.2.trans (by decide)⟩ hthird hfourth (by omega)
      (fun _ => hsecond.2), hrest⟩

/-! ## Cutting a valid text -/

theorem foldr_pushByte_continuation {others : Bytes} (cut : Bytes × List Bytes)
    (hothers : ∀ byte ∈ others, isContinuation byte = true) :
    others.foldr pushByte cut = (others ++ cut.1, cut.2) := by
  induction others with
  | nil => rfl
  | cons byte others ih =>
      obtain ⟨hbyte, hothers⟩ := List.forall_mem_cons.mp hothers
      rw [List.foldr_cons, ih hothers, pushByte, if_pos hbyte, List.cons_append]

/-- Cutting a valid text leaves no byte without its character. -/
theorem foldr_pushByte (hvalid : Valid bytes) :
    (bytes.foldr pushByte ([], [])).1 = [] ∧ (chars bytes).flatten = bytes ∧
      ∀ char ∈ chars bytes, IsChar char := by
  induction hsize : bytes.length using Nat.strong_induction_on generalizing bytes with
  | _ size ih =>
      cases bytes with
      | nil => exact ⟨rfl, rfl, fun _ hnil => absurd hnil List.not_mem_nil⟩
      | cons first bytes =>
          obtain ⟨char, rest, hsplit, hchar, hrest⟩ := hvalid.exists_char
          obtain ⟨lead, others, rfl, hlead, hothers⟩ := hchar.cut
          have hshorter : rest.length < size := by
            rw [← hsize, hsplit, List.length_append, List.length_cons]
            omega
          obtain ⟨hnone, hflat, hall⟩ := ih _ hshorter hrest rfl
          have hfold : (first :: bytes).foldr pushByte ([], []) =
              ([], (lead :: others) :: chars rest) := by
            rw [hsplit, List.foldr_append, List.foldr_cons,
              foldr_pushByte_continuation _ hothers, pushByte, hlead, hnone, List.append_nil]
            rfl
          refine ⟨congrArg Prod.fst hfold, ?_, ?_⟩
          · rw [chars, hfold, List.flatten_cons, hflat, hsplit]
          · rw [chars, hfold]
            exact List.forall_mem_cons.mpr ⟨hchar, hall⟩

theorem flatten_chars (hvalid : Valid bytes) : (chars bytes).flatten = bytes :=
  (foldr_pushByte hvalid).2.1

theorem isChar_of_mem_chars {char : Bytes} (hvalid : Valid bytes) (hchar : char ∈ chars bytes) :
    IsChar char :=
  (foldr_pushByte hvalid).2.2 char hchar

end Utf8

namespace Json

open Utf8

/-! ## Escapes in ASCII -/

theorem hexDigit_reads (value : ℕ) :
    hexValue (hexDigit (value % 16)) = some (value % 16) ∧
      isHex (hexDigit (value % 16)) = true := by
  have hall : ∀ digit < 16, hexValue (hexDigit digit) = some digit ∧
      isHex (hexDigit digit) = true := by decide
  exact hall _ (Nat.mod_lt _ (by decide))

theorem scan_unicodeEscape (code : ℕ) : Scan.run .plain (unicodeEscape code) = some .plain := by
  have hslash : Scan.plain.step backslash = some .escape := by decide
  have hletter : Scan.escape.step letterU = some (.hex 3) := by decide
  have hdigit : ∀ left value, (Scan.hex left).step (hexDigit (value % 16)) =
      some (if left = 0 then .plain else .hex (left - 1)) := fun left value => by
    rw [Scan.step, if_pos (hexDigit_reads value).2]
  simp [unicodeEscape, hslash, hletter, hdigit, Scan.run]

variable {code : ℕ} {read : Unescape × Bytes}

/-- The four digits are the number. -/
theorem unescape_digits {high : Option ℕ} (hcode : code < 0x10000)
    (hfinish : Unescape.finish code high = some read) :
    Unescape.run (.hex 3 0 high) [hexDigit (code / 4096 % 16), hexDigit (code / 256 % 16),
      hexDigit (code / 16 % 16), hexDigit (code % 16)] = some read := by
  have hmore : ∀ left value digit (rest : Bytes),
      Unescape.run (.hex left (value * 16 + digit % 16) high) rest = some read →
        Unescape.run (.hex (left + 1) value high) (hexDigit (digit % 16) :: rest) =
          some read := by
    intro left value digit rest hrest
    have hstep : Unescape.run (.hex (left + 1) value high) [hexDigit (digit % 16)] =
        some (.hex left (value * 16 + digit % 16) high, []) := by
      rw [Unescape.run, Unescape.step, (hexDigit_reads digit).1]
      rfl
    exact Unescape.run_append hstep hrest
  have hlast : ∀ value digit, Unescape.run (.hex 0 value high) [hexDigit (digit % 16)] =
      Unescape.finish (value * 16 + digit % 16) high := by
    intro value digit
    rw [Unescape.run, Unescape.step, (hexDigit_reads digit).1]
    cases hfinish : Unescape.finish (value * 16 + digit % 16) high with
    | none => simp [hfinish]
    | some read => simp [hfinish, Unescape.run]
  have hvalue : (((0 * 16 + code / 4096 % 16) * 16 + code / 256 % 16) * 16 +
      code / 16 % 16) * 16 + code % 16 = code := by omega
  refine hmore _ _ _ _ (hmore _ _ _ _ (hmore _ _ _ _ ?_))
  rw [hlast, hvalue, hfinish]

theorem unescape_unicodeEscape (hcode : code < 0x10000)
    (hfinish : Unescape.finish code none = some read) :
    Unescape.run .plain (unicodeEscape code) = some read := by
  have hstart : Unescape.run .plain [backslash, letterU] = some (.hex 3 0 none, []) := by decide
  exact Unescape.run_append hstart (unescape_digits hcode hfinish)

theorem unescape_lowSurrogate {high : ℕ} (hcode : code < 0x10000)
    (hfinish : Unescape.finish code (some high) = some read) :
    Unescape.run (.afterHigh high) (unicodeEscape code) = some read := by
  have hstart : Unescape.run (.afterHigh high) [backslash, letterU] =
      some (.hex 3 0 (some high), []) := by
    simp [Unescape.run, Unescape.step]
  exact Unescape.run_append hstart (unescape_digits hcode hfinish)

theorem finish_high {offset : ℕ} (hoffset : offset < 0x400) :
    Unescape.finish (0xD800 + offset) none = some (.afterHigh (0xD800 + offset), []) := by
  rw [Unescape.finish, if_neg (by omega), if_pos (by omega)]

theorem finish_low {high low : ℕ} (hlow : low < 0x400) :
    Unescape.finish (0xDC00 + low) (some (0xD800 + high)) =
      some (.plain, encodeUtf8 (0x10000 + high * 0x400 + low)) := by
  rw [Unescape.finish, if_pos (by omega), Nat.add_sub_cancel_left, Nat.add_sub_cancel_left]

/-- An escaped character is read as its encoding. -/
theorem asciiEscape_reads (hcode : code < 0x110000 ∧ ¬(0xD800 ≤ code ∧ code ≤ 0xDFFF)) :
    Scan.run .plain (asciiEscape code) = some .plain ∧
      Unescape.run .plain (asciiEscape code) = some (.plain, encodeUtf8 code) := by
  rw [asciiEscape]
  by_cases hascii : code ≤ 0x7E
  · rw [if_pos hascii, encodeUtf8, if_pos (by omega)]
    exact ⟨(escapeByte_reads _).1, (escapeByte_reads _).2.1⟩
  rw [if_neg hascii]
  by_cases hbasic : code ≤ 0xFFFF
  · rw [if_pos hbasic]
    refine ⟨scan_unicodeEscape code, unescape_unicodeEscape (by omega) ?_⟩
    rw [Unescape.finish, if_neg (by omega), if_neg (by omega)]
  · obtain ⟨offset, rfl⟩ : ∃ offset, code = 0x10000 + offset := ⟨code - 0x10000, by omega⟩
    rw [if_neg hbasic, Scan.run_append, scan_unicodeEscape, Nat.add_sub_cancel_left]
    have hread := Unescape.run_append
      (unescape_unicodeEscape (by omega) (finish_high (show offset / 1024 < 0x400 by omega)))
      (unescape_lowSurrogate (by omega)
        (finish_low (Nat.mod_lt offset (by decide : 1024 > 0))))
    rw [List.nil_append, Nat.add_assoc, Nat.div_add_mod'] at hread
    exact ⟨scan_unicodeEscape _, hread⟩

theorem asciiText_reads (text : Utf8String) :
    Scan.run .plain (asciiText text).bytes = some .plain ∧
      Unescape.run .plain (asciiText text).bytes = some (.plain, text.bytes) := by
  have hpieces : ∀ pieces : List Bytes, (∀ char ∈ pieces, IsChar char) →
      Scan.run .plain (pieces.flatMap fun char => asciiEscape (codePoint char)) = some .plain ∧
        Unescape.run .plain (pieces.flatMap fun char => asciiEscape (codePoint char)) =
          some (.plain, pieces.flatten) := by
    intro pieces hpieces
    induction pieces with
    | nil => exact ⟨rfl, rfl⟩
    | cons char pieces ih =>
        obtain ⟨hchar, hpieces⟩ := List.forall_mem_cons.mp hpieces
        obtain ⟨hscan, hread⟩ := asciiEscape_reads hchar.isScalar
        rw [hchar.encoded] at hread
        rw [List.flatMap_cons, Scan.run_append, hscan, List.flatten_cons]
        exact ⟨(ih hpieces).1, Unescape.run_append hread (ih hpieces).2⟩
  have hread := hpieces _ fun char => isChar_of_mem_chars text.valid
  rw [flatten_chars text.valid] at hread
  exact hread

/-- The literal that a text is written as in ASCII. -/
def asciiQuote (text : Utf8String) : StringLit where
  raw := (asciiText text).bytes
  escaped := (asciiText_reads text).1
  valid := (asciiText text).valid

theorem text_asciiQuote (text : Utf8String) : (asciiQuote text).text = some text := by
  simp only [StringLit.text, asciiQuote, (asciiText_reads text).2, fromUtf8_of_valid text.valid]
  rfl

end Json

end Legroom
