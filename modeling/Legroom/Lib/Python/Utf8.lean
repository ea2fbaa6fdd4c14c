import Legroom.Lib.Json.Literal
import Legroom.Lib.Python.Text

/-!
# Bytes as texts

Percent-encoded texts and `bytes.decode`.
-/

/-!
## Percent-encoded texts

The bytes of each run of ASCII characters are decoded as UTF-8; what cannot be decoded
is replaced.
-/

namespace Legroom.Python

/-- The bits of the first byte of a character. -/
def leadBits (byte : Byte) : ℕ :=
  if byte < 0xC0 then byte.toNat
  else if byte < 0xE0 then byte.toNat - 0xC0
  else if byte < 0xF0 then byte.toNat - 0xE0
  else byte.toNat - 0xF0

/-- A continuation byte goes on with the last character. -/
def pushByte : List CodePoint → Byte → List CodePoint
  | last :: before, byte =>
      if 0x80 ≤ byte ∧ byte < 0xC0 then
        Fin.ofNat 0x110000 (last.val * 64 + (byte.toNat - 0x80)) :: before
      else Fin.ofNat 0x110000 (leadBits byte) :: last :: before
  | [], byte => [Fin.ofNat 0x110000 (leadBits byte)]

/-- `bytes.decode("utf-8", "replace")` -/
def decodeReplace (bytes : Bytes) : Text :=
  ((Utf8.fromUtf8Lossy bytes).bytes.foldl pushByte []).reverse

def hexValue (char : CodePoint) : Option ℕ :=
  if 0x30 ≤ char ∧ char ≤ 0x39 then some (char.val - 0x30)
  else if 0x41 ≤ char ∧ char ≤ 0x46 then some (char.val - 0x41 + 10)
  else if 0x61 ≤ char ∧ char ≤ 0x66 then some (char.val - 0x61 + 10)
  else none

/-- `unquote_to_bytes` of ASCII characters. -/
def unquoteToBytes : Text → Bytes
  | [] => []
  | char :: high :: low :: chars =>
      if char = codePoint '%' then
        match hexValue high, hexValue low with
        | some high, some low => UInt8.ofNat (16 * high + low) :: unquoteToBytes chars
        | _, _ => UInt8.ofNat char.val :: unquoteToBytes (high :: low :: chars)
      else UInt8.ofNat char.val :: unquoteToBytes (high :: low :: chars)
  | char :: chars => UInt8.ofNat char.val :: unquoteToBytes chars

def isAscii (char : CodePoint) : Bool := char < 0x80

/-- `urllib.parse.unquote` -/
def unquote (quoted : Text) : Text :=
  if codePoint '%' ∈ quoted then
    (quoted.splitBy fun left right => isAscii left = isAscii right).flatMap fun run =>
      if run.all isAscii then decodeReplace (unquoteToBytes run) else run
  else quoted

example : unquote (text "a%20b%c3%a9%zz") = [0x61, 0x20, 0x62, 0xE9, 0x25, 0x7A, 0x7A] := by
  decide

/-!
## Texts as UTF-8

`bytes.decode("utf-8")`.  A valid byte string is the encoding of a text, and an ASCII byte
in it is an ASCII character of the text.
-/

open Utf8

def encodeChar (char : CodePoint) : Bytes := Json.encodeUtf8 char.val

def encode (text : Text) : Bytes := text.flatMap encodeChar

/-- `bytes.decode("utf-8")`, unless it raises. -/
def decodeUtf8 (bytes : Bytes) : Option Text :=
  if Valid bytes then some (bytes.foldl pushByte []).reverse else none

variable (char : CodePoint)

theorem encode_cons (text : Text) : encode (char :: text) = encodeChar char ++ encode text := rfl

theorem encode_append (left right : Text) : encode (left ++ right) = encode left ++ encode right :=
  List.flatMap_append

variable {value : ℕ}

theorem ofNat_eq (byte : Byte) (hvalue : value = byte.toNat) : UInt8.ofNat value = byte := by
  rw [hvalue]
  exact UInt8.ofNat_toNat

theorem encodeChar_ascii {char : CodePoint} (hchar : char.val < 0x80) :
    encodeChar char = [UInt8.ofNat char.val] := if_pos hchar

/-! ## Every valid byte string is an encoding -/

variable {first : Byte}

theorem encode_one (hfirst : first.toNat < 0x80) : Json.encodeUtf8 first.toNat = [first] := by
  rw [Json.encodeUtf8, if_pos hfirst, ofNat_eq first rfl]

variable {second : Byte}

theorem encode_two (hfirst : 0xC2 ≤ first.toNat ∧ first.toNat ≤ 0xDF)
    (hsecond : 0x80 ≤ second.toNat ∧ second.toNat ≤ 0xBF) :
    Json.encodeUtf8 ((first.toNat - 0xC0) * 0x40 + (second.toNat - 0x80)) = [first, second] := by
  rw [Json.encodeUtf8, if_neg (by omega), if_pos (by omega), ofNat_eq first (by omega),
    ofNat_eq second (by omega)]

variable {code : ℕ}

theorem encode_three {third : Byte}
    (hcode : code = ((first.toNat - 0xE0) * 0x40 + (second.toNat - 0x80)) * 0x40 +
      (third.toNat - 0x80))
    (hlow : 0x800 ≤ code) (hfirst : 0xE0 ≤ first.toNat ∧ first.toNat ≤ 0xEF)
    (hsecond : 0x80 ≤ second.toNat ∧ second.toNat ≤ 0xBF)
    (hthird : 0x80 ≤ third.toNat ∧ third.toNat ≤ 0xBF) :
    Json.encodeUtf8 code = [first, second, third] := by
  rw [Json.encodeUtf8, if_neg (by omega), if_neg (by omega), if_pos (by omega),
    ofNat_eq first (by omega), ofNat_eq second (by omega), ofNat_eq third (by omega)]

theorem encode_four {third fourth : Byte}
    (hcode : code = (((first.toNat - 0xF0) * 0x40 + (second.toNat - 0x80)) * 0x40 +
      (third.toNat - 0x80)) * 0x40 + (fourth.toNat - 0x80))
    (hlow : 0x10000 ≤ code) (hfirst : 0xF0 ≤ first.toNat ∧ first.toNat ≤ 0xF4)
    (hsecond : 0x80 ≤ second.toNat ∧ second.toNat ≤ 0xBF)
    (hthird : 0x80 ≤ third.toNat ∧ third.toNat ≤ 0xBF)
    (hfourth : 0x80 ≤ fourth.toNat ∧ fourth.toNat ≤ 0xBF) :
    Json.encodeUtf8 code = [first, second, third, fourth] := by
  rw [Json.encodeUtf8, if_neg (by omega), if_neg (by omega), if_neg (by omega),
    ofNat_eq first (by omega), ofNat_eq second (by omega), ofNat_eq third (by omega),
    ofNat_eq fourth (by omega)]

variable {low high : Byte} {bytes : Bytes}

theorem exists_of_run_cons {owed : Owed} (hrun : run ((low, high) :: owed) bytes = some []) :
    ∃ byte behind, bytes = byte :: behind ∧ (low.toNat ≤ byte.toNat ∧ byte.toNat ≤ high.toNat) ∧
      run owed behind = some [] := by
  cases bytes with
  | nil => cases hrun
  | cons byte behind =>
      rw [run_cons, step] at hrun
      split_ifs at hrun with hrange
      · exact ⟨byte, behind, rfl, hrange, hrun⟩
      · cases hrun

theorem exists_of_run_tail {owed : Owed} (hrun : run (tail :: owed) bytes = some []) :
    ∃ byte behind, bytes = byte :: behind ∧ (0x80 ≤ byte.toNat ∧ byte.toNat ≤ 0xBF) ∧
      run owed behind = some [] :=
  exists_of_run_cons hrun

theorem exists_encodeChar {front behind : Bytes} (hfront : Json.encodeUtf8 code = front)
    (hcode : code < 0x110000) (hbehind : run [] behind = some []) :
    ∃ (char : CodePoint) (rest : Bytes), front ++ behind = encodeChar char ++ rest ∧ Valid rest :=
  ⟨⟨code, hcode⟩, behind, congrArg (· ++ behind) hfront.symm, hbehind⟩

variable {rest : Bytes}

theorem exists_char_two (hfirst : 0xC2 ≤ first.toNat ∧ first.toNat ≤ 0xDF)
    (hrun : run [tail] rest = some []) :
    ∃ (char : CodePoint) (behind : Bytes),
      first :: rest = encodeChar char ++ behind ∧ Valid behind := by
  obtain ⟨second, behind, rfl, hsecond, hbehind⟩ := exists_of_run_tail hrun
  exact exists_encodeChar (encode_two hfirst hsecond) (by omega) hbehind

/-- Three bytes, of which the second is in the range that the first leaves it. -/
theorem exists_char_three (hfirst : 0xE0 ≤ first.toNat ∧ first.toNat ≤ 0xEF)
    (hrange : 0x80 ≤ low.toNat ∧ high.toNat ≤ 0xBF) (hlow : first.toNat = 0xE0 → 0xA0 ≤ low.toNat)
    (hrun : run [(low, high), tail] rest = some []) :
    ∃ (char : CodePoint) (behind : Bytes),
      first :: rest = encodeChar char ++ behind ∧ Valid behind := by
  obtain ⟨second, behind, rfl, hsecond, hrun⟩ := exists_of_run_cons hrun
  obtain ⟨third, behind, rfl, hthird, hbehind⟩ := exists_of_run_tail hrun
  have hmiddle := And.intro (hrange.1.trans hsecond.1) (hsecond.2.trans hrange.2)
  exact exists_encodeChar (encode_three rfl (by omega) hfirst hmiddle hthird) (by omega) hbehind

/-- Four bytes, of which the second is in the range that the first leaves it. -/
theorem exists_char_four (hfirst : 0xF0 ≤ first.toNat ∧ first.toNat ≤ 0xF4)
    (hrange : 0x80 ≤ low.toNat ∧ high.toNat ≤ 0xBF) (hlow : first.toNat = 0xF0 → 0x90 ≤ low.toNat)
    (hhigh : first.toNat = 0xF4 → high.toNat ≤ 0x8F)
    (hrun : run [(low, high), tail, tail] rest = some []) :
    ∃ (char : CodePoint) (behind : Bytes),
      first :: rest = encodeChar char ++ behind ∧ Valid behind := by
  obtain ⟨second, behind, rfl, hsecond, hrun⟩ := exists_of_run_cons hrun
  obtain ⟨third, behind, rfl, hthird, hrun⟩ := exists_of_run_tail hrun
  obtain ⟨fourth, behind, rfl, hfourth, hbehind⟩ := exists_of_run_tail hrun
  have hmiddle := And.intro (hrange.1.trans hsecond.1) (hsecond.2.trans hrange.2)
  exact exists_encodeChar (encode_four rfl (by omega) hfirst hmiddle hthird hfourth) (by omega)
    hbehind

/-- A valid byte string begins with a character. -/
theorem exists_char {byte : Byte} (hvalid : Valid (byte :: rest)) :
    ∃ (char : CodePoint) (behind : Bytes),
      byte :: rest = encodeChar char ++ behind ∧ Valid behind := by
  rw [Valid, run_cons, step, lead] at hvalid
  simp only [UInt8.lt_iff_toNat_lt, UInt8.le_iff_toNat_le, ← UInt8.toNat_inj,
    UInt8.reduceToNat] at hvalid
  split_ifs at hvalid with hone htwo hE0 hED hthree hF0 hfour hF4
  · exact exists_encodeChar (encode_one hone) (by omega) hvalid
  · exact exists_char_two htwo hvalid
  · exact exists_char_three (by omega) (by decide) (fun _ => by decide) hvalid
  · exact exists_char_three (by omega) (by decide) (fun hfirst => by omega) hvalid
  · exact exists_char_three (by omega) (by decide) (fun hfirst => absurd hfirst hE0) hvalid
  · exact exists_char_four (by omega) (by decide) (fun _ => by decide) (fun hfirst => by omega)
      hvalid
  · exact exists_char_four (by omega) (by decide) (fun hfirst => absurd hfirst hF0)
      (fun hfirst => by omega) hvalid
  · exact exists_char_four (by omega) (by decide) (fun hfirst => absurd hfirst hF0)
      (fun _ => by decide) hvalid
  · cases hvalid

theorem encodeChar_ne_nil : encodeChar char ≠ [] := by
  rw [encodeChar, Json.encodeUtf8]
  split_ifs <;> exact List.cons_ne_nil _ _

/-- A valid byte string is the encoding of a text. -/
theorem exists_encode (hvalid : Valid bytes) : ∃ text, encode text = bytes := by
  induction hlength : bytes.length using Nat.strong_induction_on generalizing bytes with
  | _ length ih =>
      subst hlength
      cases bytes with
      | nil => exact ⟨[], rfl⟩
      | cons byte rest =>
          obtain ⟨char, behind, hsplit, hbehind⟩ := exists_char hvalid
          have hshorter : behind.length < (byte :: rest).length := by
            rw [hsplit, List.length_append]
            exact Nat.lt_add_of_pos_left (List.length_pos_of_ne_nil (encodeChar_ne_nil char))
          obtain ⟨text, htext⟩ := ih _ hshorter hbehind rfl
          exact ⟨char :: text, by rw [encode_cons, htext, hsplit]⟩

/-! ## Decoding -/

theorem toNat_ofNat {value : ℕ} (hvalue : value < 0x100) : (UInt8.ofNat value).toNat = value :=
  UInt8.toNat_ofNat_of_lt' hvalue

/-- The first byte of a character begins with its leading bits. -/
theorem pushByte_lead (hvalue : value < 0x100) (hlead : value < 0x80 ∨ 0xC0 ≤ value)
    (before : List CodePoint) :
    pushByte before (UInt8.ofNat value) =
      Fin.ofNat 0x110000 (if value < 0xC0 then value else if value < 0xE0 then value - 0xC0
        else if value < 0xF0 then value - 0xE0 else value - 0xF0) :: before := by
  have hbits : leadBits (UInt8.ofNat value) = if value < 0xC0 then value
      else if value < 0xE0 then value - 0xC0
      else if value < 0xF0 then value - 0xE0 else value - 0xF0 := by
    simp only [leadBits, UInt8.lt_iff_toNat_lt, toNat_ofNat hvalue, UInt8.reduceToNat]
  rw [← hbits]
  cases before with
  | nil => rfl
  | cons last before =>
      have hnot : ¬((0x80 : Byte) ≤ UInt8.ofNat value ∧ UInt8.ofNat value < 0xC0) := by
        simp only [UInt8.le_iff_toNat_le, UInt8.lt_iff_toNat_lt, toNat_ofNat hvalue,
          UInt8.reduceToNat]
        omega
      rw [pushByte, if_neg hnot]

theorem pushByte_tail (hvalue : value < 0x40) (last : CodePoint) (before : List CodePoint) :
    pushByte (last :: before) (UInt8.ofNat (0x80 + value)) =
      Fin.ofNat 0x110000 (last.val * 64 + value) :: before := by
  have hbyte := @toNat_ofNat (0x80 + value) (by omega)
  have hcontinues : (0x80 : Byte) ≤ UInt8.ofNat (0x80 + value) ∧
      UInt8.ofNat (0x80 + value) < 0xC0 := by
    simp only [UInt8.le_iff_toNat_le, UInt8.lt_iff_toNat_lt, hbyte, UInt8.reduceToNat]
    omega
  rw [pushByte, if_pos hcontinues, hbyte, Nat.add_sub_cancel_left]

theorem foldl_pushByte_encodeChar (before : List CodePoint) :
    (encodeChar char).foldl pushByte before = char :: before := by
  have hchar := char.isLt
  have hcode {value : ℕ} (hvalue : value = char.val) : Fin.ofNat 0x110000 value = char :=
    Fin.ext (by rw [Fin.val_ofNat, hvalue]; exact Nat.mod_eq_of_lt hchar)
  rw [encodeChar, Json.encodeUtf8]
  split_ifs with hone htwo hthree
  · rw [List.foldl_cons, List.foldl_nil, pushByte_lead (by omega) (by omega) before, if_pos (by omega),
      hcode rfl]
  · rw [List.foldl_cons, List.foldl_cons, List.foldl_nil, pushByte_lead (by omega) (by omega) before,
      pushByte_tail (by omega), if_neg (by omega), if_pos (by omega), hcode]
    rw [Fin.val_ofNat]
    omega
  · rw [List.foldl_cons, List.foldl_cons, List.foldl_cons, List.foldl_nil,
      pushByte_lead (by omega) (by omega) before, pushByte_tail (by omega), pushByte_tail (by omega),
      if_neg (by omega), if_neg (by omega), if_pos (by omega), hcode]
    rw [Fin.val_ofNat, Fin.val_ofNat]
    omega
  · rw [List.foldl_cons, List.foldl_cons, List.foldl_cons, List.foldl_cons, List.foldl_nil,
      pushByte_lead (by omega) (by omega) before, pushByte_tail (by omega), pushByte_tail (by omega),
      pushByte_tail (by omega), if_neg (by omega), if_neg (by omega), if_neg (by omega), hcode]
    rw [Fin.val_ofNat, Fin.val_ofNat, Fin.val_ofNat]
    omega

theorem foldl_pushByte_encode (text : Text) (before : List CodePoint) :
    (encode text).foldl pushByte before = text.reverse ++ before := by
  induction text generalizing before with
  | nil => rfl
  | cons char text ih =>
      rw [encode_cons, List.foldl_append, foldl_pushByte_encodeChar, ih, List.reverse_cons,
        List.append_assoc, List.singleton_append]

theorem decodeUtf8_encode {text : Text} (hvalid : Valid (encode text)) :
    decodeUtf8 (encode text) = some text := by
  rw [decodeUtf8, if_pos hvalid, foldl_pushByte_encode, List.append_nil, List.reverse_reverse]

theorem encode_injective : Function.Injective encode := by
  intro left right heq
  have hpushed : (encode left).foldl pushByte [] = (encode right).foldl pushByte [] := by
    rw [heq]
  rw [foldl_pushByte_encode, foldl_pushByte_encode, List.append_nil, List.append_nil] at hpushed
  exact List.reverse_injective hpushed

/-! ## ASCII in an encoding -/

/-- The bytes of a character beyond ASCII are beyond ASCII. -/
theorem high_of_mem_encodeChar {char : CodePoint} (hchar : 0x80 ≤ char.val) {byte : Byte}
    (hbyte : byte ∈ encodeChar char) : 0x80 ≤ byte.toNat := by
  have hlt := char.isLt
  have hhigh {value : ℕ} (hvalue : 0x80 ≤ value ∧ value < 0x100) :
      0x80 ≤ (UInt8.ofNat value).toNat := by
    rw [toNat_ofNat hvalue.2]
    exact hvalue.1
  rw [encodeChar, Json.encodeUtf8, if_neg (by omega)] at hbyte
  split_ifs at hbyte with htwo hthree
  · simp only [List.mem_cons, List.not_mem_nil, or_false] at hbyte
    rcases hbyte with rfl | rfl <;> exact hhigh (by omega)
  · simp only [List.mem_cons, List.not_mem_nil, or_false] at hbyte
    rcases hbyte with rfl | rfl | rfl <;> exact hhigh (by omega)
  · simp only [List.mem_cons, List.not_mem_nil, or_false] at hbyte
    rcases hbyte with rfl | rfl | rfl | rfl <;> exact hhigh (by omega)

/-- The character of an ASCII byte. -/
structure AsciiPair (byte : Byte) (char : CodePoint) : Prop where
  ascii : char.val < 0x80
  value : byte.toNat = char.val

namespace AsciiPair

variable {byte : Byte} {char : CodePoint}

theorem encodeChar_eq (hpair : AsciiPair byte char) : encodeChar char = [byte] := by
  rw [encodeChar_ascii hpair.ascii, ofNat_eq byte hpair.value.symm]

/-- Another character has other bytes only. -/
theorem ne_of_mem (hpair : AsciiPair byte char) {other : CodePoint} (hother : other ≠ char)
    {found : Byte} (hfound : found ∈ encodeChar other) : found ≠ byte := by
  rintro rfl
  by_cases hascii : other.val < 0x80
  · rw [encodeChar_ascii hascii, List.mem_singleton] at hfound
    have hvalue := hpair.value
    rw [hfound, toNat_ofNat (by omega)] at hvalue
    exact hother (Fin.ext hvalue)
  · have hhigh := high_of_mem_encodeChar (Nat.le_of_not_lt hascii) hfound
    have hlow := hpair.ascii
    rw [hpair.value] at hhigh
    omega

theorem takeWhile_encode (hpair : AsciiPair byte char) (text : Text) :
    (encode text).takeWhile (· ≠ byte) = encode (text.takeWhile (· ≠ char)) := by
  induction text with
  | nil => rfl
  | cons other text ih =>
      by_cases hother : other = char
      · rw [hother, encode_cons, hpair.encodeChar_eq, List.singleton_append,
          List.takeWhile_cons_of_neg (by simp), List.takeWhile_cons_of_neg (by simp)]
        rfl
      · rw [encode_cons, List.takeWhile_append_of_pos fun found hfound =>
          decide_eq_true (hpair.ne_of_mem hother hfound), ih,
          List.takeWhile_cons_of_pos (by simpa using hother), encode_cons]

theorem dropWhile_encode (hpair : AsciiPair byte char) (text : Text) :
    (encode text).dropWhile (· ≠ byte) = encode (text.dropWhile (· ≠ char)) := by
  induction text with
  | nil => rfl
  | cons other text ih =>
      by_cases hother : other = char
      · rw [hother, encode_cons, hpair.encodeChar_eq, List.singleton_append,
          List.dropWhile_cons_of_neg (by simp), List.dropWhile_cons_of_neg (by simp), encode_cons,
          hpair.encodeChar_eq, List.singleton_append]
      · rw [encode_cons, List.dropWhile_append_of_pos fun found hfound =>
          decide_eq_true (hpair.ne_of_mem hother hfound), ih,
          List.dropWhile_cons_of_pos (by simpa using hother)]

end AsciiPair

end Legroom.Python
