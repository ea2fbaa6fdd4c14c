import Mathlib.Algebra.Order.Ring.Nat
import Mathlib.Data.List.DropRight

/-!
# Python texts

A `str` is a list of code points.  What the interpreter knows about characters is a
parameter, and a conversion between texts and integers fails beyond a number of digits.
-/

namespace Legroom.Python

abbrev CodePoint := Fin 0x110000

abbrev Text := List CodePoint

instance neZero_codePoints : NeZero 0x110000 := ⟨by decide⟩

instance lawful_codePoint : LawfulBEq CodePoint := inferInstance

instance lawful_text : LawfulBEq Text := inferInstance

def codePoint (char : Char) : CodePoint := Fin.ofNat 0x110000 char.toNat

/-- A text constant of the source. -/
def text (constant : String) : Text := constant.toList.map codePoint

def newline : CodePoint := 0x0A
def tab : CodePoint := 0x09
def colon : CodePoint := 0x3A

structure CharTables where
  /-- `str.isspace` -/
  isSpace : CodePoint → Bool
  /-- `str.isprintable` -/
  isPrintable : CodePoint → Bool
  /-- The value of a decimal digit of any script. -/
  decimal : CodePoint → Option ℕ

/-- The tables as far as ASCII goes. -/
def asciiTables : CharTables where
  isSpace := fun char => (0x09 ≤ char ∧ char ≤ 0x0D) ∨ (0x1C ≤ char ∧ char ≤ 0x20)
  isPrintable := fun char => 0x20 ≤ char ∧ char ≤ 0x7E
  decimal := fun char => if 0x30 ≤ char ∧ char ≤ 0x39 then some (char.val - 0x30) else none

/-- `str.lower` as far as ASCII goes. -/
def asciiLower (text : Text) : Text :=
  text.map fun char => if 0x41 ≤ char ∧ char ≤ 0x5A then char + 0x20 else char

/-! ## Lines -/

/-- `split("\n")` -/
def splitLines (text : Text) : List Text := text.splitOn newline

/-- `"\n".join` -/
def joinLines (lines : List Text) : Text := [newline].intercalate lines

theorem newline_not_mem_splitLines {text line : Text} (hline : line ∈ splitLines text) :
    newline ∉ line := by
  induction text generalizing line with
  | nil =>
      rw [splitLines, List.splitOn_nil, List.mem_singleton] at hline
      rw [hline]
      exact List.not_mem_nil
  | cons char text ih =>
      rw [splitLines, List.splitOn_cons_eq_if_modifyHead] at hline
      obtain ⟨first, rest, hsplit⟩ :=
        List.exists_cons_of_ne_nil (List.splitOn_ne_nil newline text)
      rw [splitLines, hsplit] at ih
      rw [hsplit] at hline
      split_ifs at hline with hchar
      · rcases List.mem_cons.mp hline with rfl | hline
        · exact List.not_mem_nil
        · exact ih hline
      · rw [List.modifyHead_cons] at hline
        rcases List.mem_cons.mp hline with rfl | hline
        · intro hmem
          rcases List.mem_cons.mp hmem with heq | hmem
          · exact hchar (beq_iff_eq.mpr heq.symm)
          · exact ih List.mem_cons_self hmem
        · exact ih (List.mem_cons_of_mem first hline)

theorem joinLines_splitLines (text : Text) : joinLines (splitLines text) = text :=
  List.intercalate_splitOn newline

theorem splitLines_joinLines {lines : List Text} (hlines : ∀ line ∈ lines, newline ∉ line)
    (hne : lines ≠ []) : splitLines (joinLines lines) = lines :=
  List.splitOn_intercalate newline hlines hne

/-! ## Numbers -/

/-- `sys.int_info.default_max_str_digits` -/
def maxStrDigits : ℕ := 4300

/-- The digits of a number. -/
def decimalText (value : ℕ) : Text := (Nat.toDigits 10 value).map codePoint

theorem codePoint_val (char : Char) : (codePoint char).val = char.toNat := by
  have hsmall : char.toNat < 0x110000 := char.valid.elim
    (fun hlow => Nat.lt_trans hlow (by decide)) fun hhigh => hhigh.2
  exact Nat.mod_eq_of_lt hsmall

theorem codePoint_injective : Function.Injective codePoint := by
  intro left right heq
  refine Char.toNat_inj.mp ?_
  rw [← codePoint_val, ← codePoint_val, heq]

/-- The digits are those of ASCII. -/
theorem digit_of_mem_decimalText {value : ℕ} {char : CodePoint} (hchar : char ∈ decimalText value) :
    48 ≤ char.val ∧ char.val ≤ 57 := by
  obtain ⟨digit, hdigit, rfl⟩ := List.mem_map.mp hchar
  have hisDigit := Nat.isDigit_of_mem_toDigits (by decide) (by decide) hdigit
  rw [Char.isDigit, Bool.and_eq_true] at hisDigit
  rw [codePoint_val]
  exact ⟨UInt32.le_iff_toNat_le.mp (of_decide_eq_true hisDigit.1),
    UInt32.le_iff_toNat_le.mp (of_decide_eq_true hisDigit.2)⟩

theorem newline_not_mem_decimalText (value : ℕ) : newline ∉ decimalText value :=
  fun hmem => absurd (digit_of_mem_decimalText hmem).1 (by decide)

theorem decimalText_ne_nil (value : ℕ) : decimalText value ≠ [] := by
  rw [decimalText, Ne, List.map_eq_nil_iff]
  exact Nat.toDigits_ne_nil

theorem decimalText_injective : Function.Injective decimalText := by
  intro left right heq
  have hdigits := List.map_injective_iff.mpr codePoint_injective heq
  rw [← Nat.ofDigitChars_ten_toDigits (n := left), hdigits, Nat.ofDigitChars_ten_toDigits]

/-- `str` of an integer, unless it has too many digits. -/
def intText (value : ℤ) : Option Text :=
  let digits := decimalText value.natAbs
  if maxStrDigits < digits.length then none
  else if value < 0 then some (codePoint '-' :: digits)
  else some digits

/-- The format `+d`. -/
def signedText (value : ℤ) : Option Text :=
  (intText value).map fun digits => if value < 0 then digits else codePoint '+' :: digits

section

variable (tables : CharTables)

def isDecimal (char : CodePoint) : Bool := (tables.decimal char).isSome

/-- `int` of a text of digits, unless there are too many. -/
def parseInt (digits : Text) : Option ℕ :=
  if maxStrDigits < digits.length then none
  else some (digits.foldl (fun number digit => 10 * number + (tables.decimal digit).getD 0) 0)

/-- `str.strip` -/
def strip (text : Text) : Text :=
  ((text.dropWhile tables.isSpace).reverse.dropWhile tables.isSpace).reverse

theorem strip_strip (text : Text) : strip tables (strip tables text) = strip tables text := by
  have hright : ((strip tables text).reverse.dropWhile tables.isSpace).reverse =
      strip tables text :=
    List.rdropWhile_idempotent tables.isSpace (text.dropWhile tables.isSpace)
  have hleft : (strip tables text).dropWhile tables.isSpace = strip tables text := by
    rw [List.dropWhile_eq_self_iff]
    intro hlength hspace
    have hbegins : strip tables text <+: text.dropWhile tables.isSpace :=
      List.rdropWhile_prefix tables.isSpace _
    have hfirst := hbegins.getElem (i := 0) hlength
    refine List.dropWhile_get_zero_not tables.isSpace text (hlength.trans_le hbegins.length_le) ?_
    rw [List.get_eq_getElem]
    exact hfirst ▸ hspace
  rw [strip, hleft, hright]

theorem strip_of_no_space {text : Text} (htext : ∀ char ∈ text, tables.isSpace char = false) :
    strip tables text = text := by
  have hdrop : ∀ chars : Text, (∀ char ∈ chars, tables.isSpace char = false) →
      chars.dropWhile tables.isSpace = chars := by
    intro chars hchars
    cases chars with
    | nil => rfl
    | cons char chars =>
        exact List.dropWhile_cons_of_neg (by rw [hchars char List.mem_cons_self]; decide)
  rw [strip, hdrop text htext,
    hdrop _ fun char hchar => htext char (List.mem_reverse.mp hchar), List.reverse_reverse]

/-- `int` of a text: digits in groups, with a sign. -/
def intOfText (text : Text) : Option ℤ :=
  let stripped := strip tables text
  let sign := stripped.head?.filter fun char => char = codePoint '-' ∨ char = codePoint '+'
  let groups := (if sign.isSome then stripped.drop 1 else stripped).splitOn (codePoint '_')
  if groups.all fun group => !group.isEmpty && group.all (isDecimal tables) then
    (parseInt tables groups.flatten).map fun (number : ℕ) =>
      if sign = some (codePoint '-') then -(number : ℤ) else number
  else none

/-! ## Representations -/

/-- The last hexadecimal digits of a number. -/
def hexText (width value : ℕ) : Text :=
  (List.range width).reverse.map fun place => codePoint (Nat.digitChar (value / 16 ^ place % 16))

def reprChar (quote char : CodePoint) : Text :=
  if char = quote ∨ char = codePoint '\\' then [codePoint '\\', char]
  else if char = tab then text "\\t"
  else if char = newline then text "\\n"
  else if char = 0x0D then text "\\r"
  else if tables.isPrintable char then [char]
  else if char < 0x100 then text "\\x" ++ hexText 2 char
  else if char < 0x10000 then text "\\u" ++ hexText 4 char
  else text "\\U" ++ hexText 8 char

/-- `repr` of a text. -/
def repr (value : Text) : Text :=
  let quote :=
    if codePoint '\'' ∈ value ∧ codePoint '"' ∉ value then codePoint '"' else codePoint '\''
  [quote] ++ value.flatMap (reprChar tables quote) ++ [quote]

theorem newline_not_mem_hexText (width value : ℕ) : newline ∉ hexText width value := by
  intro hmem
  obtain ⟨place, -, hnewline⟩ := List.mem_map.mp hmem
  have hall : ∀ digit < 16, codePoint (Nat.digitChar digit) ≠ newline := by decide
  exact hall _ (Nat.mod_lt _ (by decide)) hnewline

theorem newline_not_mem_reprChar {quote : CodePoint} (hquote : quote ≠ newline)
    (char : CodePoint) : newline ∉ reprChar tables quote char := by
  have hletters : newline ∉ text "\\x" ∧ newline ∉ text "\\u" ∧ newline ∉ text "\\U" := by decide
  rw [reprChar]
  split_ifs with hescaped htab hnewline hreturn hprintable hbyte hbasic
  · rintro hmem
    rcases List.mem_pair.mp hmem with heq | rfl
    · exact absurd heq (by decide)
    · exact hescaped.elim (fun heq => hquote heq.symm) fun heq => absurd heq (by decide)
  · decide
  · decide
  · decide
  · exact fun hmem => hnewline (List.mem_singleton.mp hmem).symm
  · exact fun hmem => (List.mem_append.mp hmem).elim hletters.1 (newline_not_mem_hexText 2 char)
  · exact fun hmem => (List.mem_append.mp hmem).elim hletters.2.1 (newline_not_mem_hexText 4 char)
  · exact fun hmem => (List.mem_append.mp hmem).elim hletters.2.2 (newline_not_mem_hexText 8 char)

/-- A representation is one line. -/
theorem newline_not_mem_repr (value : Text) : newline ∉ repr tables value := by
  have hquotes : codePoint '"' ≠ newline ∧ codePoint '\'' ≠ newline := by decide
  rw [repr]
  generalize hquote : (if codePoint '\'' ∈ value ∧ codePoint '"' ∉ value then codePoint '"'
    else codePoint '\'') = quote
  have hne : quote ≠ newline := by
    rw [← hquote]
    split_ifs
    · exact hquotes.1
    · exact hquotes.2
  intro hmem
  rcases List.mem_append.mp hmem with hmem | hmem
  · rcases List.mem_append.mp hmem with hmem | hmem
    · exact hne (List.mem_singleton.mp hmem).symm
    · obtain ⟨char, -, hmem⟩ := List.mem_flatMap.mp hmem
      exact newline_not_mem_reprChar tables hne char hmem
  · exact hne (List.mem_singleton.mp hmem).symm

end

end Legroom.Python
