import Legroom.Lib.Python.Text
import Mathlib.Data.Rat.Defs

/-!
# Python values

What a JSON document becomes in Python, and `==` on it.  A container compares its
elements by identity first, so a NaN equals itself: it is known by its object.
-/

namespace Legroom.Python

inductive Number where
  | bool (value : Bool)
  | int (value : ℤ)
  | finite (value : ℚ)
  | infinite (negative : Bool)
  | nan (object : ℕ)
deriving DecidableEq

/-- Numbers of different types are compared by their values. -/
def Number.exact : Number → Number
  | .bool value => .finite (if value then 1 else 0)
  | .int value => .finite value
  | number => number

inductive Value where
  | none
  | number (number : Number)
  | str (text : Text)
  | list (items : List Value)
  | dict (entries : List (Text × Value))

/-- `dict.get` -/
def Value.get (key : Text) : Value → Option Value
  | .dict entries => entries.lookup key
  | _ => Option.none

/-- `int`, unless it raises. -/
def Value.toInt (tables : CharTables) : Value → Option ℤ
  | .number (.bool value) => some (if value then 1 else 0)
  | .number (.int value) => some value
  | .number (.finite value) => some (value.num.tdiv value.den)
  | .str text => intOfText tables text
  | _ => Option.none

mutual

/-- `==` of two values in containers. -/
def Value.same : Value → Value → Bool
  | .none, .none => true
  | .number left, .number right => left.exact = right.exact
  | .str left, .str right => left = right
  | .list left, .list right => sameItems left right
  | .dict left, .dict right => left.length = right.length && sameEntries left right
  | _, _ => false

/-- `==` of two lists. -/
def sameItems : List Value → List Value → Bool
  | [], [] => true
  | left :: lefts, right :: rights => left.same right && sameItems lefts rights
  | _, _ => false

/-- All entries are also in the other dictionary. -/
def sameEntries : List (Text × Value) → List (Text × Value) → Bool
  | [], _ => true
  | (key, value) :: entries, others =>
      (match others.lookup key with
        | some other => value.same other
        | Option.none => false) && sameEntries entries others

end

/-!
## JSON in Python

`json.loads` and `json.dumps` on texts.  How a float is written, and which number a
float literal stands for, is a parameter.
-/

structure FloatFormat where
  /-- `float.__repr__` -/
  repr : ℚ → Text
  /-- `float` of a literal. -/
  parse : Text → Number

inductive LoadError where
  | decode
  | tooManyDigits
deriving DecidableEq

def quoteChar : CodePoint := 0x22
def backslash : CodePoint := 0x5C
def space : CodePoint := 0x20

/-- `dict[key] = value` -/
def setEntry (key : Text) (value : Value) : List (Text × Value) → List (Text × Value)
  | [] => [(key, value)]
  | entry :: entries =>
      if entry.1 = key then (key, value) :: entries else entry :: setEntry key value entries

/-! ## Reading -/

namespace JsonText

def isSpace (char : CodePoint) : Bool :=
  char == space || char == tab || char == newline || char == 0x0D

def skipSpace (text : Text) : Text := text.dropWhile isSpace

def isDigit (char : CodePoint) : Bool := 0x30 ≤ char && char ≤ 0x39

def hexValue (char : CodePoint) : Option ℕ :=
  if 0x30 ≤ char ∧ char ≤ 0x39 then some (char.val - 0x30)
  else if 0x61 ≤ char ∧ char ≤ 0x66 then some (char.val - 0x57)
  else if 0x41 ≤ char ∧ char ≤ 0x46 then some (char.val - 0x37)
  else none

/-- Four hexadecimal digits. -/
def readHex4 : Text → Option (ℕ × Text)
  | first :: second :: third :: fourth :: rest => do
      let first ← hexValue first
      let second ← hexValue second
      let third ← hexValue third
      let fourth ← hexValue fourth
      some (((first * 16 + second) * 16 + third) * 16 + fourth, rest)
  | _ => none

def isHighSurrogate (code : ℕ) : Bool := 0xD800 ≤ code && code ≤ 0xDBFF
def isLowSurrogate (code : ℕ) : Bool := 0xDC00 ≤ code && code ≤ 0xDFFF

def ofCode (code : ℕ) : CodePoint := Fin.ofNat 0x110000 code

/-- What is behind `\u`.  The escapes of a surrogate pair are one character. -/
def readUnicode (text : Text) : Option (CodePoint × Text) := do
  let (high, rest) ← readHex4 text
  match rest with
  | first :: second :: behind =>
      if isHighSurrogate high && first == backslash && second == codePoint 'u' then
        let (low, behind) ← readHex4 behind
        if isLowSurrogate low then
          some (ofCode (0x10000 + (high - 0xD800) * 0x400 + (low - 0xDC00)), behind)
        else some (ofCode high, rest)
      else some (ofCode high, rest)
  | _ => some (ofCode high, rest)

def simpleEscape (char : CodePoint) : Option CodePoint :=
  if char = quoteChar ∨ char = backslash ∨ char = codePoint '/' then some char
  else if char = codePoint 'b' then some 0x08
  else if char = codePoint 'f' then some 0x0C
  else if char = codePoint 'n' then some newline
  else if char = codePoint 'r' then some 0x0D
  else if char = codePoint 't' then some tab
  else none

def readEscape : Text → Option (CodePoint × Text)
  | [] => none
  | char :: rest =>
      if char = codePoint 'u' then readUnicode rest
      else (simpleEscape char).map fun escaped => (escaped, rest)

/-- What is behind the opening quote of a string. -/
def readString : ℕ → Text → Option (Text × Text)
  | fuel + 1, char :: rest =>
      if char = quoteChar then some ([], rest)
      else if char = backslash then do
        let (char, rest) ← readEscape rest
        let (text, rest) ← readString fuel rest
        some (char :: text, rest)
      else if char < space then none
      else do
        let (text, rest) ← readString fuel rest
        some (char :: text, rest)
  | _, _ => none

/-- The digits of a whole number. -/
def readDigits : Text → Option (Text × Text)
  | [] => none
  | char :: rest =>
      if char = codePoint '0' then some ([char], rest)
      else if isDigit char then some (char :: rest.takeWhile isDigit, rest.dropWhile isDigit)
      else none

def readFraction : Text → Text × Text
  | point :: rest =>
      if point = codePoint '.' ∧ rest.head?.any isDigit then
        (point :: rest.takeWhile isDigit, rest.dropWhile isDigit)
      else ([], point :: rest)
  | [] => ([], [])

def isSign (char : CodePoint) : Bool := char == codePoint '-' || char == codePoint '+'

def readExponent : Text → Text × Text
  | letter :: rest =>
      let sign := rest.head?.toList.filter isSign
      let behind := rest.drop sign.length
      if (letter = codePoint 'e' ∨ letter = codePoint 'E') ∧ behind.head?.any isDigit then
        (letter :: sign ++ behind.takeWhile isDigit, behind.dropWhile isDigit)
      else ([], letter :: rest)
  | [] => ([], [])

/-- The value of ASCII digits, unless there are too many. -/
def ofDigits (digits : Text) : Option ℕ :=
  if maxStrDigits < digits.length then none
  else some (digits.foldl (fun number digit => 10 * number + (digit.val - 0x30)) 0)

/-- What cannot be read is an error of the document. -/
def required {α : Type} : Option α → Except LoadError α
  | some value => .ok value
  | none => .error .decode

def readNumber (format : FloatFormat) (text : Text) : Except LoadError (Number × Text) := do
  let sign := text.head?.toList.filter (· == codePoint '-')
  let (digits, rest) ← required (readDigits (text.drop sign.length))
  let (fraction, rest) := readFraction rest
  let (exponent, rest) := readExponent rest
  if fraction.isEmpty && exponent.isEmpty then
    match ofDigits digits with
    | some number => .ok (.int (if sign.isEmpty then number else -number), rest)
    | none => .error .tooManyDigits
  else .ok (format.parse (sign ++ digits ++ fraction ++ exponent), rest)

/-- The literals, each with its value. -/
def literals : List (Text × Value) :=
  [(text "null", .none), (text "true", .number (.bool true)), (text "false", .number (.bool false)),
    (text "NaN", .number (.nan 0)), (text "Infinity", .number (.infinite false)),
    (text "-Infinity", .number (.infinite true))]

def readLiteral (text : Text) : Option (Value × Text) :=
  (literals.find? fun literal => literal.1.isPrefixOf text).map fun literal =>
    (literal.2, text.drop literal.1.length)

/-- The dictionary of the members of an object: a later one replaces an earlier one. -/
def ofMembers (members : List (Text × Value)) : List (Text × Value) :=
  members.foldl (fun entries entry => setEntry entry.1 entry.2 entries) []

section

variable (format : FloatFormat)

mutual

def readValue : ℕ → Text → Except LoadError (Value × Text)
  | fuel + 1, char :: rest =>
      if char = quoteChar then do
        let (text, rest) ← required (readString fuel rest)
        .ok (.str text, rest)
      else if char = codePoint '\x7b' then
        match skipSpace rest with
        | [] => .error .decode
        | next :: behind =>
            if next = codePoint '\x7d' then .ok (.dict [], behind)
            else do
              let (members, rest) ← readMembers fuel (next :: behind)
              .ok (.dict (ofMembers members), rest)
      else if char = codePoint '[' then
        match skipSpace rest with
        | [] => .error .decode
        | next :: behind =>
            if next = codePoint ']' then .ok (.list [], behind)
            else do
              let (items, rest) ← readItems fuel (next :: behind)
              .ok (.list items, rest)
      else
        match readLiteral (char :: rest) with
        | some read => .ok read
        | none => do
            let (number, rest) ← readNumber format (char :: rest)
            .ok (.number number, rest)
  | _, _ => .error .decode

/-- The items of an array, to its end. -/
def readItems : ℕ → Text → Except LoadError (List Value × Text)
  | fuel + 1, text => do
      let (value, rest) ← readValue fuel text
      match skipSpace rest with
      | [] => .error .decode
      | next :: rest =>
          if next = codePoint ']' then .ok ([value], rest)
          else if next = codePoint ',' then
            let (values, rest) ← readItems fuel (skipSpace rest)
            .ok (value :: values, rest)
          else .error .decode
  | 0, _ => .error .decode

/-- The members of an object, to its end. -/
def readMembers : ℕ → Text → Except LoadError (List (Text × Value) × Text)
  | fuel + 1, first :: text =>
      if first = quoteChar then do
        let (key, rest) ← required (readString fuel text)
        match skipSpace rest with
        | [] => .error .decode
        | next :: rest =>
            if next = colon then
              let (value, rest) ← readValue fuel (skipSpace rest)
              match skipSpace rest with
              | [] => .error .decode
              | next :: rest =>
                  if next = codePoint '\x7d' then .ok ([(key, value)], rest)
                  else if next = codePoint ',' then
                    let (members, rest) ← readMembers fuel (skipSpace rest)
                    .ok ((key, value) :: members, rest)
                  else .error .decode
            else .error .decode
      else .error .decode
  | _, _ => .error .decode

end

end

end JsonText

/-- `json.loads` -/
def loadJson (format : FloatFormat) (text : Text) : Except LoadError Value := do
  let (value, rest) ←
    JsonText.readValue format (text.length + 1) (JsonText.skipSpace text)
  if (JsonText.skipSpace rest).isEmpty then .ok value else .error .decode

/-- `json.loads`, unless it raises. -/
def loads (format : FloatFormat) (text : Text) : Option Value := (loadJson format text).toOption

/-! ## Writing -/

structure JsonStyle where
  itemSeparator : Text
  keySeparator : Text
  ensureAscii : Bool

/-- The arguments of `json.dumps` by default. -/
def JsonStyle.default : JsonStyle := ⟨text ", ", text ": ", true⟩

namespace JsonText

def unicodeEscape (code : ℕ) : Text := text "\\u" ++ hexText 4 code

def escapeChar (ensureAscii : Bool) (char : CodePoint) : Text :=
  if char = quoteChar ∨ char = backslash then [backslash, char]
  else if char = newline then text "\\n"
  else if char = 0x0D then text "\\r"
  else if char = tab then text "\\t"
  else if char = 0x0C then text "\\f"
  else if char = 0x08 then text "\\b"
  else if char < space then unicodeEscape char
  else if ensureAscii && 0x7E < char then
    if char < 0x10000 then unicodeEscape char
    else unicodeEscape (0xD800 + (char.val - 0x10000) / 0x400) ++
      unicodeEscape (0xDC00 + (char.val - 0x10000) % 0x400)
  else [char]

def quoted (ensureAscii : Bool) (text : Text) : Text :=
  quoteChar :: text.flatMap (escapeChar ensureAscii) ++ [quoteChar]

def numberText (format : FloatFormat) : Number → Text
  | .bool true => text "true"
  | .bool false => text "false"
  | .int value =>
      if value < 0 then codePoint '-' :: decimalText value.natAbs else decimalText value.natAbs
  | .finite value => format.repr value
  | .infinite false => text "Infinity"
  | .infinite true => text "-Infinity"
  | .nan _ => text "NaN"

section

variable (format : FloatFormat) (style : JsonStyle)

mutual

def valueText : Value → Text
  | .none => text "null"
  | .number number => numberText format number
  | .str text => quoted style.ensureAscii text
  | .list [] => text "[]"
  | .list (item :: items) => codePoint '[' :: valueText item ++ itemsText items
  | .dict [] => text "\x7b\x7d"
  | .dict ((key, value) :: entries) =>
      codePoint '\x7b' :: quoted style.ensureAscii key ++ style.keySeparator ++ valueText value ++
        entriesText entries

/-- The other items of an array, and its end. -/
def itemsText : List Value → Text
  | [] => [codePoint ']']
  | item :: items => style.itemSeparator ++ valueText item ++ itemsText items

/-- The other members of an object, and its end. -/
def entriesText : List (Text × Value) → Text
  | [] => [codePoint '\x7d']
  | (key, value) :: entries =>
      style.itemSeparator ++ quoted style.ensureAscii key ++ style.keySeparator ++
        valueText value ++ entriesText entries

end

end

end JsonText

/-- `json.dumps` -/
def dumps (format : FloatFormat) (style : JsonStyle) (value : Value) : Text :=
  JsonText.valueText format style value

end Legroom.Python
