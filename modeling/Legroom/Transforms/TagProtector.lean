import Legroom.Bedrock.EventStream
import Legroom.Lib.Replace

/-!
# The tag protector

Custom tags of a text are replaced by placeholders before the text is compressed
and put back afterwards.  A text is a string of bytes; every cut is made next to an
ASCII byte.
-/

namespace Legroom.Transforms

open Bedrock (asciiLower)
open Utf8 (decimal)

def html5Tags : List String :=
  ["html", "base", "head", "link", "meta", "style", "title", "body", "address", "article",
    "aside", "footer", "h1", "h2", "h3", "h4", "h5", "h6", "header", "hgroup", "main", "nav",
    "section", "search", "blockquote", "dd", "div", "dl", "dt", "figcaption", "figure", "hr",
    "li", "menu", "ol", "p", "pre", "ul", "a", "abbr", "b", "bdi", "bdo", "br", "cite", "code",
    "data", "dfn", "em", "i", "kbd", "mark", "q", "rp", "rt", "ruby", "s", "samp", "small",
    "span", "strong", "sub", "sup", "time", "u", "var", "wbr", "area", "audio", "img", "map",
    "track", "video", "embed", "iframe", "object", "param", "picture", "portal", "source", "svg",
    "math", "canvas", "noscript", "script", "del", "ins", "caption", "col", "colgroup", "table",
    "tbody", "td", "tfoot", "th", "thead", "tr", "button", "datalist", "fieldset", "form",
    "input", "label", "legend", "meter", "optgroup", "option", "output", "progress", "select",
    "textarea", "details", "dialog", "summary", "slot", "template"]

def defaultPrefix : Bytes := ascii "\x7b\x7bLEGROOM_TAG_"
def placeholderSuffix : Bytes := ascii "\x7d\x7d"
def fallbackPrefix : Bytes := ascii "\x7b\x7bLEGROOM_TAG_FALLBACK_a4f1c7e2_"

structure ProtectStats where
  tagsSeen : ℕ
  htmlTagsSkipped : ℕ
  customBlocksProtected : ℕ
  selfClosingProtected : ℕ
  orphanCloses : ℕ
  placeholderCollisionAvoided : Bool
  deriving DecidableEq

def ProtectStats.default : ProtectStats := ⟨0, 0, 0, 0, 0, false⟩

def isAsciiUppercase (byte : Byte) : Bool := 0x41 ≤ byte && byte ≤ 0x5A

def isKnownHtmlTag (tagName : Bytes) : Bool :=
  (html5Tags.map ascii).contains tagName ||
    (tagName.any isAsciiUppercase && (html5Tags.map ascii).contains (tagName.map asciiLower))

def saltedPrefix (salt : ℕ) : Bytes :=
  ascii "\x7b\x7bLEGROOM_TAG_" ++ decimal salt ++ ascii "_"

def pickPlaceholderPrefix (text : Bytes) : Bytes × Bool :=
  if ¬defaultPrefix <:+: text then (defaultPrefix, false)
  else
    match (List.range 16).find? fun salt => ¬saltedPrefix salt <:+: text with
    | some salt => (saltedPrefix salt, true)
    | none => (fallbackPrefix, true)

/-! ## One tag -/

structure OpenTag where
  nameLower : Bytes
  openStart : ℕ
  deriving DecidableEq

/-- A tag with its name and its length. -/
inductive TagParse where
  | «open» (name : Bytes) (length : ℕ) (isSelfClosing : Bool)
  | close (name : Bytes) (length : ℕ)
  | notTag
  deriving DecidableEq

def isAsciiAlphabetic (byte : Byte) : Bool :=
  isAsciiUppercase byte || 0x61 ≤ byte && byte ≤ 0x7A

def isAsciiDigit (byte : Byte) : Bool := 0x30 ≤ byte && byte ≤ 0x39

def isAsciiWhitespace (byte : Byte) : Bool :=
  byte == 0x20 || byte == 0x09 || byte == 0x0A || byte == 0x0C || byte == 0x0D

def isNameStart (byte : Byte) : Bool := isAsciiAlphabetic byte || byte == 0x5F

def isNameCont (byte : Byte) : Bool :=
  isAsciiAlphabetic byte || isAsciiDigit byte || byte == 0x5F || byte == 0x2D || byte == 0x2E ||
    byte == 0x3A

def lessThan : Byte := 0x3C
def greaterThan : Byte := 0x3E
def slash : Byte := 0x2F

/-- The attributes up to the `>`: their length with it, and whether the tag closes
itself.  The quote is the one of the value that is read. -/
def scanAttributes : Bool → Option Byte → Bytes → Option (ℕ × Bool)
  | _, _, [] => none
  | selfClosing, some quote, byte :: bytes =>
      (if byte = quote then scanAttributes false none bytes
        else scanAttributes selfClosing (some quote) bytes).map fun found =>
          (found.1 + 1, found.2)
  | selfClosing, none, byte :: bytes =>
      if byte = greaterThan then some (1, selfClosing)
      else
        (if byte = slash then scanAttributes true none bytes
          else if byte = 0x22 ∨ byte = 0x27 then scanAttributes selfClosing (some byte) bytes
          else if isAsciiWhitespace byte then scanAttributes false none bytes
          else scanAttributes selfClosing none bytes).map fun found => (found.1 + 1, found.2)

/-- A tag name and what is behind it. -/
def parseName : Bytes → Option (Bytes × Bytes)
  | [] => none
  | first :: more =>
      if isNameStart first then
        some (first :: more.takeWhile isNameCont, more.dropWhile isNameCont)
      else none

/-- A closing tag behind its `</`. -/
def parseClosing (bytes : Bytes) : TagParse :=
  match parseName bytes with
  | some (name, rest) =>
      if (rest.dropWhile isAsciiWhitespace).head? = some greaterThan then
        .close name (2 + name.length + (rest.takeWhile isAsciiWhitespace).length + 1)
      else .notTag
  | none => .notTag

/-- An opening tag behind its `<`. -/
def parseOpening (bytes : Bytes) : TagParse :=
  match parseName bytes with
  | some (name, rest) =>
      match scanAttributes false none rest with
      | some (length, isSelfClosing) => .open name (1 + name.length + length) isSelfClosing
      | none => .notTag
  | none => .notTag

/-- The tag at the front of a text that begins with `<`. -/
def parseTagAt : Bytes → TagParse
  | _ :: byte :: bytes => if byte = slash then parseClosing bytes else parseOpening (byte :: bytes)
  | _ => .notTag

/-! ## Spans -/

inductive SpanKind where
  | block
  | selfClosing
  | openMarker
  | closeMarker
  deriving DecidableEq

structure Span where
  start : ℕ
  stop : ℕ
  kind : SpanKind
  deriving DecidableEq

/-- The stack has its top in front. -/
structure Walk where
  spans : List Span
  stack : List OpenTag
  stats : ProtectStats
  deriving DecidableEq

def Walk.init : Walk := ⟨[], [], .default⟩

/-- An opening or self-closing tag at a position. -/
def Walk.openTag (walk : Walk) (compressTaggedContent : Bool) (position : ℕ) (name : Bytes)
    (length : ℕ) (isSelfClosing : Bool) : Walk :=
  let stats := { walk.stats with tagsSeen := walk.stats.tagsSeen + 1 }
  if isKnownHtmlTag name then
    { walk with stats := { stats with htmlTagsSkipped := stats.htmlTagsSkipped + 1 } }
  else if isSelfClosing then
    { walk with
      spans := walk.spans ++ [⟨position, position + length, .selfClosing⟩]
      stats := { stats with selfClosingProtected := stats.selfClosingProtected + 1 } }
  else
    { spans :=
        if compressTaggedContent then
          walk.spans ++ [⟨position, position + length, .openMarker⟩]
        else walk.spans
      stack := ⟨name.map asciiLower, position⟩ :: walk.stack
      stats := stats }

/-- A closing tag at a position. -/
def Walk.closeTag (walk : Walk) (compressTaggedContent : Bool) (position : ℕ) (name : Bytes)
    (length : ℕ) : Walk :=
  let stats := { walk.stats with tagsSeen := walk.stats.tagsSeen + 1 }
  if isKnownHtmlTag name then
    { walk with stats := { stats with htmlTagsSkipped := stats.htmlTagsSkipped + 1 } }
  else
    match walk.stack.dropWhile fun opened => opened.nameLower != name.map asciiLower with
    | opened :: below =>
        if compressTaggedContent then
          -- `truncate` has dropped the match already; `pop` drops the tag around it.
          { spans := walk.spans ++ [⟨position, position + length, .closeMarker⟩]
            stack := below.tail
            stats := stats }
        else
          { spans :=
              walk.spans.filter (fun span => span.start < opened.openStart) ++
                [⟨opened.openStart, position + length, .block⟩]
            stack := below
            stats := { stats with customBlocksProtected := stats.customBlocksProtected + 1 } }
    | [] => { walk with stats := { stats with orphanCloses := stats.orphanCloses + 1 } }

/-- The walk over the rest of a text, behind the bytes of a tag that are skipped. -/
def Walk.run (compressTaggedContent : Bool) : ℕ → ℕ → Bytes → Walk → Walk
  | _, _, [], walk => walk
  | skip + 1, position, _ :: bytes, walk =>
      Walk.run compressTaggedContent skip (position + 1) bytes walk
  | 0, position, byte :: bytes, walk =>
      if byte ≠ lessThan then Walk.run compressTaggedContent 0 (position + 1) bytes walk
      else
        match parseTagAt (byte :: bytes) with
        | .notTag => Walk.run compressTaggedContent 0 (position + 1) bytes walk
        | .open name length isSelfClosing =>
            Walk.run compressTaggedContent (length - 1) (position + 1) bytes
              (walk.openTag compressTaggedContent position name length isSelfClosing)
        | .close name length =>
            Walk.run compressTaggedContent (length - 1) (position + 1) bytes
              (walk.closeTag compressTaggedContent position name length)

def identifySpans (text : Bytes) (compressTaggedContent : Bool) : List Span × ProtectStats :=
  let walk := Walk.run compressTaggedContent 0 0 text .init
  (walk.spans, walk.stats)

/-! ## Protecting and restoring -/

def placeholder (tagPrefix : Bytes) (counter : ℕ) : Bytes :=
  tagPrefix ++ decimal counter ++ placeholderSuffix

/-- The output from a cursor on, and its blocks. -/
def emitFrom (text tagPrefix : Bytes) : ℕ → ℕ → List Span → Option (Bytes × List (Bytes × Bytes))
  | cursor, _, [] => some (text.drop cursor, [])
  | cursor, counter, span :: spans =>
      if span.start < cursor then none
      else
        (emitFrom text tagPrefix span.stop (counter + 1) spans).map fun emitted =>
          (sliceRange text cursor span.start ++ placeholder tagPrefix counter ++ emitted.1,
            (placeholder tagPrefix counter, sliceRange text span.start span.stop) :: emitted.2)

def emitOutput (text : Bytes) (spans : List Span) (tagPrefix : Bytes) :
    Option (Bytes × List (Bytes × Bytes)) :=
  emitFrom text tagPrefix 0 0 spans

def protectTags (text : Bytes) (compressTaggedContent : Bool) :
    Bytes × List (Bytes × Bytes) × ProtectStats :=
  if text.isEmpty ∨ lessThan ∉ text then (text, [], .default)
  else
    let (tagPrefix, salted) := pickPlaceholderPrefix text
    let (spans, stats) := identifySpans text compressTaggedContent
    let stats := { stats with placeholderCollisionAvoided := salted }
    match emitOutput text spans tagPrefix with
    | some (cleaned, blocks) => (cleaned, blocks, stats)
    | none => (text, [], stats)

def restoreTags (text : Bytes) (blocks : List (Bytes × Bytes)) : Bytes :=
  blocks.foldl (fun result block =>
    if block.1 <:+: result then replaceAll block.1 block.2 result else result) text

end Legroom.Transforms
