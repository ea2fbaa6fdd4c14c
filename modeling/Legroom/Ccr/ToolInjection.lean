import Legroom.Ccr.ToolCalls
import Legroom.Lib.Readings
import Legroom.Lib.Regex

/-!
# The scan for markers

The texts of a conversation are searched with five patterns.  The last group of a match is
the hash of what was compressed.
-/

namespace Legroom.Ccr

open Python Regex

/-! ## Patterns -/

/-- Digits, letters and the underscore. -/
def isAsciiWord (char : CodePoint) : Bool :=
  (0x30 ≤ char && char ≤ 0x39) || (0x41 ≤ char && char ≤ 0x5A) || char == 0x5F ||
    (0x61 ≤ char && char ≤ 0x7A)

/-- The character classes `\d` and `\w`, which are those of ASCII as far as ASCII goes. -/
structure PatternTables where
  isDecimal : CodePoint → Bool
  isWord : CodePoint → Bool
  isDecimal_ascii : ∀ char < 0x80, isDecimal char = (0x30 ≤ char && char ≤ 0x39)
  isWord_ascii : ∀ char < 0x80, isWord char = isAsciiWord char

/-- The classes with nothing beyond ASCII. -/
def asciiPatternTables : PatternTables where
  isDecimal := fun char => 0x30 ≤ char && char ≤ 0x39
  isWord := isAsciiWord
  isDecimal_ascii := fun _ _ => rfl
  isWord_ascii := fun _ _ => rfl

/-- `[a-f0-9]` without regard to case. -/
def isHex (char : CodePoint) : Bool := isLowerHex char || (0x41 ≤ char && char ≤ 0x46)

/-- A letter of a constant in lower case matches itself in upper case, and `s` also matches
the long `ſ`. -/
def matchesLetter (letter found : CodePoint) : Bool :=
  found == letter || (0x61 ≤ letter && letter ≤ 0x7A && found == letter - 0x20) ||
    (letter == 0x73 && found == 0x17F)

def literalIgnoringCase (word : Text) : List (Piece CodePoint) :=
  word.map fun letter => .one (matchesLetter letter)

def character (expected : CodePoint) : Piece CodePoint := .one fun found => found == expected

/-- `([a-f0-9]{least,most})` -/
def hashGroup (least most : ℕ) : Piece CodePoint := .run isLowerHex least (some most) true true

/-- `.*?` -/
def anything : Piece CodePoint := .run (fun char => char != newline) 0 none false false

section

variable (tables : PatternTables)

/-- `(\d+)` -/
def numberGroup : Piece CodePoint := .run tables.isDecimal 1 none true true

/-- `\w+` -/
def word : Piece CodePoint := .run tables.isWord 1 none true false

def standardPattern : List (Piece CodePoint) :=
  character (codePoint '[') :: numberGroup tables :: character (codePoint ' ') :: word tables ::
    (literal (text " compressed to ") ++ numberGroup tables ::
      (literal (text ". Retrieve more: hash=") ++ [hashGroup 24 24, character (codePoint ']')]))

def legacyPattern : List (Piece CodePoint) :=
  character (codePoint '[') :: numberGroup tables :: character (codePoint ' ') :: word tables ::
    (literal (text " compressed. hash=") ++ [hashGroup 24 24, character (codePoint ']')])

def genericPattern : List (Piece CodePoint) :=
  character (codePoint '[') :: anything ::
    (literalIgnoringCase (text "compressed") ++ anything ::
      (literalIgnoringCase (text "hash=") ++
        [.run isHex 24 (some 24) true true, character (codePoint ']')]))

def ccrPattern : List (Piece CodePoint) :=
  literal (text "<<ccr:") ++ [hashGroup 12 24, .boundary tables.isWord]

def originalPattern : List (Piece CodePoint) :=
  literal (text "Retrieve original: hash=") ++ [hashGroup 12 24]

def markerPatterns : List (List (Piece CodePoint)) :=
  [standardPattern tables, legacyPattern tables, genericPattern, ccrPattern tables,
    originalPattern]

/-! ## Scanning -/

/-- The last groups of all matches. -/
def foundHashes (shown : Text) : List Text :=
  (markerPatterns tables).flatMap fun pattern =>
    (findAll pattern 0 none shown).map fun groups => groups.getLast?.getD []

def recordHash (detected : List Text) (hash : Text) : List Text :=
  if hash.isEmpty || detected.contains hash then detected else detected ++ [hash]

def scanText (detected : List Text) (shown : Text) : List Text :=
  (foundHashes tables shown).foldl recordHash detected

/-- A dictionary of type `text`; its text goes to `findall`, which takes only texts. -/
def textsOfItem (item : Value) : Option (List Text) :=
  if hasType (text "text") item then do
    return [← (← item.getOr (text "text") (.str [])).asText]
  else some []

def textsOfToolContent : Value → Option (List Text)
  | .str shown => some [shown]
  | .list items => (items.mapM textsOfItem).map List.flatten
  | _ => some []

def textsOfBlock (block : Value) : Option (List Text) :=
  if hasType (text "text") block then textsOfItem block
  else if hasType (text "tool_result") block then do
    textsOfToolContent (← block.getOr (text "content") (.str []))
  else some []

def textsOfResponse : Value → List Text
  | .str shown => [shown]
  | .dict entries => entries.filterMap fun (_, value) => value.asText
  | _ => []

def textsOfPart (part : Value) : Option (List Text) :=
  match part.get (text "text"), part.get (text "functionResponse") with
  | some shown, _ => shown.asText.map fun shown => [shown]
  | none, some response => (response.getOr (text "response") (.dict [])).map textsOfResponse
  | none, none => some []

def textsOfContent : Value → Option (List Text)
  | .str shown => some [shown]
  | .list blocks => (blocks.mapM textsOfBlock).map List.flatten
  | _ => some []

def textsOfParts : Value → Option (List Text)
  | .list parts => (parts.mapM textsOfPart).map List.flatten
  | _ => some []

/-- The texts of a message that are searched; what raises has none. -/
def scannedTexts (message : Value) : Option (List Text) := do
  let ofContent ← textsOfContent (← message.getOr (text "content") (.str []))
  let ofParts ← textsOfParts (← message.getOr (text "parts") (.list []))
  return ofContent ++ ofParts

def scanForMarkers (messages : List Value) : Option (List Text) := do
  let texts ← messages.mapM scannedTexts
  return texts.flatten.foldl (scanText tables) []

end

theorem character_mem_literal {word : Text} {char : CodePoint} (hchar : char ∈ word) :
    character char ∈ literal word :=
  List.mem_map.mpr ⟨char, hchar, rfl⟩

theorem mem_of_spelled_character {pattern : List (Piece CodePoint)} {char : CodePoint}
    (hpiece : character char ∈ pattern) {taken : Text} {groups : List Text}
    (hspelled : Spelled pattern taken groups) : char ∈ taken := by
  obtain ⟨found, hfound, haccepts⟩ := exists_mem_of_spelled hspelled hpiece
  rwa [← beq_iff_eq.mp haccepts]

/-! ## Shapes of messages -/

/-- A text item has a text. -/
def SupportedItem (item : Value) : Prop :=
  hasType (text "text") item = true →
    ∀ shown ∈ item.get (text "text"), shown.asText.isSome = true

def SupportedBlock (block : Value) : Prop :=
  SupportedItem block ∧ (hasType (text "tool_result") block = true →
    ∀ items, block.get (text "content") = some (.list items) → ∀ item ∈ items, SupportedItem item)

def SupportedPart (part : Value) : Prop :=
  (∀ shown ∈ part.get (text "text"), shown.asText.isSome = true) ∧
    (part.get (text "text") = none →
      ∀ response ∈ part.get (text "functionResponse"), response.isDict = true)

/-- A message as the providers define them, with any other fields and types of blocks. -/
structure Supported (message : Value) : Prop where
  isDict : message.isDict = true
  blocks : ∀ blocks, message.get (text "content") = some (.list blocks) →
    ∀ block ∈ blocks, SupportedBlock block
  parts : ∀ parts, message.get (text "parts") = some (.list parts) →
    ∀ part ∈ parts, SupportedPart part

def IsTextItem (item : Value) (shown : Text) : Prop :=
  hasType (text "text") item = true ∧ item.get (text "text") = some (.str shown)

inductive ShowsBlock (block : Value) (shown : Text) : Prop
  | text (hitem : IsTextItem block shown)
  | toolResult (htype : hasType (text "tool_result") block = true)
      (hcontent : block.get (text "content") = some (.str shown))
  | toolResultItem (htype : hasType (text "tool_result") block = true) (items : List Value)
      (hcontent : block.get (text "content") = some (.list items)) (item : Value)
      (hmem : item ∈ items) (hitem : IsTextItem item shown)

inductive ShowsPart (part : Value) (shown : Text) : Prop
  | text (htext : part.get (text "text") = some (.str shown))
  | response (htext : part.get (text "text") = none) (response : Value)
      (hpart : part.get (text "functionResponse") = some response)
      (hresponse : response.get (text "response") = some (.str shown))
  | responseValue (htext : part.get (text "text") = none) (response : Value)
      (hpart : part.get (text "functionResponse") = some response)
      (entries : List (Text × Value))
      (hresponse : response.get (text "response") = some (.dict entries)) (key : Text)
      (hentry : (key, .str shown) ∈ entries)

/-- A message contains a text in one of the shapes of the providers. -/
inductive Shows (message : Value) (shown : Text) : Prop
  | content (hcontent : message.get (text "content") = some (.str shown))
  | block (blocks : List Value) (hcontent : message.get (text "content") = some (.list blocks))
      (block : Value) (hblock : block ∈ blocks) (hshows : ShowsBlock block shown)
  | part (parts : List Value) (hparts : message.get (text "parts") = some (.list parts))
      (part : Value) (hpart : part ∈ parts) (hshows : ShowsPart part shown)

section

variable {type : Text} {item : Value}

theorem get_of_hasType (htype : hasType type item = true) :
    item.get (text "type") = some (.str type) := by
  rw [hasType] at htype
  cases hfound : item.get (text "type") with
  | none =>
      rw [hfound] at htype
      cases htype
  | some found =>
      rw [hfound] at htype
      cases found with
      | str found => rw [beq_iff_eq.mp htype]
      | _ => cases htype

theorem not_hasType {other : Text} (hne : type ≠ other) (htype : hasType type item = true) :
    hasType other item = false := by
  rw [hasType, get_of_hasType htype]
  exact beq_eq_false_iff_ne.mpr hne

theorem isDict_of_hasType (htype : hasType type item = true) : item.isDict = true :=
  Value.isDict_of_get (get_of_hasType htype)

theorem textsOfItem_of_hasType (htype : hasType (text "text") item = true) :
    textsOfItem item =
      (((item.get (text "text")).getD (.str [])).asText).map fun shown => [shown] := by
  rw [textsOfItem, if_pos htype, Value.getOr_of_isDict (isDict_of_hasType htype),
    Option.map_eq_bind]
  rfl

theorem isSome_textsOfItem (hsupported : SupportedItem item) :
    (textsOfItem item).isSome = true := by
  by_cases htype : hasType (text "text") item = true
  · rw [textsOfItem_of_hasType htype, Option.isSome_map]
    cases hget : item.get (text "text") with
    | none => rfl
    | some shown => exact hsupported htype shown hget
  · rw [textsOfItem, if_neg htype]
    rfl

variable {shown : Text}

theorem textsOfItem_eq (hitem : IsTextItem item shown) : textsOfItem item = some [shown] := by
  rw [textsOfItem_of_hasType hitem.1, hitem.2]
  rfl

variable {block : Value}

theorem textsOfBlock_of_toolResult (htype : hasType (text "tool_result") block = true) :
    textsOfBlock block =
      textsOfToolContent ((block.get (text "content")).getD (.str [])) := by
  have htext : hasType (text "text") block = false := not_hasType (by decide) htype
  rw [textsOfBlock, htext, if_neg Bool.false_ne_true, if_pos htype,
    Value.getOr_of_isDict (isDict_of_hasType htype)]
  rfl

theorem isSome_textsOfBlock (hsupported : SupportedBlock block) :
    (textsOfBlock block).isSome = true := by
  by_cases htype : hasType (text "tool_result") block = true
  · rw [textsOfBlock_of_toolResult htype]
    cases hget : block.get (text "content") with
    | none => rfl
    | some content =>
        cases content with
        | list items =>
            change ((items.mapM textsOfItem).map List.flatten).isSome = true
            rw [Option.isSome_map, isSome_mapM]
            exact fun item hitem => isSome_textsOfItem (hsupported.2 htype items hget item hitem)
        | _ => rfl
  · rw [textsOfBlock, if_neg htype]
    split_ifs
    · exact isSome_textsOfItem hsupported.1
    · rfl

variable {texts : List Text}

theorem mem_textsOfBlock (hshows : ShowsBlock block shown)
    (htexts : textsOfBlock block = some texts) : shown ∈ texts := by
  cases hshows with
  | text hitem =>
      rw [textsOfBlock, if_pos hitem.1, textsOfItem_eq hitem] at htexts
      obtain rfl := Option.some_inj.mp htexts
      exact List.mem_singleton_self shown
  | toolResult htype hcontent =>
      rw [textsOfBlock_of_toolResult htype, hcontent] at htexts
      obtain rfl := Option.some_inj.mp htexts
      exact List.mem_singleton_self shown
  | toolResultItem htype items hcontent item hmem hitem =>
      rw [textsOfBlock_of_toolResult htype, hcontent] at htexts
      obtain ⟨read, hread, rfl⟩ := Option.map_eq_some_iff.mp htexts
      exact List.mem_flatten.mpr ⟨[shown], (mem_of_mapM hread).mpr
        ⟨item, hmem, textsOfItem_eq hitem⟩, List.mem_singleton_self shown⟩

theorem isSome_textsOfPart {part : Value} (hsupported : SupportedPart part) :
    (textsOfPart part).isSome = true := by
  rw [textsOfPart]
  cases htext : part.get (text "text") with
  | some shown =>
      rw [Option.isSome_map]
      exact hsupported.1 shown htext
  | none =>
      cases hresponse : part.get (text "functionResponse") with
      | none => rfl
      | some response =>
          dsimp only
          rw [Value.getOr_of_isDict (hsupported.2 htext response hresponse)]
          rfl

theorem getOr_eq_of_get {value found : Value} {key : Text} (hfound : value.get key = some found)
    (default : Value) : value.getOr key default = some found := by
  rw [Value.getOr_of_isDict (Value.isDict_of_get hfound), hfound]
  rfl

theorem mem_textsOfPart {part : Value} (hshows : ShowsPart part shown)
    (htexts : textsOfPart part = some texts) : shown ∈ texts := by
  rw [textsOfPart] at htexts
  cases hshows with
  | text htext =>
      rw [htext] at htexts
      obtain rfl := Option.some_inj.mp htexts
      exact List.mem_singleton_self shown
  | response htext response hpart hresponse =>
      rw [htext, hpart] at htexts
      dsimp only at htexts
      rw [getOr_eq_of_get hresponse] at htexts
      obtain rfl := Option.some_inj.mp htexts
      exact List.mem_singleton_self shown
  | responseValue htext response hpart entries hresponse key hentry =>
      rw [htext, hpart] at htexts
      dsimp only at htexts
      rw [getOr_eq_of_get hresponse] at htexts
      obtain rfl := Option.some_inj.mp htexts
      exact List.mem_filterMap.mpr ⟨(key, .str shown), hentry, rfl⟩

variable {message : Value}

theorem scannedTexts_of_isDict (hdict : message.isDict = true) :
    scannedTexts message =
      (textsOfContent ((message.get (text "content")).getD (.str []))).bind fun ofContent =>
        (textsOfParts ((message.get (text "parts")).getD (.list []))).map fun ofParts =>
          ofContent ++ ofParts := by
  rw [scannedTexts, Value.getOr_of_isDict hdict, Value.getOr_of_isDict hdict]
  simp only [Option.map_eq_bind]
  rfl

/-- The scan reads every message of a supported shape. -/
theorem isSome_scannedTexts (hsupported : Supported message) :
    (scannedTexts message).isSome = true := by
  have hcontent : (textsOfContent ((message.get (text "content")).getD (.str []))).isSome =
      true := by
    cases hget : message.get (text "content") with
    | none => rfl
    | some content =>
        cases content with
        | list blocks =>
            change ((blocks.mapM textsOfBlock).map List.flatten).isSome = true
            rw [Option.isSome_map, isSome_mapM]
            exact fun block hblock => isSome_textsOfBlock (hsupported.blocks blocks hget block hblock)
        | _ => rfl
  have hparts : (textsOfParts ((message.get (text "parts")).getD (.list []))).isSome = true := by
    cases hget : message.get (text "parts") with
    | none => rfl
    | some content =>
        cases content with
        | list parts =>
            change ((parts.mapM textsOfPart).map List.flatten).isSome = true
            rw [Option.isSome_map, isSome_mapM]
            exact fun part hpart => isSome_textsOfPart (hsupported.parts parts hget part hpart)
        | _ => rfl
  obtain ⟨ofContent, hofContent⟩ := Option.isSome_iff_exists.mp hcontent
  rw [scannedTexts_of_isDict hsupported.isDict, hofContent, Option.bind_some, Option.isSome_map]
  exact hparts

theorem isDict_of_shows (hshows : Shows message shown) : message.isDict = true := by
  cases hshows with
  | content hcontent => exact Value.isDict_of_get hcontent
  | block blocks hcontent => exact Value.isDict_of_get hcontent
  | part parts hparts => exact Value.isDict_of_get hparts

/-- The scan reads every text that a message contains in a supported shape. -/
theorem mem_scannedTexts (hshows : Shows message shown)
    (htexts : scannedTexts message = some texts) :
    shown ∈ texts := by
  rw [scannedTexts_of_isDict (isDict_of_shows hshows)] at htexts
  obtain ⟨ofContent, hcontent', htexts⟩ := Option.bind_eq_some_iff.mp htexts
  obtain ⟨ofParts, hparts', rfl⟩ := Option.map_eq_some_iff.mp htexts
  cases hshows with
  | content hcontent =>
      rw [hcontent] at hcontent'
      obtain rfl := Option.some_inj.mp hcontent'
      exact List.mem_append_left _ (List.mem_singleton_self shown)
  | block blocks hcontent block hblock hshows =>
      rw [hcontent] at hcontent'
      obtain ⟨read, hread, rfl⟩ := Option.map_eq_some_iff.mp hcontent'
      obtain ⟨found, hfound⟩ := Option.isSome_iff_exists.mp
        (isSome_mapM.mp (Option.isSome_of_eq_some hread) block hblock)
      exact List.mem_append_left _ (List.mem_flatten.mpr
        ⟨found, (mem_of_mapM hread).mpr ⟨block, hblock, hfound⟩, mem_textsOfBlock hshows hfound⟩)
  | part parts hparts part hpart hshows =>
      rw [hparts] at hparts'
      obtain ⟨read, hread, rfl⟩ := Option.map_eq_some_iff.mp hparts'
      obtain ⟨found, hfound⟩ := Option.isSome_iff_exists.mp
        (isSome_mapM.mp (Option.isSome_of_eq_some hread) part hpart)
      exact List.mem_append_right _ (List.mem_flatten.mpr
        ⟨found, (mem_of_mapM hread).mpr ⟨part, hpart, hfound⟩, mem_textsOfPart hshows hfound⟩)

end

/-! ## What is reported -/

section

variable {tables : PatternTables}
variable {detected : List Text} {hash : Text}

theorem mem_recordHash {other : Text} :
    other ∈ recordHash detected hash ↔ other ∈ detected ∨ (other = hash ∧ hash ≠ []) := by
  rw [recordHash]
  split_ifs with hknown
  · rw [Bool.or_eq_true, List.isEmpty_iff, List.contains_iff_mem] at hknown
    refine ⟨Or.inl, fun hother => hother.elim id ?_⟩
    rintro ⟨rfl, hne⟩
    exact hknown.resolve_left hne
  · rw [Bool.or_eq_true, List.isEmpty_iff, not_or] at hknown
    rw [List.mem_append, List.mem_singleton]
    exact or_congr_right ⟨fun heq => ⟨heq, hknown.1⟩, fun hother => hother.1⟩

theorem mem_foldl_recordHash {found : List Text} :
    hash ∈ found.foldl recordHash detected ↔ hash ∈ detected ∨ (hash ∈ found ∧ hash ≠ []) := by
  induction found generalizing detected with
  | nil =>
      rw [List.foldl_nil]
      exact ⟨Or.inl, fun hhash => hhash.elim id fun hhash => absurd hhash.1 List.not_mem_nil⟩
  | cons first found ih =>
      rw [List.foldl_cons, ih, mem_recordHash, or_assoc, List.mem_cons, or_and_right]
      refine or_congr_right (or_congr_left ?_)
      exact ⟨fun hfirst => ⟨hfirst.1, hfirst.1 ▸ hfirst.2⟩,
        fun hfirst => ⟨hfirst.1, hfirst.1 ▸ hfirst.2⟩⟩

theorem mem_foldl_scanText {texts : List Text} :
    hash ∈ texts.foldl (scanText tables) detected ↔
      hash ∈ detected ∨ ∃ shown ∈ texts, hash ∈ foundHashes tables shown ∧ hash ≠ [] := by
  induction texts generalizing detected with
  | nil =>
      rw [List.foldl_nil]
      exact ⟨Or.inl, fun hhash => hhash.elim id
        fun ⟨shown, hshown, _⟩ => absurd hshown List.not_mem_nil⟩
  | cons first texts ih =>
      rw [List.foldl_cons, ih, scanText, mem_foldl_recordHash, or_assoc, List.exists_mem_cons_iff]

variable {messages : List Value}

/-- A hash is reported if and only if a pattern finds it in one of the texts. -/
theorem mem_scanForMarkers (hscan : scanForMarkers tables messages = some detected) :
    hash ∈ detected ↔ ∃ message ∈ messages, ∃ texts, scannedTexts message = some texts ∧
      ∃ shown ∈ texts, hash ∈ foundHashes tables shown ∧ hash ≠ [] := by
  obtain ⟨texts, htexts, hdetected⟩ := Option.bind_eq_some_iff.mp hscan
  obtain rfl := Option.some_inj.mp hdetected
  rw [mem_foldl_scanText]
  constructor
  · intro hhash
    obtain ⟨shown, hshown, hfound⟩ := hhash.resolve_left List.not_mem_nil
    obtain ⟨found, hmem, hshown⟩ := List.mem_flatten.mp hshown
    obtain ⟨message, hmessage, hscanned⟩ := (mem_of_mapM htexts).mp hmem
    exact ⟨message, hmessage, found, hscanned, shown, hshown, hfound⟩
  · intro ⟨message, hmessage, found, hscanned, shown, hshown, hfound⟩
    have hmem : found ∈ texts := (mem_of_mapM htexts).mpr ⟨message, hmessage, hscanned⟩
    exact Or.inr ⟨shown, List.mem_flatten.mpr ⟨found, hmem, hshown⟩, hfound⟩

/-- A hash that a pattern finds in a text of the conversation is reported. -/
theorem exists_scanForMarkers (hsupported : ∀ message ∈ messages, Supported message)
    {message : Value} (hmessage : message ∈ messages) {shown : Text} (hshows : Shows message shown)
    (hfound : hash ∈ foundHashes tables shown) (hne : hash ≠ []) :
    ∃ detected, scanForMarkers tables messages = some detected ∧ hash ∈ detected := by
  obtain ⟨texts, htexts⟩ := Option.isSome_iff_exists.mp
    (isSome_mapM.mpr fun message hmessage => isSome_scannedTexts (hsupported message hmessage))
  have hscan : scanForMarkers tables messages =
      some (texts.flatten.foldl (scanText tables) []) := by
    rw [scanForMarkers, htexts]
    rfl
  obtain ⟨found, hscanned⟩ := Option.isSome_iff_exists.mp
    (isSome_scannedTexts (hsupported message hmessage))
  exact ⟨_, hscan, (mem_scanForMarkers hscan).mpr ⟨message, hmessage, found, hscanned, shown,
    mem_scannedTexts hshows hscanned, hfound, hne⟩⟩

end

end Legroom.Ccr
