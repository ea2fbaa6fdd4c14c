import Legroom.Ccr.ToolInjection
import Legroom.Transforms.LosslessCompaction

/-!
# The router without retrieval

In lossless mode a content is folded in the way that saves most, as a whole or section by
section.  What is found in the content decides which.
-/

/-!
## Contents that meet

What was compacted can be decoded, and what was passed is itself.  But the output does
not say which of the two happened: a content may be what another one becomes.
-/

namespace Legroom.LosslessCompaction

open Python

/-- The kinds that have an inverse. -/
inductive ReversibleKind where
  | log | search | paths | text | config

namespace ReversibleKind

def kind : ReversibleKind → Kind
  | .log => .log
  | .search => .search
  | .paths => .paths
  | .text => .text
  | .config => .config

/-- What is encoded. -/
def baseline : ReversibleKind → Text → Text
  | .log, content => stripAnsi content
  | _, content => content

def encode (tables : CharTables) : ReversibleKind → Text → Option Text
  | .log, content => collapseRuns content
  | .search, content => some (searchHeading tables content)
  | .paths, content => some (pathHeading tables content)
  | .text, content => collapseRuns content
  | .config, content => (collapseRuns content).bind foldRepeatedBlocks

def decode (tables : CharTables) : ReversibleKind → Text → Option Text
  | .log, candidate => expandRuns tables candidate
  | .search, candidate => some (searchUnheading tables candidate)
  | .paths, candidate => some (pathUnheading candidate)
  | .text, candidate => expandRuns tables candidate
  | .config, candidate => (unfoldRepeatedBlocks tables candidate).bind (expandRuns tables)

end ReversibleKind

section

variable {tables : CharTables}

theorem verified_cases (encode decode : Text → Option Text) (baseline content : Text) :
    (verified encode decode baseline content).getD content = content ∨
      ∃ candidate, encode baseline = some candidate ∧ decode candidate = some baseline ∧
        candidate.length < content.length ∧
          (verified encode decode baseline content).getD content = candidate := by
  simp only [verified, bind]
  cases hencode : encode baseline with
  | none => exact .inl rfl
  | some candidate =>
      cases hdecode : decode candidate with
      | none =>
          left
          rw [Option.bind_some, hdecode]
          rfl
      | some restored =>
          rw [Option.bind_some, hdecode, Option.bind_some]
          split_ifs with hrestored hsmaller
          · exact .inl rfl
          · rw [not_not] at hrestored
            subst hrestored
            exact .inr ⟨candidate, rfl, hdecode, of_decide_eq_true hsmaller, rfl⟩
          · exact .inl rfl

/-- A content is passed, or replaced by what it is encoded as. -/
theorem compactLossless_cases (kind : ReversibleKind) (content : Text) :
    compactLossless tables content kind.kind = content ∨
      kind.encode tables (kind.baseline content) =
          some (compactLossless tables content kind.kind) ∧
        kind.decode tables (compactLossless tables content kind.kind) =
            some (kind.baseline content) ∧
          (compactLossless tables content kind.kind).length < content.length := by
  have heq : compactLossless tables content kind.kind = if content = [] then content else
      (verified (kind.encode tables) (kind.decode tables) (kind.baseline content) content).getD
        content := by
    cases kind with
    | log => rfl
    | search => rfl
    | paths => rfl
    | text => rfl
    | config => rfl
  rw [heq]
  split_ifs
  · exact .inl rfl
  · rcases verified_cases (kind.encode tables) (kind.decode tables) (kind.baseline content) content with
      hpassed | ⟨candidate, hencode, hdecode, hsmaller, hresult⟩
    · exact .inl hpassed
    · rw [hresult]
      exact .inr ⟨hencode, hdecode, hsmaller⟩

/-- A content that stays as it is. -/
def Passes (tables : CharTables) (kind : ReversibleKind) (content : Text) : Prop :=
  compactLossless tables content kind.kind = content

/-- Contents meet if one is passed and the other becomes it.  Apart from that only the
colours of a log are lost. -/
theorem compactLossless_eq_iff (tables : CharTables) (kind : ReversibleKind) :
    (∀ content, ¬Passes tables kind content →
      kind.decode tables (compactLossless tables content kind.kind) =
        some (kind.baseline content)) ∧
    ∀ left right,
      compactLossless tables left kind.kind = compactLossless tables right kind.kind ↔
        left = right ∨
        (Passes tables kind right ∧ compactLossless tables left kind.kind = right) ∨
        (Passes tables kind left ∧ compactLossless tables right kind.kind = left) ∨
        (¬Passes tables kind left ∧ ¬Passes tables kind right ∧
          kind.baseline left = kind.baseline right) := by
  have hcompacted : ∀ content, ¬Passes tables kind content →
      kind.encode tables (kind.baseline content) =
          some (compactLossless tables content kind.kind) ∧
        kind.decode tables (compactLossless tables content kind.kind) =
          some (kind.baseline content) := by
    intro content hcontent
    rcases compactLossless_cases kind content with hpassed | ⟨hencode, hdecode, -⟩
    · exact absurd hpassed hcontent
    · exact ⟨hencode, hdecode⟩
  refine ⟨fun content hcontent => (hcompacted content hcontent).2, fun left right => ?_⟩
  constructor
  · intro hsame
    by_cases hleft : Passes tables kind left
    · exact .inr (.inr (.inl ⟨hleft, hsame.symm.trans hleft⟩))
    · by_cases hright : Passes tables kind right
      · exact .inr (.inl ⟨hright, hsame.trans hright⟩)
      · refine .inr (.inr (.inr ⟨hleft, hright, Option.some.inj ?_⟩))
        rw [← (hcompacted left hleft).2, hsame, (hcompacted right hright).2]
  · rintro (rfl | ⟨hright, hmeets⟩ | ⟨hleft, hmeets⟩ | ⟨hleft, hright, hbaseline⟩)
    · rfl
    · exact hmeets.trans hright.symm
    · exact hleft.trans hmeets.symm
    · refine Option.some.inj ?_
      rw [← (hcompacted left hleft).1, hbaseline, (hcompacted right hright).1]

end

def repeatedLine : Text := text "connection refused, retrying"

/-- Three equal lines, and the same lines as they are compacted. -/
theorem run_meets_marker : ¬∀ (kind : ReversibleKind) (left right : Text),
    compactLossless asciiTables left kind.kind = compactLossless asciiTables right kind.kind →
      kind.baseline left = kind.baseline right := by
  intro hinjective
  have hsame := hinjective .text (joinLines [repeatedLine, repeatedLine, repeatedLine])
    (joinLines [repeatedLine, runMarker (text "3")]) (by decide +kernel)
  exact absurd hsame (by decide +kernel)

end Legroom.LosslessCompaction

/-! ## The router -/

namespace Legroom.LosslessRouter

open Python LosslessCompaction

inductive ContentType where
  | jsonArray | sourceCode | searchResults | buildOutput | gitDiff | html | tabular
  | structuredConfig | plainText
deriving DecidableEq

inductive CompressionStrategy where
  | codeAware | smartCrusher | search | log | kompress | text | diff | html | tabular | config
  | mixed | passthrough
deriving DecidableEq

/-- A typed section of a content; a code fence has a language. -/
structure ContentSection where
  content : Text
  contentType : ContentType
  language : Option Text
deriving DecidableEq

section

variable (tables : CharTables) (patterns : Ccr.PatternTables)

def isBlank (content : Text) : Bool := (strip tables content).isEmpty

/-! ## Sections -/

def fence : Text := text "```"

/-- The language of an opening fence. -/
def fenceLanguage (line : Text) : Option Text := do
  let rest ← line.dropPrefix? fence
  if (rest.dropWhile patterns.isWord).all tables.isSpace then some (rest.takeWhile patterns.isWord)
  else none

def startsFence (line : Text) : Bool := fence.isPrefixOf line

/-- A line that begins like a JSON document. -/
def startsJson (line : Text) : Bool :=
  (strip tables line).head?.any fun char => char = codePoint '[' ∨ char = codePoint '\x7b'

/-- `^\S+:\d+:` -/
def searchResultPattern : List (Regex.Piece CodePoint) :=
  [.run (fun char => !tables.isSpace char) 1 none true false, Ccr.character colon,
    .run (isDecimal tables) 1 none true false, Ccr.character colon]

def isSearchResult (line : Text) : Bool :=
  !(Regex.matchesAt (searchResultPattern tables) none line).isEmpty

structure BracketState where
  brackets : ℤ
  braces : ℤ
  inString : Bool
  escaped : Bool

namespace BracketState

def initial : BracketState := ⟨0, 0, false, false⟩

def step (state : BracketState) (char : CodePoint) : BracketState :=
  if state.escaped then { state with escaped := false }
  else if char = codePoint '\\' then { state with escaped := state.inString }
  else if char = codePoint '"' then { state with inString := !state.inString }
  else if state.inString then state
  else if char = codePoint '[' then { state with brackets := state.brackets + 1 }
  else if char = codePoint ']' then { state with brackets := state.brackets - 1 }
  else if char = codePoint '\x7b' then { state with braces := state.braces + 1 }
  else if char = codePoint '\x7d' then { state with braces := state.braces - 1 }
  else state

end BracketState

/-- The lines up to the one where all brackets are closed, and the lines behind it. -/
def extractJsonBlock : BracketState → List Text → Option (List Text × List Text)
  | _, [] => none
  | state, line :: rest =>
      let state := line.foldl BracketState.step state
      if state.brackets ≤ 0 ∧ state.braces ≤ 0 then some ([line], rest)
      else (extractJsonBlock state rest).map fun (block, behind) => (line :: block, behind)

/-- A line that a section of text goes on with. -/
def continuesText (line : Text) : Bool :=
  !((fenceLanguage tables patterns line).isSome || startsJson tables line ||
    isSearchResult tables line)

/-- The sections of no more than `fuel` lines. -/
def splitFrom : ℕ → List Text → List ContentSection
  | fuel + 1, line :: rest =>
      match fenceLanguage tables patterns line with
      | some language =>
          ⟨joinLines (rest.takeWhile (!startsFence ·)), .sourceCode,
              some (if language = [] then text "unknown" else language)⟩ ::
            splitFrom fuel ((rest.dropWhile (!startsFence ·)).drop 1)
      | none =>
          -- A block begins with a bracket, so its text is never empty.
          match if startsJson tables line then extractJsonBlock .initial (line :: rest) else none with
          | some (block, behind) => ⟨joinLines block, .jsonArray, none⟩ :: splitFrom fuel behind
          | none =>
              if isSearchResult tables line then
                ⟨joinLines (line :: rest.takeWhile (isSearchResult tables)), .searchResults, none⟩ ::
                  splitFrom fuel (rest.dropWhile (isSearchResult tables))
              else
                let content := joinLines (line :: rest.takeWhile (continuesText tables patterns))
                let sections := splitFrom fuel (rest.dropWhile (continuesText tables patterns))
                if isBlank tables content then sections
                else ⟨content, .plainText, none⟩ :: sections
  | _, _ => []

def splitIntoSections (content : Text) : List ContentSection :=
  splitFrom tables patterns (splitLines content).length (splitLines content)

/-! ## Folds -/

def looksLikeDiff (content : Text) : Bool :=
  text "diff --git " <:+: content ∨ text "\n@@ " <:+: content ∨ text "@@ " <+: content ∨
    text "--- " <+: content

/-- The fold that belongs to a strategy. -/
def primaryKind : CompressionStrategy → Option Kind
  | .search => some .search
  | .log => some .log
  | .diff => some .diff
  | .config => some .config
  | _ => none

def foldOrder (content : Text) (strategy : CompressionStrategy) : List Kind :=
  let primary := primaryKind strategy
  let order := primary.toList ++
    [Kind.search, .paths, .log, .diff, .text].filter fun kind => some kind ≠ primary
  if strategy ≠ .diff ∧ ¬looksLikeDiff content then order.filter (· ≠ .diff) else order

/-- The smallest fold of a content, the first one of several, and its kind. -/
def losslessFirst (content : Text) (strategy : CompressionStrategy) : Text × Option Kind :=
  (foldOrder content strategy).foldl (fun best kind =>
    let candidate := compactLossless tables content kind
    if candidate.length < best.1.length then (candidate, some kind) else best) (content, none)

/-! ## Routing -/

/-- What is found in contents. -/
structure Detector where
  isMixedContent : Text → Bool
  detect : Text → ContentType
  /-- The confidence is 0.8 at least. -/
  isConfident : Text → Bool

def strategyFromDetectionType : ContentType → CompressionStrategy
  | .sourceCode => .codeAware
  | .jsonArray => .smartCrusher
  | .searchResults => .search
  | .buildOutput => .log
  | .gitDiff => .diff
  | .html => .html
  | .tabular => .tabular
  | .structuredConfig => .config
  | .plainText => .text

structure RouterConfig where
  preferCodeAwareForCode : Bool
  forceKompress : Bool

def strategyFromDetection (config : RouterConfig) (found : ContentType) : CompressionStrategy :=
  let strategy := strategyFromDetectionType found
  if strategy = .codeAware ∧ !config.preferCodeAwareForCode then .passthrough else strategy

def determineStrategy (config : RouterConfig) (detector : Detector) (content : Text) :
    CompressionStrategy :=
  let found := detector.detect content
  if detector.isMixedContent content then
    if found = .sourceCode ∧ detector.isConfident content then strategyFromDetection config found
    else .mixed
  else strategyFromDetection config found

structure FoldedSection where
  original : ContentSection
  folded : Text
  fold : Option Kind
deriving DecidableEq

/-- Where the compressed text comes from. -/
inductive Origin where
  | passed
  | folded (kind : Kind)
  | reassembled (sections : List FoldedSection)
deriving DecidableEq

structure RouterCompressionResult where
  compressed : Text
  origin : Origin

def foldSection (original : ContentSection) : FoldedSection :=
  let (folded, fold) :=
    losslessFirst tables original.content (strategyFromDetectionType original.contentType)
  ⟨original, folded, fold⟩

/-- The text of a section, between fences again if it was a code fence. -/
def FoldedSection.emitted (folded : FoldedSection) : Text :=
  match folded.original.language with
  | some language =>
      fence ++ language ++ [newline] ++ folded.folded ++ [newline] ++ fence
  | none => folded.folded

def compressMixed (content : Text) : RouterCompressionResult :=
  let sections := (splitIntoSections tables patterns content).map (foldSection tables)
  if sections.isEmpty then ⟨content, .passed⟩
  else ⟨[newline, newline].intercalate (sections.map FoldedSection.emitted), .reassembled sections⟩

def compressPure (content : Text) (strategy : CompressionStrategy) : RouterCompressionResult :=
  match losslessFirst tables content strategy with
  | (folded, some kind) => ⟨folded, .folded kind⟩
  | (_, none) => ⟨content, .passed⟩

/-- `ContentRouter.compress` in lossless mode.  A blank result is never taken. -/
def compress (config : RouterConfig) (detector : Detector) (content : Text) :
    RouterCompressionResult :=
  if isBlank tables content then ⟨content, .passed⟩
  else
    let strategy :=
      if config.forceKompress then .kompress else determineStrategy config detector content
    let result :=
      if strategy = .mixed then compressMixed tables patterns content
      else compressPure tables content strategy
    if isBlank tables result.compressed then ⟨content, .passed⟩ else result

end

end Legroom.LosslessRouter
