import Legroom.Lib.Python.Text
import Mathlib.Algebra.Order.Ring.Int

/-!
# Repeated lines across turns

A run of lines that an earlier block already shows is replaced by a pointer to it.
Line numbers in front of the lines may have shifted, all by the same amount.
-/

namespace Legroom.CrossTurnDedup

open Python

structure DedupBlock where
  text : Text
  turn : ℤ
  isProtected : Bool
deriving DecidableEq

/-! ## Lines -/

/-- A line without the number in front of it.  The key keeps the separator. -/
structure NumberedLine where
  number : Option ℕ
  key : Text
  content : Text

/-- A line that is a pointer, and what it points to. -/
structure Pointer where
  span : List Text
  refTurn : ℤ
  delta : ℤ
  text : Text
deriving DecidableEq

/-- A part of a block that was emitted. -/
inductive Piece where
  | line (text : Text)
  | folded (pointer : Pointer)
deriving DecidableEq

def Piece.text : Piece → Text
  | .line text => text
  | .folded pointer => pointer.text

/-- The lines in a block for which a piece stands. -/
def Piece.covered : Piece → List Text
  | .line text => [text]
  | .folded pointer => pointer.span

/-- What is left of them; `None` for a line that is not shown any more. -/
def Piece.verbatim : Piece → List (Option Text)
  | .line text => [some text]
  | .folded pointer => List.replicate pointer.span.length none

structure EmittedBlock where
  turn : ℤ
  isProtected : Bool
  pieces : List Piece
deriving DecidableEq

def EmittedBlock.text (block : EmittedBlock) : Text := joinLines (block.pieces.map Piece.text)

def EmittedBlock.verbatim (block : EmittedBlock) : List (Option Text) :=
  block.pieces.flatMap Piece.verbatim

/-- A block as it came. -/
def emitUnchanged (block : DedupBlock) : EmittedBlock where
  turn := block.turn
  isProtected := block.isProtected
  pieces := (splitLines block.text).map Piece.line

def maxAnchorCandidates : ℕ := 16

/-- Where the lines with a key are: the block and the line in it. -/
abbrev AnchorIndex := Text → List (ℕ × ℕ)

/-- The blocks so far.  A reference needs the lines of a block and its turn. -/
structure Corpus where
  blocks : List (ℤ × List (Option Text))
  anchors : AnchorIndex

def Corpus.empty : Corpus := ⟨[], fun _ => []⟩

section

variable (tables : CharTables)

/-- Nothing if the number has too many digits. -/
def numAndKey (line : Text) : Option NumberedLine :=
  let digits := line.takeWhile (isDecimal tables)
  match digits, line.drop digits.length with
  | _ :: _, separator :: content =>
      if separator = colon ∨ separator = tab then
        (parseInt tables digits).map fun number => ⟨some number, separator :: content, content⟩
      else some ⟨none, line, line⟩
  | _, _ => some ⟨none, line, line⟩

def trivialLines : List Text :=
  ["return", "pass", "else:", "try:", "except:", "finally:", "break", "continue", "\x7d);", "\x7d)",
    "],", "),", "\"\"\"", "\x27\x27\x27", "..."].map text

def isTrivial (line : Text) : Bool :=
  let stripped := strip tables line
  stripped.length < 4 || stripped ∈ trivialLines

/-! ## Pointers -/

/-- The beginning of the first line that is not blank. -/
def anchorOf (span : List Text) : Option Text :=
  match span.find? fun line => !(strip tables line).isEmpty with
  | some line => (numAndKey tables line).map fun found =>
      let anchor := strip tables found.content
      if 20 < anchor.length then anchor.take 17 ++ text "..." else anchor
  | none => some []

/-- A shift of zero is not written. -/
def shiftText (delta : ℤ) : Option Text :=
  if delta = 0 then some []
  else (signedText delta).map fun shift => text " " ++ shift ++ text "L"

/-- The line that names the original. -/
def pointerText (span : List Text) (refTurn delta : ℤ) : Option Text := do
  let anchor ← anchorOf tables span
  let count ← intText span.length
  let turn ← intText refTurn
  let shift ← shiftText delta
  return text "[↑" ++ count ++ text "L same as msg " ++ turn ++ shift ++ text ": " ++
    repr tables anchor ++ text "]"

/-! ## The index -/

def remember (block : ℕ) (anchors : AnchorIndex) (entry : Option Text × ℕ) :
    Option AnchorIndex :=
  match entry.1 with
  | none => some anchors
  | some line => (numAndKey tables line).map fun found =>
      if isTrivial tables found.content then anchors
      else fun key =>
        if key = found.key ∧ (anchors key).length < maxAnchorCandidates then
          anchors key ++ [(block, entry.2)]
        else anchors key

def indexLines (lines : List (Option Text)) (block : ℕ) (anchors : AnchorIndex) :
    Option AnchorIndex :=
  lines.zipIdx.foldlM (remember tables block) anchors

/-! ## Matching -/

/-- How two lines that are at the same place go together: the shift that they have in
common, if they have numbers. -/
def pairShift (current original : Text) : Option (Option (Option ℤ)) := do
  let left ← numAndKey tables current
  let right ← numAndKey tables original
  if left.key ≠ right.key then return none
  match left.number, right.number with
  | some number, some other => return some (some ((number : ℤ) - other))
  | _, _ => return if current = original then some none else none

/-- The length of a run and its shift. -/
def matchRun : List Text → List (Option Text) → Option ℤ → Option (ℕ × Option ℤ)
  | current :: lines, some original :: others, delta => do
      match ← pairShift tables current original with
      | none => return (0, delta)
      | some none => do
          let (length, delta) ← matchRun lines others delta
          return (length + 1, delta)
      | some (some shift) =>
          if delta.any (· ≠ shift) then return (0, delta)
          let (length, delta) ← matchRun lines others (some shift)
          return (length + 1, delta)
  | _, _, delta => some (0, delta)

structure Match where
  length : ℕ
  block : ℕ
  line : ℕ
  delta : ℤ

/-- The longer run, the first of those that are as long. -/
def betterMatch (corpus : Corpus) (lines : List Text) (best : Match) (candidate : ℕ × ℕ) :
    Option Match := do
  let block := (corpus.blocks.map Prod.snd).getD candidate.1 []
  let (length, delta) ← matchRun tables lines (block.drop candidate.2) none
  return if best.length < length then ⟨length, candidate.1, candidate.2, delta.getD 0⟩ else best

/-- The longest run from the first of some lines. -/
def longestMatch (corpus : Corpus) (lines : List Text) : Option Match := do
  let found ← (lines.head?.map (numAndKey tables)).getD (some ⟨none, [], []⟩)
  (corpus.anchors found.key).foldlM (betterMatch tables corpus lines) ⟨0, 0, 0, 0⟩

/-! ## Blocks -/

variable (minLines minChars : ℤ)

/-- A run that is long enough for a pointer. -/
def Match.isFolded (found : Match) (lines : List Text) : Bool :=
  found.length ≠ 0 ∧ minLines ≤ found.length ∧
    minChars ≤ (joinLines (lines.take found.length)).length

/-- The pieces of a block, of which no more than `fuel` lines are left. -/
def scanLines (corpus : Corpus) : ℕ → List Text → Option (List Piece)
  | fuel + 1, line :: lines => do
      let found ← longestMatch tables corpus (line :: lines)
      if found.isFolded minLines minChars (line :: lines) then
        let span := (line :: lines).take found.length
        let refTurn := (corpus.blocks.map Prod.fst).getD found.block 0
        let pointer ← pointerText tables span refTurn found.delta
        let pieces ← scanLines corpus fuel ((line :: lines).drop found.length)
        return .folded ⟨span, refTurn, found.delta, pointer⟩ :: pieces
      else
        let pieces ← scanLines corpus fuel lines
        return .line line :: pieces
  | _, _ => some []

variable {tables minLines minChars} in
/-- The first line is kept, or a run from it is folded. -/
theorem scanLines_cases {corpus : Corpus} {fuel : ℕ} {line : Text} {lines : List Text}
    {pieces : List Piece}
    (hscan : scanLines tables minLines minChars corpus (fuel + 1) (line :: lines) = some pieces) :
    ∃ found, longestMatch tables corpus (line :: lines) = some found ∧
      ((found.isFolded minLines minChars (line :: lines) = false ∧
        ∃ rest, scanLines tables minLines minChars corpus fuel lines = some rest ∧
          pieces = .line line :: rest) ∨
      found.isFolded minLines minChars (line :: lines) = true ∧
        ∃ pointer, pointerText tables ((line :: lines).take found.length)
            ((corpus.blocks.map Prod.fst).getD found.block 0) found.delta = some pointer ∧
          ∃ rest, scanLines tables minLines minChars corpus fuel
              ((line :: lines).drop found.length) = some rest ∧
            pieces = .folded ⟨(line :: lines).take found.length,
              (corpus.blocks.map Prod.fst).getD found.block 0, found.delta, pointer⟩ :: rest) := by
  simp only [scanLines, bind, Option.bind_eq_some_iff] at hscan
  obtain ⟨found, hfound, hscan⟩ := hscan
  refine ⟨found, hfound, ?_⟩
  split_ifs at hscan with hfold
  · obtain ⟨pointer, hpointer, hscan⟩ := Option.bind_eq_some_iff.mp hscan
    obtain ⟨rest, hrest, hpieces⟩ := Option.bind_eq_some_iff.mp hscan
    exact .inr ⟨hfold, pointer, hpointer, rest, hrest, (Option.some.inj hpieces).symm⟩
  · obtain ⟨rest, hrest, hpieces⟩ := Option.bind_eq_some_iff.mp hscan
    exact .inl ⟨Bool.eq_false_iff.mpr hfold, rest, hrest, (Option.some.inj hpieces).symm⟩

def emit (corpus : Corpus) (block : DedupBlock) : Option EmittedBlock :=
  if block.isProtected then some (emitUnchanged block)
  else
    let lines := splitLines block.text
    (scanLines tables minLines minChars corpus lines.length lines).map fun pieces =>
      ⟨block.turn, false, pieces⟩

/-- The corpus with one more block. -/
def extend (corpus : Corpus) (emitted : EmittedBlock) : Option Corpus :=
  (indexLines tables emitted.verbatim corpus.blocks.length corpus.anchors).map fun anchors =>
    ⟨corpus.blocks ++ [(emitted.turn, emitted.verbatim)], anchors⟩

def dedupFrom : Corpus → List DedupBlock → Option (List EmittedBlock)
  | _, [] => some []
  | corpus, block :: blocks => do
      let emitted ← emit tables minLines minChars corpus block
      let corpus ← extend tables corpus emitted
      let rest ← dedupFrom corpus blocks
      return emitted :: rest

/-- All blocks as they came if anything fails. -/
def dedupBlocks (blocks : List DedupBlock) : List EmittedBlock :=
  (dedupFrom tables minLines minChars .empty blocks).getD (blocks.map emitUnchanged)

end

end Legroom.CrossTurnDedup
